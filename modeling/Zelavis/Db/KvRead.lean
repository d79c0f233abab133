import Zelavis.Db.KvStore
import Zelavis.Db.Postings
import Zelavis.Db.Query

/-!
# The store over an ordered engine: reading

The reads of `kv-store.ts` that answer a query, as functions of what the engine holds.
-/

namespace Zelavis.Db

open Lib OrderedMap

/-! ## One prefix, both tiers -/

def sealedIds (m : Store) (pre : Key) : List ℕ :=
  (scan m (segmentPrefix pre) none none).flatMap fun entry =>
    decodeSegment (blobBytes entry.2) (segmentIndexOf entry.1 * SEGMENT_SPAN)

def liveIds (m : Store) (pre : Key) : List ℕ :=
  (scan m pre none none).map fun entry => seqOf entry.1

def removedIds (m : Store) (pre : Key) : List ℕ :=
  (scan m (tombstonePrefix pre) none none).map fun entry => seqOf entry.1

def postingsUnder (m : Store) (pre : Key) : Postings :=
  ((buildPostings (sealedIds m pre)).or (buildPostings (liveIds m pre))).andNot
    (buildPostings (removedIds m pre))

/-! ## The ordered lens over a range -/

/-- Where a range starts and ends in the keyspace. -/
structure KeyBounds where
  pre : Key
  lo : Option Key
  hi : Option Key

/-- Where a range starts: at a lower bound's value or just past it, or, with an upper bound alone,
where that bound's kind does. -/
def rangeFrom (column : Utf16) (lower upper : Option RangeBound) : Option (Option Key) :=
  match lower, upper with
  | some l, _ => (orderedValuePrefix column (.scalar l.value)).map fun start =>
      if l.inclusive then some start else prefixEnd start
  | none, some u => some (some (orderedKindRange column (.scalar u.value)).1)
  | none, none => some none

def rangeTo (column : Utf16) (lower upper : Option RangeBound) : Option (Option Key) :=
  match upper, lower with
  | some u, _ => (orderedValuePrefix column (.scalar u.value)).map fun start =>
      if u.inclusive then prefixEnd start else some start
  | none, some l => some (some (orderedKindRange column (.scalar l.value)).2)
  | none, none => some none

/-- The key range a pair of bounds covers in one column; throws as the encoding of a bound does.
Source: `rangeBounds`. -/
def rangeBounds (column : Utf16) (lower upper : Option RangeBound) : Option KeyBounds := do
  let lo ← rangeFrom column lower upper
  let hi ← rangeTo column lower upper
  return { pre := orderedColumnPrefix column, lo, hi }

/-- The tombstoned postings of a key range. Source: `tombstonesIn`. -/
def tombstonesIn (m : Store) (bounds : KeyBounds) : List Key :=
  (scan m (tombstonePrefix bounds.pre) (bounds.lo.map tombstonePrefix)
    (bounds.hi.map tombstonePrefix)).map fun entry => entry.1.drop 1

def blobPrefixOf (key : Key) : Key := livePrefixOf (key.drop 1)

/-- The live keys a blob stands for, ascending, from `lo` up to `hi`. Source: `expandBlob`. -/
def expandBlob (blob : Key × Stored) (lo hi : Option Key) : List Key :=
  ((decodeSegment (blobBytes blob.2) (segmentIndexOf blob.1 * SEGMENT_SPAN)).map fun id =>
    blobPrefixOf blob.1 ++ writeU32 id).filter fun key =>
      (lo.all fun l => ¬ compareKeys key l < 0) && hi.all fun h => compareKeys key h < 0

def blobIds (removed : List Key) (blob : Key × Stored) : List ℕ :=
  if removed.length = 0 then
    decodeSegment (blobBytes blob.2) (segmentIndexOf blob.1 * SEGMENT_SPAN)
  else ((expandBlob blob none none).filter fun key => key ∉ removed).map seqOf

def dropRepeats : Option ℕ → List ℕ → List ℕ
  | _, [] => []
  | previous, seq :: rest =>
    if previous = some seq then dropRepeats (some seq) rest
    else seq :: dropRepeats (some seq) rest

def foundIn (m : Store) (bounds : KeyBounds) : List ℕ :=
  (scan m bounds.pre bounds.lo bounds.hi).map (fun entry => seqOf entry.1) ++
    (scan m (segmentPrefix bounds.pre) (bounds.lo.map segmentPrefix)
      (bounds.hi.map segmentPrefix)).flatMap (blobIds (tombstonesIn m bounds))

def rangePostings (m : Store) (column : Utf16) (lower upper : Option RangeBound) :
    Option Postings :=
  (rangeBounds column lower upper).map fun bounds =>
    buildPostings (dropRepeats none ((foundIn m bounds).insertionSort (· ≤ ·)))

/-! ## Queries -/

mutual

def evaluate (m : Store) : Query → Option Postings
  | .range column lower upper => rangePostings m column lower upper
  | .term field name => some (postingsUnder m (termPrefix field name))
  | .termPrefix field pre => some (postingsUnder m (termPrefixKey field pre))
  | .equals column value => (orderedValuePrefix column (.scalar value)).map (postingsUnder m)
  | .edge edgeType src .inbound => some (postingsUnder m (reverseEdgePrefix edgeType src))
  | .edge edgeType src .outbound => some (postingsUnder m (edgePrefix edgeType src))
  | .and of => (evaluateEach m of).map Postings.andAll
  | .or of => (evaluateEach m of).map Postings.orAll

def evaluateEach (m : Store) : List Query → Option (List Postings)
  | [] => some []
  | q :: qs => do
    let run ← evaluate m q
    let runs ← evaluateEach m qs
    return run :: runs

end

def resolve (m : Store) (q : Query) : Option (List ℤ) := (evaluate m q).map Postings.iterate

/-! ## The vocabulary -/

/-- The term a key records, if it is one of a field that starts with a prefix. -/
def termOf (field pre : Utf16) (key : Key) : Option Utf16 :=
  match readTermKey key with
  | some (f, t) => if f = field && pre.isPrefixOf t then some t else none
  | none => none

/-- The terms of a field that start with a prefix: a set, in the order of code units. Source:
`terms`. -/
def terms (m : Store) (field pre : Utf16) : List Utf16 :=
  let start := termPrefixKey field pre
  let found := (scan m start none none).filterMap (fun entry => termOf field pre entry.1) ++
    (scan m (segmentPrefix start) none none).filterMap fun entry => termOf field pre entry.1
  found.dedup.insertionSort (· ≤ ·)

/-! ## One object -/

def lookup (m : Store) (ns key : Utf16) : Option (Option Seq) :=
  match m.get (identityKey ns key) with
  | none => some none
  | some stored => (recordU32 stored).map some

/-- Source: `identityOf`. -/
def identityAt (m : Store) (seq : Seq) : Option (Option ObjectIdentity) :=
  match m.get (identityBySeqKey seq) with
  | none => some none
  | some stored => (unjsonIdentity stored).map some

/-- The version and the bytes of an object. Source: `read`. -/
def readAt (m : Store) (seq : Seq) : Option (Option (ℕ × Bytes)) :=
  match m.get (payloadKey seq) with
  | none => some none
  | some stored => (recordU32 stored).map fun version => some (version, payloadBody stored)

/-- The stored manifest of an identifier of four bytes. Source: `manifestOf`. -/
def manifestAt (m : Store) (seq : Seq) : Option IndexManifest :=
  if seq < 2 ^ 32 then
    match m.get (manifestKey seq) with
    | some (.manifest man) => some man
    | _ => none
  else none

/-! ## Small facts -/

lemma manifestAt_eq_some {m : Store} {seq : Seq} {man : IndexManifest} :
    manifestAt m seq = some man ↔ seq < 2 ^ 32 ∧ m.get (manifestKey seq) = some (.manifest man) := by
  rw [manifestAt]
  split_ifs with h
  · rw [and_iff_right h]
    rcases m.get (manifestKey seq) with _ | ⟨b | man' | i | e | s⟩ <;> simp
  · simp only [h, false_and]

end Zelavis.Db
