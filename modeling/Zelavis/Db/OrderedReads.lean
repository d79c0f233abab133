import Zelavis.Db.KvRead
import Zelavis.Db.Tuples

/-!
# The store over an ordered engine: ordered reads

`mergeOrdered` and `readOrdered` of `kv-store.ts`: one column's postings from both tiers as one run in
scan order, pulled a bounded step at a time.

A loop that is not done runs out of `fuel`, which the source has none of.
-/

namespace Zelavis.Db.OrderedReads

open Lib OrderedMap

/-- The smallest key above a key. Source: `successorOf`. -/
def successorOf (key : Key) : Key := key ++ [0]

def directed {α : Type} (reverse : Bool) (entries : List α) : List α :=
  if reverse then entries.reverse else entries

/-- The entries of a scan in a direction, and at most so many. Source: `scanOptions`. -/
def scanWith (m : Store) (pre : Key) (lo hi : Option Key) (reverse : Bool) (limit : ℕ) :
    List (Key × Stored) :=
  (directed reverse (scan m pre lo hi)).take limit

/-- Live keys pulled per step. Source: `LIVE_CHUNK`. -/
def LIVE_CHUNK : ℕ := 256

/-- Blobs fetched per step. Source: `BLOB_CHUNK`. -/
def BLOB_CHUNK : ℕ := 16

/-! ## One tier -/

/-- What is left to pull of the live tier. -/
structure LivePull where
  lo : Option Key
  hi : Option Key
  done : Bool := false
  chunk : ℕ

/-- What is left to pull of the sealed tier. -/
structure SealedPull where
  lo : Option Key
  hi : Option Key
  done : Bool := false

/-- What a read is of: a column's prefix, its bounds and its direction. -/
structure Span where
  pre : Key
  lo : Option Key
  hi : Option Key
  reverse : Bool

section

variable (m : Store) (span : Span)

/-- The next chunk of live keys. Source: `mergeOrdered`, `pullLive`. -/
def pullLive (p : LivePull) : List Key × LivePull :=
  if p.done then ([], p)
  else
    let chunk := (scanWith m span.pre p.lo p.hi span.reverse p.chunk).map Prod.fst
    let pulled := { p with done := decide (chunk.length < p.chunk), chunk := LIVE_CHUNK }
    match chunk.getLast? with
    | none => (chunk, pulled)
    | some last =>
      (chunk, if span.reverse then { pulled with hi := some last }
        else { pulled with lo := some (successorOf last) })

def keysOf (blob : Key × Stored) : List Key :=
  directed span.reverse (expandBlob blob span.lo span.hi)

def SealedPull.past (p : SealedPull) (reverse : Bool) (key : Key) : SealedPull :=
  if reverse then { p with hi := some key } else { p with lo := some (successorOf key) }

/-- Blobs expanded until there are keys enough for a step: the keys, what is left then, and how many
blobs it took. -/
def expandBlobs : List (Key × Stored) → SealedPull → List Key → ℕ → List Key × SealedPull × ℕ
  | [], p, keys, used => (keys, p, used)
  | blob :: blobs, p, keys, used =>
    let keys := keys ++ keysOf span blob
    if LIVE_CHUNK ≤ keys.length then (keys, p.past span.reverse blob.1, used + 1)
    else expandBlobs blobs (p.past span.reverse blob.1) keys (used + 1)

/-- The next keys of the blobs. Source: `mergeOrdered`, `pullSealed`. -/
def pullSealed : ℕ → SealedPull → Option (List Key × SealedPull)
  | 0, _ => none
  | fuel + 1, p =>
    if p.done then some ([], p)
    else
      let blobs := scanWith m (segmentPrefix span.pre) p.lo p.hi span.reverse BLOB_CHUNK
      let (keys, left, used) := expandBlobs span blobs p [] 0
      let left := { left with done := used = blobs.length ∧ blobs.length < BLOB_CHUNK }
      if 0 < keys.length then some (keys, left) else pullSealed fuel left

end

/-! ## Both tiers -/

/-- A row of an ordered read. -/
structure Row where
  key : Key
  seq : Seq
  value : OrderedValue
  deriving DecidableEq

/-- Why an ordered read answers no page. -/
inductive ReadFault where
  | foreignCursor (expected received : Utf16)
  | cursorMismatch
  | thrown
  deriving DecidableEq

/-- Two runs that are merged. -/
structure Merge where
  live : List Key := []
  sealed : List Key := []
  livePull : LivePull
  sealedPull : SealedPull
  liveEmpty : Bool := false
  sealedEmpty : Bool := false
  out : List Row := []

/-- Whether a key comes first in a direction. Source: `mergeOrdered`, `first`. -/
def first (reverse : Bool) (a b : Key) : Bool :=
  if reverse then 0 < compareKeys a b else compareKeys a b < 0

def Merge.pop (reverse : Bool) (s : Merge) : Option (Key × Merge) :=
  match s.live, s.sealed with
  | [], [] => none
  | x :: live, [] => some (x, { s with live })
  | [], y :: sealed => some (y, { s with sealed })
  | x :: live, y :: sealed =>
    if first reverse x y then some (x, { s with live })
    else if first reverse y x then some (y, { s with sealed })
    else some (x, { s with live, sealed })

section

variable (m : Store) (span : Span)

def Merge.refillLive (s : Merge) : Merge :=
  if s.live = [] ∧ s.liveEmpty = false then
    let pulled := pullLive m span s.livePull
    { s with live := pulled.1, livePull := pulled.2, liveEmpty := pulled.1.isEmpty }
  else s

/-- The keys of the blobs, pulled where there are none left of the last pull. -/
def Merge.refillSealed (fuel : ℕ) (s : Merge) : Option Merge :=
  if s.sealed = [] ∧ s.sealedEmpty = false then
    (pullSealed m span fuel s.sealedPull).map fun pulled =>
      { s with sealed := pulled.1, sealedPull := pulled.2, sealedEmpty := pulled.1.isEmpty }
  else some s

variable (removed : List Key) (filter : Option Postings) (limit : ℕ)

/-- A key of the run as a row, unless it is tombstoned or the filter refuses it. -/
def rowOf (key : Key) : Except ReadFault (Option Row) :=
  if removed.length ≠ 0 ∧ key ∈ removed then .ok none
  else
    match decodeOrderedKey key with
    | none => .error .thrown
    | some (_, value, seq) =>
      if filter.any fun run => !run.has seq then .ok none else .ok (some ⟨key, seq, value⟩)

/-- The loop of `mergeOrdered`: the first rows of the merged run. -/
def mergeLoop : ℕ → Merge → Option (Except ReadFault (List Row))
  | 0, _ => none
  | fuel + 1, s =>
    if limit ≤ s.out.length then some (.ok s.out)
    else
      match (s.refillLive m span).refillSealed m span fuel with
      | none => none
      | some s =>
        match s.pop span.reverse with
        | none => some (.ok s.out)
        | some (key, s) =>
          match rowOf removed filter key with
          | .error fault => some (.error fault)
          | .ok none => mergeLoop fuel s
          | .ok (some row) => mergeLoop fuel { s with out := s.out ++ [row] }

/-- One column's ordered postings from both tiers, as a single run in scan order; the blobs' bounds may
be wider than the keys'. Source: `mergeOrdered`. -/
def mergeOrdered (sealedLo sealedHi : Option Key) (fuel : ℕ) :
    Option (Except ReadFault (List Row)) :=
  mergeLoop m span (tombstonesIn m ⟨span.pre, span.lo, span.hi⟩) filter limit fuel {
    livePull := { lo := span.lo, hi := span.hi, chunk := min LIVE_CHUNK limit }
    sealedPull := { lo := sealedLo, hi := sealedHi } }

end

/-! ## A page -/

/-- Where an ordered read is continued, before it is spelled. Source: `encodeOrderedCursor`. -/
structure OrderedCursor where
  partition : Utf16
  column : Utf16
  direction : Direction
  key : Key
  deriving DecidableEq

/-- The key a cursor continues after. Source: `decodeOrderedCursor`. -/
def decodeOrderedCursor (partition column : Utf16) (direction : Direction) (cursor : OrderedCursor) :
    Except ReadFault Key :=
  if cursor.partition ≠ partition then .error (.foreignCursor partition cursor.partition)
  else if cursor.column ≠ column ∨ cursor.direction ≠ direction then .error .cursorMismatch
  else if inPrefixRange cursor.key (orderedColumnPrefix column) = false then .error .cursorMismatch
  else .ok cursor.key

/-- What is asked of an ordered read. Source: `store.ts` `OrderedReadInput`. -/
structure OrderedReadInput where
  column : Utf16
  direction : Direction := .asc
  lower : Option RangeBound := none
  upper : Option RangeBound := none
  query : Option Query := none
  limit : ℤ := 100
  after : Option OrderedCursor := none

/-- A page. Source: `store.ts` `OrderedPage`. -/
structure OrderedPage where
  rows : List (Row × OrderedCursor)
  next : Option OrderedCursor
  deriving DecidableEq

/-- What of a column is read: the keys', and the blobs', bounds. -/
structure ReadBounds where
  lo : Option Key
  hi : Option Key
  sealedLo : Option Key
  sealedHi : Option Key

def KeyBounds.forRead (bounds : KeyBounds) : ReadBounds where
  lo := bounds.lo
  hi := bounds.hi
  sealedLo := bounds.lo.map segmentPrefix
  sealedHi := bounds.hi.map segmentPrefix

/-- The bounds past a key that was returned; the blobs of its own value are read again. -/
def ReadBounds.continued (bounds : ReadBounds) (direction : Direction) (last : Key) : ReadBounds :=
  match direction with
  | .asc =>
    if bounds.lo.all fun lo => 0 < compareKeys (successorOf last) lo then
      { bounds with
        lo := some (successorOf last), sealedLo := some (segmentPrefix (livePrefixOf last)) }
    else bounds
  | .desc =>
    if bounds.hi.all fun hi => compareKeys last hi < 0 then
      { bounds with hi := some last, sealedHi := prefixEnd (segmentPrefix (livePrefixOf last)) }
    else bounds

def OrderedReadInput.bounds (partition : Utf16) (input : OrderedReadInput) :
    Except ReadFault ReadBounds :=
  if input.limit < 1 then .error .thrown
  else
    match rangeBounds input.column input.lower input.upper with
    | none => .error .thrown
    | some bounds =>
      match input.after with
      | none => .ok (KeyBounds.forRead bounds)
      | some cursor =>
        (decodeOrderedCursor partition input.column input.direction cursor).map
          ((KeyBounds.forRead bounds).continued input.direction)

def filterOf (m : Store) : Option Query → Except ReadFault (Option Postings)
  | none => .ok none
  | some query =>
    match evaluate m query with
    | none => .error .thrown
    | some run => .ok (some run)

/-- The page that the first rows make, one more than it has being asked for. -/
def pageOf (partition : Utf16) (input : OrderedReadInput) (rows : List Row) : OrderedPage :=
  let limit := input.limit.toNat
  let page := rows.take limit
  let out := page.map fun row =>
    (row, ({ partition, column := input.column, direction := input.direction, key := row.key } :
      OrderedCursor))
  { rows := out, next := if limit < rows.length then out.getLast?.map Prod.snd else none }

def readOrdered (partition : Utf16) (m : Store) (input : OrderedReadInput) (fuel : ℕ) :
    Option (Except ReadFault OrderedPage) :=
  match input.bounds partition, filterOf m input.query with
  | .error fault, _ => some (.error fault)
  | .ok _, .error fault => some (.error fault)
  | .ok bounds, .ok filter =>
    (mergeOrdered m ⟨orderedColumnPrefix input.column, bounds.lo, bounds.hi, input.direction = .desc⟩
      filter (input.limit.toNat + 1) bounds.sealedLo bounds.sealedHi fuel).map
        (Except.map (pageOf partition input))

end Zelavis.Db.OrderedReads
