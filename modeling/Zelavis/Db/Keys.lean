import Zelavis.Db.Model

/-!
# Order-preserving binary keys

`keys.ts`: every lens of the store is a range of one keyspace, told apart by a tag byte.
-/

namespace Zelavis.Db

open Lib

/-- A key of the engine. -/
abbrev Key := Bytes

/-! ## Lens tags -/

namespace Tag

/-- `Tag.Payload`. -/
abbrev payload : Byte := 0x01
/-- `Tag.Manifest`. -/
abbrev manifest : Byte := 0x02
/-- `Tag.Term`. -/
abbrev term : Byte := 0x03
/-- `Tag.Measure`. -/
abbrev measure : Byte := 0x05
/-- `Tag.Edge`. -/
abbrev edge : Byte := 0x06
/-- `Tag.Identity`. -/
abbrev identity : Byte := 0x07
/-- `Tag.IdentityBySeq`. -/
abbrev identityBySeq : Byte := 0x08
/-- `Tag.Meta`. -/
abbrev «meta» : Byte := 0x09
/-- `Tag.Event`. -/
abbrev event : Byte := 0x0a
/-- `Tag.Segment`. -/
abbrev segment : Byte := 0x0b
/-- `Tag.Tombstone`. -/
abbrev tombstone : Byte := 0x0c
/-- `Tag.Ordered`. -/
abbrev ordered : Byte := 0x0d
/-- `Tag.Dirty`. -/
abbrev dirty : Byte := 0x0e
/-- `Tag.Snapshot`. -/
abbrev snapshot : Byte := 0x0f
/-- `Tag.EdgeReverse`. -/
abbrev edgeReverse : Byte := 0x10

end Tag

/-! ## Strings -/

/-- One byte escaped: `0x00` and `0x01` become pairs led by `0x01`. -/
def escapeByte (b : Byte) : Bytes :=
  if b = 0x00 then [0x01, 0x01] else if b = 0x01 then [0x01, 0x02] else [b]

def writeEscapedPrefix (bytes : Bytes) : Bytes := bytes.flatMap escapeByte

def writeEscaped (bytes : Bytes) : Bytes := writeEscapedPrefix bytes ++ [0x00]

def writeString (value : Utf16) : Bytes := writeEscaped (utf8 value)

/-- An escaped string and the bytes after its terminator. Source: `readEscaped`. -/
def readEscaped : Bytes → Bytes × Bytes
  | [] => ([], [])
  | [b] => (if b = 0x00 then [] else [b], [])
  | b :: c :: rest =>
    if b = 0x00 then ([], c :: rest)
    else if b = 0x01 then
      let (raw, next) := readEscaped rest
      ((if c = 0x01 then 0x00 else 0x01) :: raw, next)
    else
      let (raw, next) := readEscaped (c :: rest)
      (b :: raw, next)

/-- A string and the bytes after it. Source: `readString`. -/
def readString (bytes : Bytes) : Utf16 × Bytes :=
  let (raw, next) := readEscaped bytes
  (decodeText raw, next)

/-! ## Numbers of fixed width -/

def writeU32 (value : ℕ) : Bytes := bigEndian 4 value

/-- The four bytes at an index as a number; a byte past the end counts as zero.
Source: `readU32`. -/
def readU32 (bytes : Bytes) (at' : ℕ) : ℕ :=
  readBigEndian [bytes.getD at' 0, bytes.getD (at' + 1) 0, bytes.getD (at' + 2) 0, bytes.getD (at' + 3) 0]

/-! ## Ordered values -/

namespace Rank

/-- `Rank.False`. -/
abbrev «false» : Byte := 0x20
/-- `Rank.True`. -/
abbrev «true» : Byte := 0x21
/-- `Rank.Number`. -/
abbrev number : Byte := 0x30
/-- `Rank.String`. -/
abbrev string : Byte := 0x40
/-- `Rank.Bytes`. -/
abbrev bytes : Byte := 0x50
/-- `Rank.Null`. -/
abbrev null : Byte := 0x70

end Rank

/-- The first and last rank of a value's kind; booleans are one kind. Source: `kindOf`. -/
def kindOf : OrderedValue → Byte × Byte
  | .scalar .null => (Rank.null, Rank.null)
  | .scalar (.boolean _) => (Rank.false, Rank.true)
  | .scalar (.number _) => (Rank.number, Rank.number)
  | .scalar (.string _) => (Rank.string, Rank.string)
  | .bytes _ => (Rank.bytes, Rank.bytes)

def flipNumber : Bytes → Bytes
  | [] => []
  | b :: rest => if 0x80 ≤ b then (b :: rest).map Fin.rev else (b ^^^ 0x80) :: rest

/-- Eight bytes whose order is numeric order; throws on a number that is not finite.
Source: `writeNumber`. -/
def writeNumber (value : JsNumber) : Option Bytes :=
  if value.isFinite then some (flipNumber (bigEndian 8 value.normal.bits.val)) else none

/-- The number of eight such bytes. Source: `readNumber`. -/
def readNumber (bytes : Bytes) : JsNumber :=
  let raw := match bytes.take 8 with
    | [] => []
    | b :: rest => if 0x80 ≤ b then (b ^^^ 0x80) :: rest else (b :: rest).map Fin.rev
  ⟨Fin.ofNat _ (readBigEndian raw)⟩

def writeOrderedValue : OrderedValue → Option Bytes
  | .scalar .null => some [Rank.null]
  | .scalar (.boolean false) => some [Rank.false]
  | .scalar (.boolean true) => some [Rank.true]
  | .scalar (.number n) => (writeNumber n).map (Rank.number :: ·)
  | .scalar (.string s) => some (Rank.string :: writeString s)
  | .bytes b => some (Rank.bytes :: writeEscaped b)

/-- A value and the bytes after it; throws on an unknown kind. Source: `readOrderedValue`. -/
def readOrderedValue : Bytes → Option (OrderedValue × Bytes)
  | [] => none
  | b :: rest =>
    if b = Rank.null then some (.scalar .null, rest)
    else if b = Rank.false then some (.scalar (.boolean false), rest)
    else if b = Rank.true then some (.scalar (.boolean true), rest)
    else if b = Rank.number then some (.scalar (.number (readNumber rest)), rest.drop 8)
    else if b = Rank.string then
      let (value, next) := readString rest
      some (.scalar (.string value), next)
    else if b = Rank.bytes then
      let (raw, next) := readEscaped rest
      some (.bytes raw, next)
    else none

/-- Bytewise comparison, as a number with the sign of the order. Source: `compareKeys`. -/
def compareKeys : Key → Key → ℤ
  | a :: as, b :: bs => if a = b then compareKeys as bs else (a.val : ℤ) - b.val
  | as, bs => (as.length : ℤ) - bs.length

def sameOrderedKind (a b : OrderedValue) : Bool := (kindOf a).1 = (kindOf b).1

/-- Value order exactly as the ordered lens sorts; throws where an encoding does.
Source: `compareOrderedValues`. -/
def compareOrderedValues (a b : OrderedValue) : Option ℤ := do
  let left ← writeOrderedValue a
  let right ← writeOrderedValue b
  return compareKeys left right

/-! ## State keys -/

/-- `[Snapshot][seq]`. -/
def snapshotKey (seq : ℕ) : Key := Tag.snapshot :: writeU32 seq

def snapshotPrefix : Key := [Tag.snapshot]

/-- `[Payload][seq]`. -/
def payloadKey (seq : ℕ) : Key := Tag.payload :: writeU32 seq

/-- `[Manifest][seq]`. -/
def manifestKey (seq : ℕ) : Key := Tag.manifest :: writeU32 seq

/-- `[Identity][namespace][key]`. -/
def identityKey (ns key : Utf16) : Key := Tag.identity :: (writeString ns ++ writeString key)

def identityPrefix (ns : Utf16) : Key := Tag.identity :: writeString ns

/-- Every identity whose caller key starts with `pre`. -/
def identityNamePrefix (ns pre : Utf16) : Key :=
  Tag.identity :: (writeString ns ++ writeEscapedPrefix (utf8 pre))

/-- `[IdentityBySeq][seq]`. -/
def identityBySeqKey (seq : ℕ) : Key := Tag.identityBySeq :: writeU32 seq

/-- `[Meta][name]`. -/
def metaKey (name : Utf16) : Key := Tag.meta :: writeString name

/-- `[Event][position]`. -/
def eventKey (position : ℕ) : Key := Tag.event :: writeU32 position

def eventPrefix : Key := [Tag.event]

/-- The namespace and name an identity key records. Source: `decodeIdentity`. -/
def decodeIdentity (key : Key) : ObjectIdentity :=
  let (ns, next) := readString (key.drop 1)
  ⟨ns, (readString next).1⟩

def positionOf (key : Key) : ℕ := readU32 key 1

/-! ## Posting keys -/

/-- The live prefix of one value of one column; throws as the value's encoding does.
Source: `orderedValuePrefix`. -/
def orderedValuePrefix (column : Utf16) (value : OrderedValue) : Option Key :=
  (writeOrderedValue value).map fun v => Tag.ordered :: (writeString column ++ v)

/-- `[Ordered][column][value][seq]`. Source: `orderedKey`. -/
def orderedKey (column : Utf16) (value : OrderedValue) (seq : ℕ) : Option Key :=
  (orderedValuePrefix column value).map (· ++ writeU32 seq)

def orderedColumnPrefix (column : Utf16) : Key := Tag.ordered :: writeString column

/-- The run of one column holding values of one kind: its start and its end.
Source: `orderedKindRange`. -/
def orderedKindRange (column : Utf16) (value : OrderedValue) : Key × Key :=
  (orderedColumnPrefix column ++ [(kindOf value).1], orderedColumnPrefix column ++ [(kindOf value).2 + 1])

/-- `[Term][field][term]`. -/
def termPrefix (field term : Utf16) : Key := Tag.term :: (writeString field ++ writeString term)

/-- `[Term][field][term][seq]`. -/
def termKey (field term : Utf16) (seq : ℕ) : Key := termPrefix field term ++ writeU32 seq

/-- `[Term][field][escaped prefix]`, without the terminator. -/
def termPrefixKey (field pre : Utf16) : Key :=
  Tag.term :: (writeString field ++ writeEscapedPrefix (utf8 pre))

/-- Field and term of a term posting key or segment key. Source: `readTermKey`. -/
def readTermKey (key : Key) : Option (Utf16 × Utf16) :=
  if key.length < 2 then none
  else if key.head? ≠ some Tag.term ∧ key.head? ≠ some Tag.segment then none
  else
    let (field, next) := readString (key.drop 1)
    some (field, (readString next).1)

/-- `[Measure][column]`. -/
def measurePrefix (column : Utf16) : Key := Tag.measure :: writeString column

/-- `[Measure][column][seq]`. -/
def measureKey (column : Utf16) (seq : ℕ) : Key := measurePrefix column ++ writeU32 seq

/-- `[Edge][type][src]`. -/
def edgePrefix (edgeType : Utf16) (src : ℕ) : Key :=
  Tag.edge :: (writeString edgeType ++ writeU32 src)

/-- `[Edge][type][src][dst]`. -/
def edgeKey (edgeType : Utf16) (src dst : ℕ) : Key := edgePrefix edgeType src ++ writeU32 dst

/-- `[EdgeReverse][type][dst]`. -/
def reverseEdgePrefix (edgeType : Utf16) (dst : ℕ) : Key :=
  Tag.edgeReverse :: (writeString edgeType ++ writeU32 dst)

/-- `[EdgeReverse][type][dst][src]`. -/
def reverseEdgeKey (edgeType : Utf16) (dst src : ℕ) : Key :=
  reverseEdgePrefix edgeType dst ++ writeU32 src

def livePrefixOf (key : Key) : Key := key.take (key.length - 4)

/-- The trailing identifier of a posting key. Source: `seqOf`. -/
def seqOf (key : Key) : ℕ := readU32 key (key.length - 4)

/-- The column, value and identifier an ordered key records. Source: `decodeOrderedKey`. -/
def decodeOrderedKey (key : Key) : Option (Utf16 × OrderedValue × ℕ) := do
  let (column, next) := readString (key.drop 1)
  let (value, _) ← readOrderedValue next
  return (column, value, seqOf key)

/-! ## The sealed tier -/

def under (tag : Byte) (key : Key) : Key := tag :: key

/-- `[Dirty][live prefix][segment]`. -/
def dirtyKey (livePrefix : Key) (segment : ℕ) : Key := Tag.dirty :: (livePrefix ++ writeU32 segment)

/-- `[Segment][live prefix][index]`. -/
def segmentKey (livePrefix : Key) (index : ℕ) : Key :=
  under Tag.segment livePrefix ++ writeU32 index

def segmentPrefix (livePrefix : Key) : Key := under Tag.segment livePrefix

def segmentIndexOf (key : Key) : ℕ := readU32 key (key.length - 4)

def tombstoneKey (postingKey : Key) : Key := under Tag.tombstone postingKey

def tombstonePrefix (livePrefix : Key) : Key := under Tag.tombstone livePrefix

/-! ## Ranges -/

/-- Membership in a prefix's range, by comparison and never by bytes. Source: `inPrefixRange`. -/
def inPrefixRange (key pre : Key) : Bool :=
  if compareKeys key pre < 0 then false
  else match prefixEnd pre with
    | none => true
    | some e => compareKeys key e < 0

/-! ## Small facts -/

@[simp] lemma writeU32_length (n : ℕ) : (writeU32 n).length = 4 := bigEndian_length 4 n

variable {m n : ℕ}

lemma writeU32_inj : writeU32 m = writeU32 n ↔ m % 2 ^ 32 = n % 2 ^ 32 := by
  rw [writeU32, writeU32, bigEndian_inj]
  norm_num

lemma writeU32_mod (n : ℕ) : writeU32 (n % 2 ^ 32) = writeU32 n :=
  writeU32_inj.2 (Nat.mod_mod _ _)

lemma writeU32_lt_iff (hm : m < 2 ^ 32) (hn : n < 2 ^ 32) : writeU32 m < writeU32 n ↔ m < n :=
  bigEndian_lt_iff (by norm_num; omega) (by norm_num; omega)

lemma readU32_append (l r : Bytes) (n : ℕ) : readU32 (l ++ (writeU32 n ++ r)) l.length = n % 2 ^ 32 := by
  have hlen := writeU32_length n
  have hread : readBigEndian (writeU32 n) = n % 2 ^ 32 := by
    rw [writeU32, readBigEndian_bigEndian]
    norm_num
  rcases hw : writeU32 n with _ | ⟨a, _ | ⟨b, _ | ⟨c, _ | ⟨d, _ | ⟨e, t⟩⟩⟩⟩⟩ <;> rw [hw] at hlen <;>
    simp at hlen
  rw [hw] at hread
  rw [← hread, readU32]
  simp [List.getD_eq_getElem?_getD]

@[simp] lemma seqOf_append (l : Key) (n : ℕ) : seqOf (l ++ writeU32 n) = n % 2 ^ 32 := by
  have h := readU32_append l [] n
  rw [List.append_nil] at h
  rw [seqOf, List.length_append, writeU32_length, Nat.add_sub_cancel, h]

@[simp] lemma livePrefixOf_append (l : Key) (n : ℕ) : livePrefixOf (l ++ writeU32 n) = l := by
  simp [livePrefixOf]

@[simp] lemma segmentIndexOf_segmentKey (l : Key) (n : ℕ) :
    segmentIndexOf (segmentKey l n) = n % 2 ^ 32 := seqOf_append _ n

lemma compareKeys_neg_iff (a b : Key) : compareKeys a b < 0 ↔ a < b := by
  induction a generalizing b with
  | nil =>
    cases b with
    | nil => simp [compareKeys]
    | cons b bs => simp [compareKeys]; omega
  | cons a as ih =>
    cases b with
    | nil => simp [compareKeys]; omega
    | cons b bs =>
      rw [compareKeys, List.cons_lt_cons_iff]
      split_ifs with h
      · simp [h, ih]
      · simp only [h, false_and, or_false, Fin.lt_def]
        omega

lemma compareKeys_pos_iff (a b : Key) : 0 < compareKeys a b ↔ b < a := by
  induction a generalizing b with
  | nil =>
    cases b with
    | nil => simp [compareKeys]
    | cons b bs =>
      rw [compareKeys]
      · simp
      · simp
  | cons a as ih =>
    cases b with
    | nil =>
      rw [compareKeys]
      · simp
      · simp
    | cons b bs =>
      rw [compareKeys, List.cons_lt_cons_iff]
      split_ifs with h
      · simp [h, ih]
      · simp only [Ne.symm h, false_and, or_false, Fin.lt_def]
        omega

lemma inPrefixRange_iff (key pre : Key) : inPrefixRange key pre ↔ pre <+: key := by
  rw [← prefixEnd_range, inPrefixRange]
  simp only [compareKeys_neg_iff]
  rcases prefixEnd pre with _ | e <;> simp

end Zelavis.Db
