import Zelavis.Lib.Unicode

/-!
# Records, manifests and events

The data `model.ts`, `events.ts` and the record shapes of `kv-store.ts` describe, and the check
each record passes when it is read back.
-/

namespace Zelavis.Db

open Lib

/-- A partition-local object identifier. Source: `model.ts` `Seq`. -/
abbrev Seq := ℕ

/-! ## Values -/

instance bitsCount : NeZero (2 ^ 64 : ℕ) := ⟨by decide⟩

/-- A JavaScript number: the bits of a float64. -/
structure JsNumber where
  bits : Fin (2 ^ 64)
  deriving DecidableEq

namespace JsNumber

/-- Neither infinite nor NaN: the exponent is not all ones. Source: `Number.isFinite`. -/
def isFinite (n : JsNumber) : Bool := n.bits.val / 0x10000000000000 % 0x800 ≠ 0x7ff

def isZero (n : JsNumber) : Bool := n.bits.val % 0x8000000000000000 = 0

/-- The number `0`. -/
def zero : JsNumber := ⟨0⟩

/-- The number with a negative zero written as zero, which `===` does not tell apart. -/
def normal (n : JsNumber) : JsNumber := if n.isZero then zero else n

/-- Sign and magnitude: the integer finite float64 numbers are ordered by. -/
def toInt (n : JsNumber) : ℤ :=
  if n.bits.val < 0x8000000000000000 then n.bits.val
  else -((n.bits.val : ℤ) - 0x8000000000000000)

end JsNumber

/-- JSON's scalars, the values a manifest carries. Source: `model.ts` `OrderedScalar`. -/
inductive OrderedScalar where
  | null
  | boolean (b : Bool)
  | number (n : JsNumber)
  | string (s : Utf16)
  deriving DecidableEq

/-- A value the ordered lens can sort. Source: `keys.ts` `OrderedValue`. -/
inductive OrderedValue where
  | scalar (v : OrderedScalar)
  | bytes (b : Bytes)
  deriving DecidableEq

/-! ## Records -/

/-- Everything one object contributed to the lenses. Source: `model.ts` `IndexManifest`. -/
structure IndexManifest where
  terms : List (Utf16 × Utf16) := []
  columns : List (Utf16 × OrderedScalar) := []
  measures : List (Utf16 × JsNumber) := []
  edges : List (Utf16 × Seq) := []
  deriving DecidableEq

/-- `emptyManifest`. -/
def emptyManifest : IndexManifest := {}

/-- A caller's own name for a record. Source: `model.ts` `ObjectIdentity`. -/
structure ObjectIdentity where
  ns : Utf16
  key : Utf16
  deriving DecidableEq

/-- The two kinds of event. -/
inductive EventKind where
  | put
  | retract
  deriving DecidableEq

/-- One entry of the log. Source: `kv-store.ts` `StoredEvent`. -/
structure StoredEvent where
  generation : ℕ
  seq : Seq
  kind : EventKind
  version : ℕ
  writtenAt : ℕ
  body : Option Bytes := none
  manifest : Option IndexManifest := none
  identity : Option ObjectIdentity := none
  deriving DecidableEq

/-- One live record as a snapshot holds it. Source: `kv-store.ts` `StoredSnapshot`. -/
structure StoredSnapshot where
  version : ℕ
  body : Bytes
  manifest : IndexManifest
  identity : Option ObjectIdentity := none
  deriving DecidableEq

/-- What stands under a key: bytes, or the record a JSON text spells. -/
inductive Stored where
  | raw (b : Bytes)
  | manifest (m : IndexManifest)
  | identity (i : ObjectIdentity)
  | event (e : StoredEvent)
  | snapshot (s : StoredSnapshot)
  deriving DecidableEq

/-! ## Through JSON and back -/

def jsonScalar : OrderedScalar → OrderedScalar
  | .number n => if n.isFinite then .number n.normal else .null
  | v => v

/-- What JSON keeps of a manifest. A measure that is not finite becomes a null, which no check
accepts as a number; it is kept as the non-finite number it was. -/
def jsonManifest (m : IndexManifest) : IndexManifest where
  terms := m.terms
  columns := m.columns.map fun c => (c.1, jsonScalar c.2)
  measures := m.measures.map fun c => (c.1, c.2.normal)
  edges := m.edges

def jsonEvent (e : StoredEvent) : StoredEvent := { e with manifest := e.manifest.map jsonManifest }

/-- Whether a manifest read back passes its check: finite numbers, and edges to identifiers of
four bytes. Source: `kv-store.ts` `manifestRecord`. -/
def manifestRecord (m : IndexManifest) : Bool :=
  m.measures.all (fun c => c.2.isFinite) && m.edges.all fun e => e.2 ≤ 0xffffffff

/-- Whether an event read back passes its check. Source: `kv-store.ts` `eventRecord`. -/
def eventRecord (e : StoredEvent) : Bool :=
  e.manifest.all manifestRecord && (e.kind = .retract || e.body.isSome && e.manifest.isSome)

def unjsonManifest : Stored → Option IndexManifest
  | .manifest m => if manifestRecord m then some m else none
  | _ => none

def unjsonIdentity : Stored → Option ObjectIdentity
  | .identity i => some i
  | _ => none

def unjsonEvent : Stored → Option StoredEvent
  | .event e => if eventRecord e then some e else none
  | _ => none

/-- A stored snapshot record, if it passes its check. Source: `kv-store.ts` `snapshotRecord`. -/
def unjsonSnapshot : Stored → Option StoredSnapshot
  | .snapshot s => if manifestRecord s.manifest then some s else none
  | _ => none

/-! ## What writing and reading keep -/

@[simp] lemma JsNumber.isZero_zero : zero.isZero = true := by decide

@[simp] lemma JsNumber.normal_normal (n : JsNumber) : n.normal.normal = n.normal := by
  by_cases h : n.isZero <;> simp [normal, h]

@[simp] lemma JsNumber.isFinite_normal (n : JsNumber) : n.normal.isFinite = n.isFinite := by
  by_cases h : n.isZero
  · have hz : n.bits.val % 0x8000000000000000 = 0 := by simpa [isZero] using h
    have hexp : n.bits.val / 0x10000000000000 % 0x800 ≠ 0x7ff := by omega
    rw [normal, if_pos h, show n.isFinite = true from decide_eq_true hexp]
    decide
  · rw [normal, if_neg h]

@[simp] lemma jsonScalar_jsonScalar (v : OrderedScalar) : jsonScalar (jsonScalar v) = jsonScalar v := by
  cases v with
  | number n => by_cases h : n.isFinite <;> simp [jsonScalar, h]
  | _ => rfl

@[simp] lemma jsonManifest_jsonManifest (m : IndexManifest) :
    jsonManifest (jsonManifest m) = jsonManifest m := by
  simp [jsonManifest, Function.comp_def]

end Zelavis.Db
