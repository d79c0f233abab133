import Zelavis.Lib.Decoding
import Zelavis.Db.KeyOrder

/-!
# Tuples of values as one string

The composite keys of `keys.ts`: a tuple's fields encoded one after the other, a descending field
inverted, written as hexadecimal digits.
-/

namespace Zelavis.Db

open Lib List

/-- Ascending or descending. -/
inductive Direction where
  /-- `"asc"`. -/
  | asc
  /-- `"desc"`. -/
  | desc
  deriving DecidableEq

/-- Where documents without a value sort. Source: `documents.ts` `NullPlacement`. -/
inductive NullPlacement where
  /-- `"first"`. -/
  | first
  /-- `"last"`. -/
  | last
  deriving DecidableEq

/-- One field of a composite key. Source: `TupleComponent`. -/
structure TupleComponent where
  value : Option OrderedValue
  direction : Direction
  nulls : NullPlacement

/-- `NoValue.First`. -/
def NoValue.first : Byte := 0x10

/-- `NoValue.Last`. -/
def NoValue.last : Byte := 0xf0

def invert (bytes : Bytes) : Bytes := bytes.map Fin.rev

def componentBytes (component : TupleComponent) : Option Bytes :=
  let noValue := match component.nulls with
    | .first => NoValue.first
    | .last => NoValue.last
  match component.value with
  | none => some [noValue]
  | some (.scalar .null) => some [noValue]
  | some v =>
    (writeOrderedValue v).map fun out =>
      match component.direction with
      | .asc => out
      | .desc => invert out

/-! ## Hexadecimal -/

def hexDigit (n : ℕ) : CodeUnit := Fin.ofNat _ (if n < 10 then 0x30 + n else 0x61 + (n - 10))

def digitValue (u : CodeUnit) : ℕ := if u.val < 0x3A then u.val - 0x30 else u.val - 0x61 + 10

def hexOf (bytes : Bytes) : Utf16 :=
  bytes.flatMap fun b => [hexDigit (b.val / 16), hexDigit (b.val % 16)]

def ofHex : Utf16 → Bytes
  | high :: low :: rest => Fin.ofNat _ (digitValue high * 16 + digitValue low) :: ofHex rest
  | _ => []

lemma digitValue_hexDigit : ∀ n < 16, digitValue (hexDigit n) = n := by decide

lemma ofHex_hexOf (bytes : Bytes) : ofHex (hexOf bytes) = bytes := by
  induction bytes with
  | nil => rfl
  | cons b rest ih =>
    have hhigh : b.val / 16 < 16 := by have := b.isLt; omega
    have hlow : b.val % 16 < 16 := Nat.mod_lt _ (by omega)
    have hb : digitValue (hexDigit (b.val / 16)) * 16 + digitValue (hexDigit (b.val % 16)) = b.val := by
      rw [digitValue_hexDigit _ hhigh, digitValue_hexDigit _ hlow]
      omega
    have hrest : hexOf (b :: rest) = hexDigit (b.val / 16) :: hexDigit (b.val % 16) :: hexOf rest := rfl
    rw [hrest, ofHex, hb, ih]
    exact congrArg (· :: rest) (by simp)

/-! ## Tuples -/

/-- A tuple of values as a string whose order is the tuple's; throws where a value's encoding does.
Source: `orderedTuple`. -/
def orderedTuple (components : List TupleComponent) : Option Utf16 :=
  (components.mapM componentBytes).map fun fields => hexOf fields.flatten

def readComponent (direction : Direction) (bytes : Bytes) :
    Option (Option OrderedValue × Bytes) :=
  match bytes with
  | [] => none
  | b :: rest =>
    if b = NoValue.first ∨ b = NoValue.last then some (none, rest)
    else
      match direction with
      | .asc => (readOrderedValue bytes).map fun r => (some r.1, r.2)
      | .desc => (readOrderedValue (invert bytes)).map fun r => (some r.1, invert r.2)

def readComponents : List Direction → Bytes → Option (List (Option OrderedValue))
  | [], _ => some []
  | direction :: rest, bytes => do
    let (value, next) ← readComponent direction bytes
    let values ← readComponents rest next
    return value :: values

/-- The values of a tuple, nothing where a field had none. Source: `decodeOrderedTuple`. -/
def decodeOrderedTuple (tuple : Utf16) (directions : List Direction) :
    Option (List (Option OrderedValue)) := readComponents directions (ofHex tuple)

/-! ## The way back -/

@[simp] lemma invert_invert (bytes : Bytes) : invert (invert bytes) = bytes := by
  simp [invert, Function.comp_def]

@[simp] lemma invert_append (l r : Bytes) : invert (l ++ r) = invert l ++ invert r :=
  map_append

variable {v : OrderedValue} {w : Bytes}

lemma readOrderedValue_append (hw : writeOrderedValue v = some w) (rest : Bytes) :
    ∃ value, readOrderedValue (w ++ rest) = some (value, rest) := by
  obtain (_ | (_ | _) | n | s) | raw := v <;>
    simp [writeOrderedValue] at hw
  · subst hw
    exact ⟨_, rfl⟩
  · subst hw
    exact ⟨_, rfl⟩
  · subst hw
    exact ⟨_, rfl⟩
  · obtain ⟨body, hbody, rfl⟩ := hw
    have hlen := (writeNumber_eq_some hbody).2.1
    refine ⟨.scalar (.number (readNumber (body ++ rest))), ?_⟩
    simp only [cons_append, readOrderedValue]
    rw [if_neg (by decide), if_neg (by decide), if_neg (by decide), if_pos trivial]
    rw [drop_append_of_le_length hlen.ge, drop_of_length_le hlen.le, nil_append]
  · subst hw
    refine ⟨.scalar (.string (decodeText (utf8 s))), ?_⟩
    simp only [cons_append, readOrderedValue]
    rw [if_neg (by decide), if_neg (by decide), if_neg (by decide), if_neg (by decide), if_pos trivial]
    simp only [readString, writeString, readEscaped_writeEscaped]
  · subst hw
    refine ⟨.bytes raw, ?_⟩
    simp only [cons_append, readOrderedValue]
    rw [if_neg (by decide), if_neg (by decide), if_neg (by decide), if_neg (by decide),
      if_neg (by decide), if_pos trivial]
    simp only [readEscaped_writeEscaped]

lemma head_ne_noValue {b : Byte} {body : Bytes} (hw : writeOrderedValue v = some (b :: body)) :
    ¬(b = NoValue.first ∨ b = NoValue.last) ∧ ¬(Fin.rev b = NoValue.first ∨ Fin.rev b = NoValue.last) := by
  obtain ⟨b', body', heq, hb⟩ := writeOrderedValue_eq_some hw
  obtain ⟨rfl, -⟩ := List.cons.inj heq
  rcases hb with ⟨rfl, -⟩ | ⟨rfl | rfl, -⟩ | ⟨rfl | rfl | rfl, -⟩ <;> decide

lemma readComponent_append {c : TupleComponent}
    (hv : c.value = some v) (hnull : v ≠ .scalar .null) (hw : componentBytes c = some w) (rest : Bytes) :
    ∃ value, readComponent c.direction (w ++ rest) = some (some value, rest) := by
  have hw : (writeOrderedValue v).map (fun out => match c.direction with
      | .asc => out | .desc => invert out) = some w := by
    unfold componentBytes at hw
    rw [hv] at hw
    rcases v with (_ | b | n | s) | raw
    · exact absurd rfl hnull
    · exact hw
    · exact hw
    · exact hw
    · exact hw
  obtain ⟨out, hout, rfl⟩ := Option.map_eq_some_iff.1 hw
  obtain ⟨b, body, rfl, -⟩ := writeOrderedValue_eq_some hout
  obtain ⟨hasc, hdesc⟩ := head_ne_noValue hout
  obtain ⟨value, hread⟩ := readOrderedValue_append hout rest
  cases c.direction with
  | asc =>
    refine ⟨value, ?_⟩
    simp only [cons_append, readComponent, if_neg hasc] at hread ⊢
    rw [hread]
    rfl
  | desc =>
    obtain ⟨value, hread⟩ := readOrderedValue_append hout (invert rest)
    refine ⟨value, ?_⟩
    have hcons : invert (b :: body) ++ rest = Fin.rev b :: (invert body ++ rest) := rfl
    rw [hcons]
    simp only [readComponent, if_neg hdesc]
    rw [← hcons, invert_append, invert_invert, hread]
    simp

lemma decodeOrderedTuple_orderedTuple {components : List TupleComponent} {tuple : Utf16}
    (hvalued : ∀ c ∈ components, ∃ v, c.value = some v ∧ v ≠ .scalar .null)
    (h : orderedTuple components = some tuple) :
    ∃ values, decodeOrderedTuple tuple (components.map TupleComponent.direction) = some values ∧
      ∀ value ∈ values, value ≠ none := by
  obtain ⟨fields, hfields, rfl⟩ := Option.map_eq_some_iff.1 h
  unfold decodeOrderedTuple
  rw [ofHex_hexOf]
  have hall := mapM_eq_some_iff.1 hfields
  clear h hfields
  induction hall with
  | nil => exact ⟨[], rfl, by simp⟩
  | @cons c w components fields hc _ ih =>
    obtain ⟨v, hv, hnull⟩ := hvalued c mem_cons_self
    obtain ⟨values, hvalues, hne⟩ := ih fun c hc => hvalued c (mem_cons_of_mem _ hc)
    obtain ⟨value, hread⟩ := readComponent_append hv hnull hc fields.flatten
    refine ⟨some value :: values, ?_, by simpa using hne⟩
    rw [map_cons, flatten_cons, readComponents, hread]
    simp [hvalues]

end Zelavis.Db
