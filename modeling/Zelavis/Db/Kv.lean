import Zelavis.Lib.Prog
import Zelavis.Db.Keys

/-!
# The engine

`kv.ts`: the range a scan covers, and what a store keeps in an ordered map from keys to records.
-/

namespace Zelavis.Db

open Lib OrderedMap

/-- The contents of an engine. -/
abbrev Store := OrderedMap Key Stored

/-- How an operation of the store fails. Source: `errors.ts`, and the `StoreError`s and throws of
`kv-store.ts`. -/
inductive Failure where
  | writerFenced (claimed current : ℕ)
  /-- `StoreError` of `store.conflict`. -/
  | conflict
  | logCompacted (compactedTo : ℕ)
  /-- `StoreError` of `generation.read`. -/
  | generationRead
  /-- `StoreError` of `generation.claim`. -/
  | generationClaim
  /-- `StoreError` of `format.open`. -/
  | formatOpen
  | malformed
  deriving DecidableEq

/-- A program over an engine; fresh tokens are the bytes of random identifiers. -/
abbrev StoreM := Prog Key Stored Bytes Failure

def lowerEnd : Option Key → Option Key → Option Key
  | some u, some hi => if compareKeys u hi < 0 then some u else some hi
  | some u, none => some u
  | none, hi => hi

/-- The key range of a scan: from the first key up to the second. Source: `scanRange`. -/
def scanRange (pre : Key) (lower upper : Option Key) : Key × Option Key :=
  (match lower with
    | some l => if 0 < compareKeys l pre then l else pre
    | none => pre,
    lowerEnd upper (prefixEnd pre))

/-- The entries of a scan, ascending. Source: `memory-kv.ts` `scan`. -/
def scan (m : Store) (pre : Key) (lower upper : Option Key) : List (Key × Stored) :=
  let r := scanRange pre lower upper
  m.between r.1 r.2

def scanM (pre : Key) (lower upper : Option Key) : StoreM (List (Key × Stored)) :=
  let r := scanRange pre lower upper
  Prog.range r.1 r.2

def orThrow {α : Type} : Option α → StoreM α
  | some a => pure a
  | none => Prog.fail .malformed

variable {lower upper : Option Key} {pre k : Key}

lemma le_scanRange_iff : (scanRange pre lower upper).1 ≤ k ↔ pre ≤ k ∧ ∀ l ∈ lower, l ≤ k := by
  cases lower with
  | none => simp [scanRange]
  | some l =>
    simp only [scanRange, compareKeys_pos_iff, Option.mem_def, Option.some.injEq, forall_eq']
    split_ifs with h
    · exact ⟨fun hl => ⟨h.le.trans hl, hl⟩, fun hk => hk.2⟩
    · exact ⟨fun hp => ⟨hp, (not_lt.1 h).trans hp⟩, fun hk => hk.1⟩

lemma lt_lowerEnd_iff {k : Key} {a b : Option Key} :
    (∀ h ∈ lowerEnd a b, k < h) ↔ (∀ h ∈ a, k < h) ∧ ∀ h ∈ b, k < h := by
  cases a with
  | none => simp [lowerEnd]
  | some a =>
    cases b with
    | none => simp [lowerEnd]
    | some b =>
      simp only [lowerEnd, compareKeys_neg_iff, Option.mem_def, Option.some.injEq, forall_eq']
      split_ifs with h
      · simp only [Option.some.injEq, forall_eq']
        exact ⟨fun hk => ⟨hk, hk.trans h⟩, And.left⟩
      · simp only [Option.some.injEq, forall_eq']
        exact ⟨fun hk => ⟨hk.trans_le (not_lt.1 h), hk⟩, And.right⟩

lemma mem_scan {m : Store} {v : Stored} : (k, v) ∈ scan m pre lower upper ↔
      m.get k = some v ∧ pre <+: k ∧ (∀ l ∈ lower, l ≤ k) ∧ ∀ u ∈ upper, k < u := by
  rw [scan, mem_between, ← prefixEnd_range]
  rw [le_scanRange_iff, show (scanRange pre lower upper).2 = lowerEnd upper (prefixEnd pre) from rfl,
    lt_lowerEnd_iff]
  tauto

lemma scan_sorted (m : Store) (pre : Key) (lower upper : Option Key) :
    (scan m pre lower upper).Pairwise fun a b => a.1 < b.1 :=
  m.between_sorted _ _

end Zelavis.Db
