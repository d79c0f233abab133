import Mathlib.Data.List.Basic
import Mathlib.Logic.Relation

/-!
# Going up

What a parent function on any type says about going up from parent to parent: coming to an end, coming
round to the start, and a walk with a list of the ones seen that tells the two apart.
-/

namespace Zelavis.Lib.Ancestry

variable {α : Type*} (up : α → Option α)

/-- Going up from here comes to an end. -/
inductive Ends : α → Prop
  | root {a : α} (h : up a = none) : Ends a
  | child {a b : α} (h : up a = some b) (hb : Ends b) : Ends a

variable {up} {a : α}

variable [DecidableEq α] (up)

/-- Whether going up meets one of the seen or itself; nothing where the fuel runs out. -/
def comesRound : ℕ → List α → α → Option Bool
  | 0, _, _ => none
  | fuel + 1, seen, a =>
    if a ∈ seen then some true
    else
      match up a with
      | none => some false
      | some b => comesRound fuel (a :: seen) b

variable {up}

def unseen (l seen : List α) : List α := l.filter (· ∉ seen)

lemma length_unseen_le (l seen : List α) : (unseen l seen).length ≤ l.length :=
  List.length_filter_le ..

lemma length_unseen_cons_lt {l seen : List α} (hmem : a ∈ l) (ha : a ∉ seen) :
    (unseen l (a :: seen)).length < (unseen l seen).length := by
  have heq : unseen l (a :: seen) = (unseen l seen).filter (· ≠ a) := by
    unfold unseen
    rw [List.filter_filter]
    refine List.filter_congr fun b _ => ?_
    simp only [List.mem_cons, not_or, ne_eq, Bool.decide_and, decide_not]
  rw [heq]
  exact List.length_filter_lt_length_iff_exists.2
    ⟨a, List.mem_filter.2 ⟨hmem, decide_eq_true ha⟩, by simp⟩

variable {seen : List α} {fuel : ℕ}

end Zelavis.Lib.Ancestry
