import Mathlib.Data.List.MinMax
import Mathlib.Data.List.Nodup

/-!
# The first of the greatest

What a loop keeps that goes through a list and takes a new element only where it is strictly greater
than the best so far; `List.argmax` is that loop.
-/

namespace Zelavis.Lib

open List

variable {α β : Type*} [LinearOrder β] {f : α → β} {l l' : List α} {m x : α}

def FirstMax (f : α → β) (l : List α) (m : α) : Prop :=
  ∃ before after, l = before ++ m :: after ∧ (∀ x ∈ before, f x < f m) ∧ ∀ x ∈ after, f x ≤ f m

lemma FirstMax.mem (h : FirstMax f l m) : m ∈ l := by
  obtain ⟨before, after, rfl, -, -⟩ := h
  exact mem_append_right _ mem_cons_self

lemma FirstMax.le (h : FirstMax f l m) (hx : x ∈ l) : f x ≤ f m := by
  obtain ⟨before, after, rfl, hbefore, hafter⟩ := h
  obtain hx | hx := mem_append.1 hx
  · exact (hbefore x hx).le
  · obtain rfl | hx := mem_cons.1 hx
    · exact le_rfl
    · exact hafter x hx

lemma firstMax_of_argmax (h : l.argmax f = some m) : FirstMax f l m := by
  induction l using List.reverseRecOn generalizing m with
  | nil => cases h
  | append_singleton l a ih =>
    rw [argmax_concat] at h
    cases hl : l.argmax f with
    | none =>
      rw [hl] at h
      cases h
      rw [argmax_eq_none.1 hl]
      refine ⟨[], [], rfl, fun x hx => ?_, fun x hx => ?_⟩
      · cases hx
      · cases hx
    | some c =>
      rw [hl] at h
      obtain ⟨before, after, rfl, hbefore, hafter⟩ := ih hl
      dsimp only at h
      split_ifs at h with hlt
      · cases h
        refine ⟨before ++ c :: after, [], rfl, fun x hx => ?_, fun x hx => ?_⟩
        · have hfirst : FirstMax f (before ++ c :: after) c :=
            ⟨before, after, rfl, hbefore, hafter⟩
          exact (hfirst.le hx).trans_lt hlt
        · cases hx
      · cases h
        refine ⟨before, after ++ [a], by rw [append_assoc, cons_append], hbefore, fun x hx => ?_⟩
        obtain hx | hx := mem_append.1 hx
        · exact hafter x hx
        · cases mem_singleton.1 hx
          exact not_lt.1 hlt

lemma argmax_perm (hl : (l.map f).Nodup) (hperm : l'.Perm l) : l'.argmax f = l.argmax f := by
  cases h : l.argmax f with
  | none =>
    rw [argmax_eq_none] at h ⊢
    subst h
    exact hperm.eq_nil
  | some m =>
    cases h' : l'.argmax f with
    | none =>
      rw [argmax_eq_none] at h'
      subst h'
      rw [hperm.symm.eq_nil] at h
      cases h
    | some m' =>
      have hm := firstMax_of_argmax h
      have hm' := firstMax_of_argmax h'
      have heq : f m' = f m :=
        le_antisymm (hm.le (hperm.mem_iff.1 hm'.mem)) (hm'.le (hperm.mem_iff.2 hm.mem))
      exact congrArg some (inj_on_of_nodup_map hl (hperm.mem_iff.1 hm'.mem) hm.mem heq)

/-- An element that is not chosen comes after one that is as great, or before one that is greater. -/
theorem FirstMax.leads (h : FirstMax f l m) {before after : List α} (hl : l = before ++ x :: after)
    (hne : x ≠ m) : (m ∈ before ∧ f x ≤ f m) ∨ (m ∈ after ∧ f x < f m) := by
  obtain ⟨before', after', rfl, hbefore, hafter⟩ := h
  obtain ⟨c, h, h'⟩ | ⟨c, h, h'⟩ := append_eq_append_iff.1 hl
  · cases c with
    | nil => exact absurd (List.cons.inj h').1.symm hne
    | cons y c =>
      obtain ⟨rfl, rfl⟩ := List.cons.inj h'
      rw [h]
      exact .inl ⟨mem_append_right _ mem_cons_self,
        hafter x (mem_append_right _ mem_cons_self)⟩
  · cases c with
    | nil => exact absurd (List.cons.inj h').1 hne
    | cons y c =>
      obtain ⟨rfl, rfl⟩ := List.cons.inj h'
      refine .inr ⟨mem_append_right _ mem_cons_self, hbefore x ?_⟩
      rw [h]
      exact mem_append_right _ mem_cons_self

end Zelavis.Lib
