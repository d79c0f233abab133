import Mathlib.Data.List.Basic
import Mathlib.Data.List.Infix
import Mathlib.Order.Bounds.Basic
import Mathlib.Order.Basic
import Mathlib.Algebra.Order.Group.Nat

/-!
# Optimal string alignment

* `Aligns s t n` — the word `s` is aligned with `t` at a cost of `n`: each letter is kept, exchanged, left
  out or put in, or two neighbours change places, and no letter is touched twice.
* `distance` — the full recurrence.
-/

namespace Zelavis.Lib

open List

variable {α : Type} {s : List α}

/-- An alignment of two words and what it costs. -/
inductive Aligns : List α → List α → ℕ → Prop where
  | nil : Aligns [] [] 0
  | keep (a : α) {s t : List α} {n : ℕ} : Aligns s t n → Aligns (a :: s) (a :: t) n
  | substitute (a b : α) {s t : List α} {n : ℕ} : Aligns s t n → Aligns (a :: s) (b :: t) (n + 1)
  | delete (a : α) {s t : List α} {n : ℕ} : Aligns s t n → Aligns (a :: s) t (n + 1)
  | insert (b : α) {s t : List α} {n : ℕ} : Aligns s t n → Aligns s (b :: t) (n + 1)
  | transpose (a b : α) {s t : List α} {n : ℕ} :
      Aligns s t n → Aligns (a :: b :: s) (b :: a :: t) (n + 1)

variable {s t : List α} {n : ℕ}

namespace Aligns

lemma symm (h : Aligns s t n) : Aligns t s n := by
  induction h with
  | nil => exact nil
  | keep a _ ih => exact ih.keep a
  | substitute a b _ ih => exact ih.substitute b a
  | delete a _ ih => exact ih.insert a
  | insert b _ ih => exact ih.delete b
  | transpose a b _ ih => exact ih.transpose b a

lemma append {t s' t' : List α} {n m : ℕ} (h : Aligns s t n) (h' : Aligns s' t' m) :
    Aligns (s ++ s') (t ++ t') (m + n) := by
  induction h with
  | nil => exact h'
  | keep a _ ih => exact ih.keep a
  | substitute a b _ ih => exact ih.substitute a b
  | delete a _ ih => exact ih.delete a
  | insert b _ ih => exact ih.insert b
  | transpose a b _ ih => exact ih.transpose a b

lemma reverse (h : Aligns s t n) : Aligns s.reverse t.reverse n := by
  induction h with
  | nil => exact nil
  | @keep a s t n _ ih =>
    have := ih.append (nil.keep a)
    rwa [Nat.zero_add, ← reverse_cons, ← reverse_cons] at this
  | @substitute a b s t n _ ih =>
    have := ih.append (nil.substitute a b)
    rwa [Nat.zero_add, Nat.add_comm, ← reverse_cons, ← reverse_cons] at this
  | @delete a s t n _ ih =>
    have := ih.append (nil.delete a)
    rwa [Nat.zero_add, Nat.add_comm, ← reverse_cons, append_nil] at this
  | @insert b s t n _ ih =>
    have := ih.append (nil.insert b)
    rwa [Nat.zero_add, Nat.add_comm, ← reverse_cons, append_nil] at this
  | @transpose a b s t n _ ih =>
    have := ih.append (nil.transpose b a)
    simpa [Nat.add_comm] using this

lemma length_le (h : Aligns s t n) : s.length ≤ t.length + n := by
  induction h with
  | nil => exact Nat.zero_le _
  | keep a _ ih => simpa [Nat.add_right_comm] using ih
  | substitute a b _ ih =>
    rw [length_cons, length_cons]
    omega
  | delete | insert =>
    rw [length_cons]
    omega
  | transpose a b _ ih =>
    simp only [length_cons]
    omega

end Aligns

variable [DecidableEq α]

def distance : List α → List α → ℕ
  | [], t => t.length
  | a :: s, [] => (a :: s).length
  | a :: s, b :: t =>
    let val := min (min (distance s (b :: t) + 1) (distance (a :: s) t + 1))
      (distance s t + if a = b then 0 else 1)
    if s.head? = some b ∧ t.head? = some a then min val (distance s.tail t.tail + 1) else val
  termination_by s t => s.length + t.length
  decreasing_by all_goals simp; try omega

@[simp] lemma distance_nil_left (t : List α) : distance [] t = t.length := by rw [distance]

@[simp] lemma distance_nil_right (s : List α) : distance s [] = s.length := by
  cases s <;> rw [distance]

lemma distance_cons_cons (a b : α) (s t : List α) : distance (a :: s) (b :: t) =
      if s.head? = some b ∧ t.head? = some a then
        min (min (min (distance s (b :: t) + 1) (distance (a :: s) t + 1))
          (distance s t + if a = b then 0 else 1)) (distance s.tail t.tail + 1)
      else min (min (distance s (b :: t) + 1) (distance (a :: s) t + 1))
        (distance s t + if a = b then 0 else 1) := by
  rw [distance]

/-! ## One step of the recurrence -/

lemma distance_delete_le (a : α) (s t : List α) : distance (a :: s) t ≤ distance s t + 1 := by
  cases t with
  | nil => simp
  | cons b t =>
    rw [distance_cons_cons]
    split_ifs <;> omega

lemma distance_insert_le (b : α) (s t : List α) : distance s (b :: t) ≤ distance s t + 1 := by
  cases s with
  | nil => simp
  | cons a s =>
    rw [distance_cons_cons]
    split_ifs <;> omega

lemma distance_substitute_le (a b : α) (s t : List α) :
    distance (a :: s) (b :: t) ≤ distance s t + if a = b then 0 else 1 := by
  rw [distance_cons_cons]
  split_ifs <;> omega

lemma distance_transpose_le (a b : α) (s t : List α) :
    distance (a :: b :: s) (b :: a :: t) ≤ distance s t + 1 := by
  rw [distance_cons_cons, if_pos ⟨rfl, rfl⟩]
  exact min_le_right _ _

lemma distance_cases (a b : α) (s t : List α) : distance (a :: s) (b :: t) = distance s (b :: t) + 1 ∨
      distance (a :: s) (b :: t) = distance (a :: s) t + 1 ∨
      distance (a :: s) (b :: t) = distance s t + (if a = b then 0 else 1) ∨
      ∃ s' t', s = b :: s' ∧ t = a :: t' ∧ distance (a :: s) (b :: t) = distance s' t' + 1 := by
  have hval : ∀ x y z : ℕ, min (min x y) z = x ∨ min (min x y) z = y ∨ min (min x y) z = z := by
    intro x y z
    omega
  rw [distance_cons_cons]
  by_cases hswap : s.head? = some b ∧ t.head? = some a
  · rw [if_pos hswap]
    obtain ⟨s', rfl⟩ : ∃ s', s = b :: s' := ⟨s.tail, eq_cons_of_mem_head? hswap.1⟩
    obtain ⟨t', rfl⟩ : ∃ t', t = a :: t' := ⟨t.tail, eq_cons_of_mem_head? hswap.2⟩
    obtain hmin | hmin := min_choice (min (min (distance (b :: s') (b :: a :: t') + 1)
      (distance (a :: b :: s') (a :: t') + 1))
      (distance (b :: s') (a :: t') + if a = b then 0 else 1)) (distance s' t' + 1)
    · rw [tail_cons, tail_cons, hmin]
      rcases hval (distance (b :: s') (b :: a :: t') + 1) (distance (a :: b :: s') (a :: t') + 1)
        (distance (b :: s') (a :: t') + if a = b then 0 else 1) with h | h | h
      · exact .inl h
      · exact .inr (.inl h)
      · exact .inr (.inr (.inl h))
    · exact .inr (.inr (.inr ⟨s', t', rfl, rfl, hmin⟩))
  · rw [if_neg hswap]
    rcases hval (distance s (b :: t) + 1) (distance (a :: s) t + 1)
      (distance s t + if a = b then 0 else 1) with h | h | h
    · exact .inl h
    · exact .inr (.inl h)
    · exact .inr (.inr (.inl h))

/-! ## The recurrence is the least cost -/

lemma distance_le (h : Aligns s t n) : distance s t ≤ n := by
  induction h with
  | nil => simp
  | @keep a s t n _ ih =>
    have := distance_substitute_le a a s t
    rw [if_pos rfl] at this
    omega
  | @substitute a b s t n _ ih =>
    have := distance_substitute_le a b s t
    split_ifs at this <;> omega
  | @delete a s t n _ ih =>
    have := distance_delete_le a s t
    omega
  | @insert b s t n _ ih =>
    have := distance_insert_le b s t
    omega
  | @transpose a b s t n _ ih =>
    have := distance_transpose_le a b s t
    omega

lemma aligns_distance (s t : List α) : Aligns s t (distance s t) := by
  induction hsize : s.length + t.length using Nat.strong_induction_on generalizing s t with
  | _ size ih =>
    subst hsize
    cases s with
    | nil =>
      rw [distance_nil_left]
      induction t with
      | nil => exact .nil
      | cons b t iht => exact (iht fun m hm => ih m (hm.trans (by simp))).insert b
    | cons a s =>
      cases t with
      | nil =>
        rw [distance_nil_right, length_cons, ← distance_nil_right s]
        exact (ih _ (by simp) s [] rfl).delete a
      | cons b t =>
        rcases distance_cases a b s t with h | h | h | ⟨s', t', rfl, rfl, h⟩
        · rw [h]
          exact (ih _ (by simp) s (b :: t) rfl).delete a
        · rw [h]
          exact (ih _ (by simp) (a :: s) t rfl).insert b
        · rw [h]
          have hrest := ih _ (by simp; omega) s t rfl
          split_ifs with hab
          · subst hab
            exact hrest.keep a
          · exact hrest.substitute a b
        · rw [h]
          exact (ih _ (by simp; omega) s' t' rfl).transpose a b

lemma distance_comm (s t : List α) : distance s t = distance t s :=
  le_antisymm (distance_le (aligns_distance t s).symm) (distance_le (aligns_distance s t).symm)

@[simp] lemma distance_reverse (s t : List α) : distance s.reverse t.reverse = distance s t := by
  refine le_antisymm (distance_le (aligns_distance s t).reverse) (distance_le ?_)
  have := (aligns_distance s.reverse t.reverse).reverse
  rwa [reverse_reverse, reverse_reverse] at this

@[simp] lemma distance_self (s : List α) : distance s s = 0 := by
  refine Nat.le_zero.1 (distance_le ?_)
  induction s with
  | nil => exact .nil
  | cons a s ih => exact ih.keep a

lemma length_le_distance (s t : List α) : s.length ≤ t.length + distance s t :=
  (aligns_distance s t).length_le

/-! ## Rows of a table of distances -/

lemma distance_singleton_le (hs : s ≠ []) (b : α) : distance s [b] ≤ s.length := by
  obtain ⟨a, s, rfl⟩ := exists_cons_of_ne_nil hs
  have := distance_substitute_le a b s []
  rw [distance_nil_right] at this
  rw [length_cons]
  split_ifs at this <;> omega

/-- A word is at least as near to some suffix of another as the word with one letter more is to the whole
of it. -/
theorem exists_suffix_le (x : α) (hs : s ≠ []) {t : List α} (ht : t ≠ []) :
    ∃ t', t' <:+ t ∧ t' ≠ [] ∧ distance s t' ≤ distance (x :: s) t := by
  induction t with
  | nil => exact absurd rfl ht
  | cons b t ih =>
    -- the last letter of the other word is a suffix near enough wherever the rest of it is used up
    have hlast : distance s [b] ≤ s.length := distance_singleton_le hs b
    rcases distance_cases x b s t with h | h | h | ⟨s', t', rfl, rfl, h⟩
    · exact ⟨b :: t, suffix_rfl, cons_ne_nil _ _, by omega⟩
    · rcases eq_or_ne t [] with rfl | ht'
      · rw [distance_nil_right, length_cons] at h
        exact ⟨[b], suffix_rfl, cons_ne_nil _ _, by omega⟩
      · obtain ⟨t', hsuffix, hne, hle⟩ := ih ht'
        exact ⟨t', hsuffix.trans (suffix_cons b t), hne, by omega⟩
    · rcases eq_or_ne t [] with rfl | ht'
      · rw [distance_nil_right] at h
        exact ⟨[b], suffix_rfl, cons_ne_nil _ _, by omega⟩
      · exact ⟨t, suffix_cons b t, ht', by omega⟩
    · refine ⟨x :: t', suffix_cons b _, cons_ne_nil _ _, ?_⟩
      have := distance_substitute_le b x s' t'
      split_ifs at this <;> omega

lemma exists_suffix_le_append (hs : s ≠ []) (front : List α) {t : List α}
    (ht : t ≠ []) : ∃ t', t' <:+ t ∧ t' ≠ [] ∧ distance s t' ≤ distance (front ++ s) t := by
  induction front generalizing t with
  | nil => exact ⟨t, suffix_rfl, ht, le_rfl⟩
  | cons x front ih =>
    obtain ⟨t', hsuffix, hne, hle⟩ :=
      exists_suffix_le x (s := front ++ s) (append_ne_nil_of_right_ne_nil _ hs) ht
    obtain ⟨t'', hsuffix', hne', hle'⟩ := ih hne
    exact ⟨t'', hsuffix'.trans hsuffix, hne', hle'.trans hle⟩

lemma exists_prefix_le_append (hs : s ≠ []) (back : List α) {t : List α}
    (ht : t ≠ []) : ∃ t', t' <+: t ∧ t' ≠ [] ∧ distance s t' ≤ distance (s ++ back) t := by
  obtain ⟨t', hsuffix, hne, hle⟩ := exists_suffix_le_append
    (mt reverse_eq_nil_iff.1 hs) back.reverse (mt reverse_eq_nil_iff.1 ht)
  refine ⟨t'.reverse, ?_, mt reverse_eq_nil_iff.1 hne, ?_⟩
  · rw [← reverse_suffix, reverse_reverse]
    exact hsuffix
  · rw [← reverse_append, distance_reverse] at hle
    rwa [← distance_reverse, reverse_reverse]

end Zelavis.Lib
