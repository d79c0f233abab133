import Mathlib.Data.Nat.Log
import Mathlib.Algebra.Order.Group.Nat
import Mathlib.Algebra.Ring.Nat

/-!
# Sums of natural numbers as doubles

A natural number is rounded to the nearest double, to an even significand where there are two. Up to `2 ^ 53`
nothing is rounded, and what is above stays above.
-/

namespace Zelavis.Lib.Doubles

def exactBound : ℕ := 2 ^ 53

def nearest (n : ℕ) : ℕ :=
  if n < exactBound then n
  else
    let unit := 2 ^ (Nat.log 2 n - 52)
    let low := n / unit
    let rest := n % unit
    if 2 * rest < unit ∨ 2 * rest = unit ∧ low % 2 = 0 then low * unit else (low + 1) * unit

variable {n : ℕ}

lemma nearest_of_le (h : n ≤ exactBound) : nearest n = n := by
  obtain hlt | rfl := Nat.lt_or_eq_of_le h
  · exact if_pos hlt
  · decide +kernel

lemma le_nearest (h : exactBound ≤ n) : exactBound ≤ nearest n := by
  have hn : n ≠ 0 := (lt_of_lt_of_le (by decide : 0 < exactBound) h).ne'
  have hlog : 53 ≤ Nat.log 2 n := Nat.le_log_of_pow_le (by decide) h
  have hlow : exactBound ≤ n / 2 ^ (Nat.log 2 n - 52) * 2 ^ (Nat.log 2 n - 52) := by
    have hpow : 2 ^ 52 * 2 ^ (Nat.log 2 n - 52) ≤ n := by
      rw [← Nat.pow_add, Nat.add_sub_cancel' (le_trans (by decide) hlog)]
      exact Nat.pow_log_le_self 2 hn
    have hdiv : 2 ^ 52 ≤ n / 2 ^ (Nat.log 2 n - 52) := (Nat.le_div_iff_mul_le (Nat.two_pow_pos _)).2 hpow
    have hunit : 2 ^ 1 ≤ 2 ^ (Nat.log 2 n - 52) := Nat.pow_le_pow_right (by decide) (by omega)
    exact le_trans (by decide) (Nat.mul_le_mul hdiv hunit)
  unfold nearest
  rw [if_neg (not_lt.2 h)]
  dsimp only
  split_ifs
  · exact hlow
  · exact hlow.trans (Nat.mul_le_mul_right _ (Nat.le_succ _))

def sumFrom (first : ℕ) (l : List ℕ) : ℕ := l.foldl (fun sum n => nearest (sum + n)) first

variable {l : List ℕ}

lemma le_sumFrom : ∀ {first : ℕ}, exactBound ≤ first → exactBound ≤ sumFrom first l := by
  induction l with
  | nil =>
    intro first h
    exact h
  | cons n l ih =>
    intro first h
    exact ih (le_nearest (h.trans (Nat.le_add_right _ _)))

lemma sumFrom_eq (l : List ℕ) : ∀ first : ℕ,
    (first + l.sum ≤ exactBound → sumFrom first l = first + l.sum) ∧
    (exactBound ≤ first + l.sum → exactBound ≤ sumFrom first l) := by
  induction l with
  | nil =>
    intro first
    exact ⟨fun _ => rfl, id⟩
  | cons n l ih =>
    intro first
    rw [List.sum_cons, ← Nat.add_assoc]
    have hcons : sumFrom first (n :: l) = sumFrom (nearest (first + n)) l := rfl
    rw [hcons]
    obtain hle | hlt := Nat.le_or_ge (first + n) exactBound
    · rw [nearest_of_le hle]
      exact ih (first + n)
    · refine ⟨fun h => ?_, fun _ => le_sumFrom (le_nearest hlt)⟩
      have hsame : first + n = exactBound := by omega
      rw [nearest_of_le hsame.le]
      exact (ih _).1 h

lemma sum_le_of_nearest {bound : ℕ} (hbound : bound < exactBound)
    (h : nearest (n + sumFrom 0 l) ≤ bound) : n + l.sum ≤ bound := by
  by_contra hlt
  rw [not_le] at hlt
  have hsum := sumFrom_eq l 0
  rw [Nat.zero_add] at hsum
  obtain hle | hge := Nat.le_or_ge l.sum exactBound
  · rw [hsum.1 hle] at h
    obtain hle' | hge' := Nat.le_or_ge (n + l.sum) exactBound
    · rw [nearest_of_le hle'] at h
      exact absurd h (not_le.2 hlt)
    · exact absurd ((le_nearest hge').trans h) (not_le.2 hbound)
  · have := le_nearest ((hsum.2 hge).trans (Nat.le_add_left _ n))
    exact absurd (this.trans h) (not_le.2 hbound)

lemma nearest_sum_eq (h : n + l.sum ≤ exactBound) : nearest (n + sumFrom 0 l) = n + l.sum := by
  have hsum := (sumFrom_eq l 0).1 (by omega)
  rw [hsum, Nat.zero_add, nearest_of_le h]

end Zelavis.Lib.Doubles
