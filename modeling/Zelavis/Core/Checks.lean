import Zelavis.Lib.Unicode
import Mathlib.Data.Rat.Floor

/-!
# Checks of identifiers and numbers

The checks that `project-placement-authority.ts`, `remote-placement.ts` and `project-dispatch.ts`
each make of what they are given. A number that is finite is a rational one.
-/

namespace Zelavis.Checks

open Lib

/-- Source: `Number.MAX_SAFE_INTEGER`. -/
def maxSafeInteger : ℕ := 9007199254740991

/-- Source: `Number.isSafeInteger`. -/
def isSafeInteger (q : ℚ) : Bool := q.den == 1 && q.num.natAbs ≤ maxSafeInteger

lemma isSafeInteger_iff {q : ℚ} : isSafeInteger q = true ↔ q.den = 1 ∧ q.num.natAbs ≤ maxSafeInteger := by
  unfold isSafeInteger
  rw [Bool.and_eq_true, beq_iff_eq, decide_eq_true_iff]

lemma num_of_isSafeInteger {q : ℚ} (h : isSafeInteger q = true) : (q.num : ℚ) = q :=
  Rat.den_eq_one_iff q |>.1 (isSafeInteger_iff.1 h).1

/-- Source: `validId`, of `project-placement-authority.ts`, of `remote-placement.ts` and of
`project-dispatch.ts`. -/
def validId (value : Utf16) : Bool :=
  0 < value.length && value.length ≤ 256 && value.all fun unit => 0x1f < unit

end Zelavis.Checks
