import Mathlib.Data.List.Sort
import Mathlib.Order.RelClasses

/-!
# Two runs read as one

Runs in a strict order, read by taking the first entry of either, and an entry of both from both.
-/

namespace Zelavis.Lib

open List

section

variable {α : Type*} (before : α → α → Prop) [DecidableRel before]

def mergeRuns : List α → List α → List α
  | [], ys => ys
  | x :: xs, [] => x :: xs
  | x :: xs, y :: ys =>
    if before x y then x :: mergeRuns xs (y :: ys)
    else if before y x then y :: mergeRuns (x :: xs) ys
    else x :: mergeRuns xs ys
termination_by xs ys => xs.length + ys.length

variable {before} {xs ys : List α} {z : α}

@[simp] lemma mergeRuns_nil_left : mergeRuns before [] ys = ys := by rw [mergeRuns]

@[simp] lemma mergeRuns_nil_right : mergeRuns before xs [] = xs := by
  cases xs with
  | nil | cons => rw [mergeRuns]

variable [IsStrictTotalOrder α before]

lemma mem_mergeRuns : z ∈ mergeRuns before xs ys ↔ z ∈ xs ∨ z ∈ ys := by
  induction xs, ys using mergeRuns.induct before with
  | case1 | case2 => simp
  | case3 x xs y ys hxy ih =>
    rw [mergeRuns, if_pos hxy, mem_cons, ih, mem_cons (b := x), or_assoc]
  | case4 x xs y ys hxy hyx ih =>
    rw [mergeRuns, if_neg hxy, if_pos hyx, mem_cons, ih, mem_cons (b := y)]
    tauto
  | case5 x xs y ys hxy hyx ih =>
    obtain rfl : x = y := Std.Trichotomous.trichotomous (r := before) x y hxy hyx
    rw [mergeRuns, if_neg hxy, if_neg hyx, mem_cons, ih, mem_cons, mem_cons]
    tauto

lemma pairwise_mergeRuns (hx : xs.Pairwise before) (hy : ys.Pairwise before) :
    (mergeRuns before xs ys).Pairwise before := by
  induction xs, ys using mergeRuns.induct before with
  | case1 ys => simpa using hy
  | case2 x xs => simpa using hx
  | case3 x xs y ys hxy ih =>
    rw [mergeRuns, if_pos hxy]
    obtain ⟨hxx, hxs⟩ := pairwise_cons.1 hx
    refine pairwise_cons.2 ⟨fun z hz => ?_, ih hxs hy⟩
    rcases mem_mergeRuns.1 hz with hz | hz
    · exact hxx z hz
    · rcases mem_cons.1 hz with rfl | hz
      · exact hxy
      · exact IsTrans.trans x y z hxy ((pairwise_cons.1 hy).1 z hz)
  | case4 x xs y ys hxy hyx ih =>
    rw [mergeRuns, if_neg hxy, if_pos hyx]
    obtain ⟨hyy, hys⟩ := pairwise_cons.1 hy
    refine pairwise_cons.2 ⟨fun z hz => ?_, ih hx hys⟩
    rcases mem_mergeRuns.1 hz with hz | hz
    · rcases mem_cons.1 hz with rfl | hz
      · exact hyx
      · exact IsTrans.trans y x z hyx ((pairwise_cons.1 hx).1 z hz)
    · exact hyy z hz
  | case5 x xs y ys hxy hyx ih =>
    obtain rfl : x = y := Std.Trichotomous.trichotomous (r := before) x y hxy hyx
    rw [mergeRuns, if_neg hxy, if_neg hyx]
    obtain ⟨hxx, hxs⟩ := pairwise_cons.1 hx
    obtain ⟨hyy, hys⟩ := pairwise_cons.1 hy
    refine pairwise_cons.2 ⟨fun z hz => ?_, ih hxs hys⟩
    rcases mem_mergeRuns.1 hz with hz | hz
    · exact hxx z hz
    · exact hyy z hz

end

/-! ## The first rows -/

section

variable {α β ε : Type*} (row : α → Except ε (Option β))

/-- The rows of the first entries that have one, no more than `limit`; an entry that cannot be read
before them ends it. -/
def firstRows : ℕ → List α → Except ε (List β)
  | _, [] => .ok []
  | 0, _ :: _ => .ok []
  | limit + 1, x :: xs =>
    match row x with
    | .error fault => .error fault
    | .ok none => firstRows (limit + 1) xs
    | .ok (some b) => (firstRows limit xs).map (b :: ·)

@[simp] lemma firstRows_zero (l : List α) : firstRows row 0 l = .ok [] := by
  cases l with
  | nil | cons => rfl

@[simp] lemma firstRows_nil (limit : ℕ) : firstRows row limit [] = .ok [] := by rw [firstRows]

variable {row} {row' : α → Except ε (Option β)} {l : List α}

/-- The first rows are those of some first entries: of all of them, unless there are rows enough. -/
lemma firstRows_eq_ok {limit : ℕ} {rows : List β} (h : firstRows row limit l = .ok rows) :
    ∃ front back, l = front ++ back ∧ rows = front.filterMap (fun x => (row x).toOption.join) ∧
      rows.length ≤ limit ∧ (rows.length < limit → back = []) := by
  induction l generalizing limit rows with
  | nil =>
    cases h
    exact ⟨[], [], rfl, rfl, Nat.zero_le _, fun _ => rfl⟩
  | cons x l ih =>
    cases limit with
    | zero =>
      cases h
      exact ⟨[], x :: l, rfl, rfl, le_rfl, fun hlt => absurd hlt (lt_irrefl 0)⟩
    | succ limit =>
      rw [firstRows] at h
      cases hx : row x with
      | error fault => simp [hx] at h
      | ok found =>
        cases found with
        | none =>
          rw [hx] at h
          obtain ⟨front, back, rfl, rfl, hle, hback⟩ := ih h
          exact ⟨x :: front, back, rfl, by simp [hx, Except.toOption], hle, hback⟩
        | some b =>
          rw [hx] at h
          cases hrest : firstRows row limit l with
          | error fault => simp [hrest, Except.map] at h
          | ok rest =>
            simp only [hrest, Except.map, Except.ok.injEq] at h
            obtain ⟨front, back, rfl, rfl, hle, hback⟩ := ih hrest
            exact ⟨x :: front, back, rfl, by simp [← h, hx, Except.toOption], h ▸ Nat.succ_le_succ hle,
              fun hlt => hback (by
                rw [← h] at hlt
                exact Nat.lt_of_succ_lt_succ hlt)⟩

lemma firstRows_filter (keep : α → Bool) (h : ∀ x ∈ l, keep x = false → row x = .ok none)
    (limit : ℕ) : firstRows row limit (l.filter keep) = firstRows row limit l := by
  induction l generalizing limit with
  | nil => rfl
  | cons x l ih =>
    have ih := ih fun y hy => h y (mem_cons_of_mem _ hy)
    cases limit with
    | zero => rw [firstRows_zero, firstRows_zero]
    | succ limit =>
      rw [firstRows]
      by_cases hx : keep x = true
      · rw [filter_cons_of_pos hx, firstRows, ih, ih]
      · rw [filter_cons_of_neg hx, h x mem_cons_self (Bool.of_not_eq_true hx), ih]

lemma firstRows_congr (h : ∀ x ∈ l, row x = row' x) (limit : ℕ) :
    firstRows row limit l = firstRows row' limit l := by
  induction l generalizing limit with
  | nil => rfl
  | cons x l ih =>
    have ih := ih fun y hy => h y (mem_cons_of_mem _ hy)
    cases limit with
    | zero => rw [firstRows_zero, firstRows_zero]
    | succ limit => rw [firstRows, firstRows, h x mem_cons_self, ih, ih]

end

end Zelavis.Lib
