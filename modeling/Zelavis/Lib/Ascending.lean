import Mathlib.Data.List.Sort
import Mathlib.Data.List.Pairwise
import Mathlib.Order.Basic

/-!
# Strictly ascending runs

* `Ascending l` — each entry is below the next.
* `mergeAnd`, `mergeOr` — the intersection and the union of two runs in one pass over both.
-/

namespace Zelavis.Lib

open List

variable {α : Type} [LinearOrder α]

def Ascending (l : List α) : Prop := l.Pairwise (· < ·)

instance (l : List α) : Decidable (Ascending l) := inferInstanceAs (Decidable (l.Pairwise _))

variable {l : List α}

namespace Ascending

@[simp] lemma nil : Ascending ([] : List α) := List.Pairwise.nil

lemma cons {a : α} : Ascending (a :: l) ↔ (∀ b ∈ l, a < b) ∧ Ascending l :=
  pairwise_cons

lemma nodup (h : Ascending l) : l.Nodup := List.Pairwise.imp ne_of_lt h

lemma ext {l l' : List α} (hl : Ascending l) (hl' : Ascending l') (h : ∀ a, a ∈ l ↔ a ∈ l') : l = l' :=
  List.Perm.eq_of_pairwise' (r := (· < ·)) hl hl'
    ((perm_ext_iff_of_nodup hl.nodup hl'.nodup).2 h)

lemma filter (h : Ascending l) (p : α → Bool) : Ascending (l.filter p) :=
  List.Pairwise.filter p h

lemma map {β : Type} [LinearOrder β] (h : Ascending l) {f : α → β}
    (hf : StrictMono f) : Ascending (l.map f) :=
  List.Pairwise.map f (fun _ _ hab => hf hab) h

end Ascending

/-! ## Intersection -/

/-- Look for `a` in a run, then go on with what is left of it. -/
def meetRun (a : α) (rest : List α → List α) : List α → List α
  | [] => []
  | b :: ys =>
    if a = b then a :: rest ys else if a < b then rest (b :: ys) else meetRun a rest ys

def mergeAnd : List α → List α → List α
  | [], _ => []
  | a :: xs, ys => meetRun a (mergeAnd xs) ys

variable {xs ys : List α}

lemma mem_meetRun {a : α} (hx : Ascending (a :: xs)) (hy : Ascending ys)
    (ih : ∀ ys, Ascending ys → ∀ i, i ∈ mergeAnd xs ys ↔ i ∈ xs ∧ i ∈ ys) (i : α) :
    i ∈ meetRun a (mergeAnd xs) ys ↔ i ∈ a :: xs ∧ i ∈ ys := by
  have hax := (Ascending.cons.1 hx).1
  induction ys with
  | nil => simp [meetRun]
  | cons b ys ihy =>
    obtain ⟨hby, hys⟩ := Ascending.cons.1 hy
    have ihy := ihy hys
    rw [meetRun]
    split_ifs with h h'
    · subst h
      rw [mem_cons, ih ys hys, mem_cons, mem_cons, ← or_and_left]
    · rw [ih _ hy, mem_cons (a := i) (b := a), mem_cons]
      constructor
      · exact fun h => ⟨.inr h.1, h.2⟩
      · rintro ⟨rfl | hi, rfl | hi'⟩
        · exact absurd rfl h
        · exact absurd (hby _ hi') (not_lt.2 h'.le)
        · exact ⟨hi, .inl rfl⟩
        · exact ⟨hi, .inr hi'⟩
    · refine ihy.trans ?_
      rw [mem_cons, mem_cons]
      constructor
      · exact fun h => ⟨h.1, .inr h.2⟩
      · rintro ⟨rfl | hi, rfl | hi'⟩
        · exact absurd rfl h
        · exact ⟨.inl rfl, hi'⟩
        · exact absurd (hax _ hi) h'
        · exact ⟨.inr hi, hi'⟩

lemma mem_mergeAnd (hx : Ascending xs) (hy : Ascending ys) (i : α) :
    i ∈ mergeAnd xs ys ↔ i ∈ xs ∧ i ∈ ys := by
  induction xs generalizing ys i with
  | nil => simp [mergeAnd]
  | cons a xs ih =>
    exact mem_meetRun hx hy (fun ys hys i => ih (Ascending.cons.1 hx).2 hys i) i

lemma mergeAnd_ascending (hx : Ascending xs) (hy : Ascending ys) : Ascending (mergeAnd xs ys) := by
  induction xs generalizing ys with
  | nil => exact Ascending.nil
  | cons a xs ih =>
    obtain ⟨hax, hxs⟩ := Ascending.cons.1 hx
    rw [mergeAnd]
    induction ys with
    | nil => exact Ascending.nil
    | cons b ys ihy =>
      have hys := (Ascending.cons.1 hy).2
      rw [meetRun]
      split_ifs with h h'
      · exact Ascending.cons.2 ⟨fun i hi => hax i ((mem_mergeAnd hxs hys i).1 hi).1, ih hxs hys⟩
      · exact ih hxs hy
      · exact ihy hys

/-! ## Union -/

/-- Put `a` in its place in a run, then go on with what is left of it. -/
def joinRun (a : α) (rest : List α → List α) : List α → List α
  | [] => a :: rest []
  | b :: ys =>
    if a = b then a :: rest ys
    else if a < b then a :: rest (b :: ys) else b :: joinRun a rest ys

def mergeOr : List α → List α → List α
  | [], ys => ys
  | a :: xs, ys => joinRun a (mergeOr xs) ys

lemma mem_mergeOr (i : α) : i ∈ mergeOr xs ys ↔ i ∈ xs ∨ i ∈ ys := by
  induction xs generalizing ys with
  | nil => simp [mergeOr]
  | cons a xs ih =>
    rw [mergeOr]
    induction ys with
    | nil => simp [joinRun, ih]
    | cons b ys ihy =>
      rw [joinRun]
      split_ifs with h h'
      · subst h
        simp only [mem_cons, ih]
        tauto
      · simp only [mem_cons, ih]
        tauto
      · rw [mem_cons, ihy]
        simp only [mem_cons]
        tauto

lemma mergeOr_ascending (hx : Ascending xs) (hy : Ascending ys) : Ascending (mergeOr xs ys) := by
  induction xs generalizing ys with
  | nil => exact hy
  | cons a xs ih =>
    obtain ⟨hax, hxs⟩ := Ascending.cons.1 hx
    rw [mergeOr]
    induction ys with
    | nil =>
      refine Ascending.cons.2 ⟨fun i hi => ?_, ih hxs Ascending.nil⟩
      rcases (mem_mergeOr i).1 hi with hi | hi
      · exact hax i hi
      · exact absurd hi not_mem_nil
    | cons b ys ihy =>
      obtain ⟨hby, hys⟩ := Ascending.cons.1 hy
      rw [joinRun]
      split_ifs with h h'
      · subst h
        refine Ascending.cons.2 ⟨fun i hi => ?_, ih hxs hys⟩
        rcases (mem_mergeOr i).1 hi with hi | hi
        · exact hax i hi
        · exact hby i hi
      · refine Ascending.cons.2 ⟨fun i hi => ?_, ih hxs hy⟩
        rcases (mem_mergeOr i).1 hi with hi | hi
        · exact hax i hi
        · rcases mem_cons.1 hi with rfl | hi
          · exact h'
          · exact h'.trans (hby i hi)
      · have hba : b < a := lt_of_le_of_ne (not_lt.1 h') (Ne.symm h)
        refine Ascending.cons.2 ⟨fun i hi => ?_, ihy hys⟩
        rcases (show i ∈ a :: xs ∨ i ∈ ys from (mem_mergeOr i).1 hi) with hi | hi
        · rcases mem_cons.1 hi with rfl | hi
          · exact hba
          · exact hba.trans (hax i hi)
        · exact hby i hi

end Zelavis.Lib
