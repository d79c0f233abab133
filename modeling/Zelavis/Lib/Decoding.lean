import Mathlib.Data.List.Forall2
import Mathlib.Data.List.Basic

/-!
# Lists decoded element by element

* `sweep`, `foldlM_eq_ok_iff_sweep` — a fold gone through whatever it meets: one that can fail does
  not where nothing it meets is in its way.
-/

namespace Zelavis.Lib

open List

variable {α β : Type} {g : α → Option β} {l : List α} {bs : List β}

lemma mapM_eq_some_iff : l.mapM g = some bs ↔ List.Forall₂ (fun a b => g a = some b) l bs := by
  induction l generalizing bs with
  | nil =>
    cases bs with
    | nil | cons => simp
  | cons c l ih =>
    cases bs with
    | nil => simp [Option.bind_eq_some_iff]
    | cons b bs => simp [Option.bind_eq_some_iff, ih]

variable {b : β}

lemma mem_of_mapM (h : l.mapM g = some bs) : b ∈ bs ↔ ∃ a ∈ l, g a = some b := by
  have hall := mapM_eq_some_iff.1 h
  clear h
  induction hall with
  | nil => simp
  | cons ha _ ih =>
    simp only [mem_cons, ih, exists_eq_or_imp, ha, Option.some.injEq]
    rw [eq_comm]

lemma exists_of_mapM (h : l.mapM g = some bs) {a : α} (ha : a ∈ l) : ∃ b, g a = some b := by
  have hall := mapM_eq_some_iff.1 h
  clear h
  induction hall with
  | nil => exact absurd ha not_mem_nil
  | cons hb _ ih =>
    rcases mem_cons.1 ha with rfl | ha
    · exact ⟨_, hb⟩
    · exact ih ha

variable {R : α → β → Prop}

lemma exists_left_of_forall₂ (h : List.Forall₂ R l bs) (hb : b ∈ bs) : ∃ a ∈ l, R a b := by
  induction h with
  | nil => exact absurd hb not_mem_nil
  | @cons a b' _ _ hab _ ih =>
    rcases mem_cons.1 hb with rfl | hb
    · exact ⟨a, mem_cons_self, hab⟩
    · obtain ⟨a', ha', hr⟩ := ih hb
      exact ⟨a', mem_cons_of_mem _ ha', hr⟩

lemma exists_right_of_forall₂ (h : List.Forall₂ R l bs) {a : α} (ha : a ∈ l) : ∃ b ∈ bs, R a b :=
  exists_left_of_forall₂ h.flip ha

/-! ## Failures that say why -/

section

variable {ε σ : Type}

lemma bind_eq_ok_iff {x : Except ε α} {f : α → Except ε β} :
    x >>= f = .ok b ↔ ∃ a, x = .ok a ∧ f a = .ok b := by
  cases x with
  | error | ok => simp [bind, Except.bind]

@[simp] lemma ok_bind (a : α) (f : α → Except ε β) : (Except.ok a >>= f) = f a := rfl

lemma mapM_eq_ok_iff {g : α → Except ε β} :
    l.mapM g = .ok bs ↔ List.Forall₂ (fun a b => g a = .ok b) l bs := by
  induction l generalizing bs with
  | nil =>
    show Except.ok [] = Except.ok bs ↔ _
    cases bs with
    | nil | cons => simp
  | cons c l ih =>
    rw [mapM_cons]
    cases hc : g c with
    | error fault =>
      cases bs with
      | nil => simp [bind, Except.bind]
      | cons b bs => simp [bind, Except.bind, hc]
    | ok b' =>
      cases hl : l.mapM g with
      | error fault =>
        have hnot : ∀ bs, ¬ List.Forall₂ (fun a b => g a = .ok b) l bs := by
          intro bs hall
          rw [← ih, hl] at hall
          cases hall
        cases bs with
        | nil => simp [bind, Except.bind]
        | cons b bs => simp [bind, Except.bind, hnot]
      | ok bs' =>
        cases bs with
        | nil => simp [bind, Except.bind, pure, Except.pure]
        | cons b bs =>
          rw [List.forall₂_cons, ← ih, hl, hc]
          simp [bind, Except.bind, pure, Except.pure]

lemma foldlM_ok_induct {f : σ → α → Except ε σ} {J : σ → Prop}
    (hstep : ∀ a ∈ l, ∀ s s', J s → f s a = .ok s' → J s') {s s' : σ} (hs : J s)
    (h : l.foldlM f s = .ok s') : J s' := by
  induction l generalizing s with
  | nil =>
    cases h
    exact hs
  | cons a l ih =>
    rw [foldlM_cons] at h
    cases ha : f s a with
    | error fault =>
      rw [ha] at h
      cases h
    | ok next =>
      rw [ha] at h
      exact ih (fun b hb => hstep b (mem_cons_of_mem _ hb))
        (hstep a mem_cons_self s next hs ha) h

end

/-! ## What a fold meets -/

section

variable {σ ε κ : Type}

/-- A fold gone through whatever it meets: what it met, and where it ended. -/
def sweep (g : σ → α → List κ × σ) : List α → σ → List κ × σ
  | [], s => ([], s)
  | a :: l, s => ((g s a).1 ++ (sweep g l (g s a).2).1, (sweep g l (g s a).2).2)

lemma sweep_flatMap {f : α → List κ} {h : σ → κ → σ} (l : List α) (s : σ) :
    sweep (fun s a => (f a, (f a).foldl h s)) l s = (l.flatMap f, (l.flatMap f).foldl h s) := by
  induction l generalizing s with
  | nil => rfl
  | cons a l ih => simp [sweep, ih]

/-- Where a step succeeds exactly if nothing it meets is in its way, and then ends where the sweep
does, so does the fold. `J` is what the steps preserve. -/
theorem foldlM_eq_ok_iff_sweep {f : σ → α → Except ε σ} {g : σ → α → List κ × σ} {p : κ → Prop} {J : σ → Prop}
    (hstep : ∀ a ∈ l, ∀ s, J s → ∀ u, f s a = .ok u ↔ (∀ e ∈ (g s a).1, p e) ∧ u = (g s a).2)
    (hkeep : ∀ a ∈ l, ∀ s u, J s → f s a = .ok u → J u) {s u : σ} (hs : J s) :
    l.foldlM f s = .ok u ↔ (∀ e ∈ (sweep g l s).1, p e) ∧ u = (sweep g l s).2 := by
  induction l generalizing s with
  | nil =>
    show Except.ok s = Except.ok u ↔ _
    simp [sweep, eq_comm]
  | cons a l ih =>
    have hfirst := hstep a mem_cons_self s hs
    have hrest : ∀ {s}, J s → (l.foldlM f s = .ok u ↔
        (∀ e ∈ (sweep g l s).1, p e) ∧ u = (sweep g l s).2) := fun hs =>
      ih (fun b hb => hstep b (mem_cons_of_mem _ hb))
        (fun b hb => hkeep b (mem_cons_of_mem _ hb)) hs
    rw [foldlM_cons, bind_eq_ok_iff]
    simp only [sweep, forall_mem_append]
    constructor
    · rintro ⟨next, hnext, hfold⟩
      have hJ := hkeep a mem_cons_self s next hs hnext
      obtain ⟨hok, rfl⟩ := (hfirst next).1 hnext
      obtain ⟨hoks, hend⟩ := (hrest hJ).1 hfold
      exact ⟨⟨hok, hoks⟩, hend⟩
    · rintro ⟨⟨hok, hoks⟩, hend⟩
      have hnext := (hfirst _).2 ⟨hok, rfl⟩
      exact ⟨_, hnext, (hrest (hkeep a mem_cons_self s _ hs hnext)).2 ⟨hoks, hend⟩⟩

end

end Zelavis.Lib
