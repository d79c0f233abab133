import Zelavis.Lib.Tasks

/-!
# What a program leaves wherever it stops

A program is cut at any of its calls. What is wanted then is a property that every call leaves true,
beside what holds where the program ends or fails.
-/

namespace Zelavis.Lib.Tasks

open Turns

namespace Task

variable {C S : Type} {A : C → Type} {ε α β : Type}
  (I : S → Prop) (step : (c : C) → S → S → Except ε (A c) → Prop)

/-- From a state, every call leaves the invariant, and the program ends and fails as it should. A call
leads from one state to another with an answer as `step` says. -/
def Safe (Q : α → S → Prop) (F : ε → S → Prop) : Task C A ε α → S → Prop
  | .done a, s => Q a s
  | .fail e, s => F e s
  | .call c next, s => ∀ s' r, step c s s' r → I s' ∧ (next r).Safe Q F s'

variable {I step} {Q Q' : α → S → Prop} {F F' : ε → S → Prop} {P : β → S → Prop} {s : S}
  {t : Task C A ε α}

lemma Safe.mono (h : t.Safe I step Q F s) (hQ : ∀ a s, Q a s → Q' a s)
    (hF : ∀ e s, F e s → F' e s) : t.Safe I step Q' F' s := by
  induction t generalizing s with
  | done a => exact hQ a s h
  | fail e => exact hF e s h
  | call c next ih => exact fun s' r hstep => ⟨(h s' r hstep).1, ih r (h s' r hstep).2⟩

lemma safe_bind {f : α → Task C A ε β} (h : t.Safe I step (fun a s => (f a).Safe I step P F s) F s) :
    (t.bind f).Safe I step P F s := by
  induction t generalizing s with
  | done | fail => exact h
  | call c next ih => exact fun s' r hstep => ⟨(h s' r hstep).1, ih r (h s' r hstep).2⟩

lemma safe_tryCatch {f : ε → Task C A ε α} (h : t.Safe I step Q (fun e s => (f e).Safe I step Q F s) s) :
    (t.tryCatch f).Safe I step Q F s := by
  induction t generalizing s with
  | done | fail => exact h
  | call c next ih => exact fun s' r hstep => ⟨(h s' r hstep).1, ih r (h s' r hstep).2⟩

lemma safe_perform {c : C} {Q : A c → S → Prop}
    (h : ∀ s' r, step c s s' r → I s' ∧ (∀ a, r = .ok a → Q a s') ∧ ∀ e, r = .error e → F e s') :
    (perform c).Safe I step Q F s := by
  intro s' r hstep
  obtain ⟨hI, hok, herror⟩ := h s' r hstep
  cases r with
  | error e => exact ⟨hI, herror e rfl⟩
  | ok a => exact ⟨hI, hok a rfl⟩

lemma Safe.inv (hs : I s) (h : t.Safe I step Q F s) :
    t.Safe I step (fun a s => I s ∧ Q a s) (fun e s => I s ∧ F e s) s := by
  induction t generalizing s with
  | done | fail => exact ⟨hs, h⟩
  | call c next ih => exact fun s' r hstep => ⟨(h s' r hstep).1, ih r (h s' r hstep).1 (h s' r hstep).2⟩

end Task

/-! ## Parties that do not overlap -/

section

variable {Q C E F S V : Type} {A : C → Type} {ε α : Type} {program : Q → Task C A ε α}
  {exec : E → S → (c : C) → Option (S × Except ε (A c))} {passes : F → S → Option S}

def InTurn {P : Type} {R : Rules S P E F} (run : Run R) : Prop :=
  ∀ m k e, run.turn m = .move k e → k + 1 = (run.world m).parties.length

/-- What is seen of the shared state at each moment changes only where a job makes a call, and then as
`step` says. -/
structure Follows (run : Run (ofTasks program exec passes)) (view : ℕ → V)
    (step : Q → (c : C) → V → V → Except ε (A c) → Prop) : Prop where
  quiet : ∀ m, (∀ k e, run.turn m ≠ .move k e) → view (m + 1) = view m
  /-- A call changes it as `step` says. -/
  moves : ∀ m k e job c next r, run.turn m = .move k e → (run.world m).parties[k]? = some job →
    job.rest program = .call c next →
    exec e (run.world m).shared c = some ((run.world (m + 1)).shared, r) →
    step job.request c (view m) (view (m + 1)) r

variable {run : Run (ofTasks program exec passes)} {view : ℕ → V} {I : V → Prop}
  {step : Q → (c : C) → V → V → Except ε (A c) → Prop}

def LastSafe (run : Run (ofTasks program exec passes)) (view : ℕ → V) (I : V → Prop)
    (step : Q → (c : C) → V → V → Except ε (A c) → Prop) (m : ℕ) : Prop :=
  ∀ job, (run.world m).parties.getLast? = some job →
    (job.rest program).Safe I (step job.request) (fun _ _ => True) (fun _ _ => True) (view m)

lemma safe_succ (hturn : InTurn run) (hfollows : Follows run view step) (hprogram : ∀ q v, I v →
      (program q).Safe I (step q) (fun _ _ => True) (fun _ _ => True) v) {m : ℕ}
    (hI : I (view m)) (hlast : LastSafe run view I step m) :
    I (view (m + 1)) ∧ LastSafe run view I step (m + 1) := by
  obtain ⟨hidle, hw⟩ | ⟨party, hbegin, hbegins, hw⟩ | ⟨k, e, job, s', job', hmove, hjob, hmoves, hw⟩ |
    ⟨e, s', hpass, -, hw⟩ := Rules.play_cases (run.plays m)
  · have hview := hfollows.quiet m fun k e h => by rw [hidle] at h; cases h
    rw [LastSafe, hview, hw]
    exact ⟨hI, hlast⟩
  · have hview := hfollows.quiet m fun k e h => by rw [hbegin] at h; cases h
    rw [LastSafe, hview, hw]
    refine ⟨hI, fun job hjob => ?_⟩
    rw [List.getLast?_append, List.getLast?_singleton, Option.some_or] at hjob
    cases hjob
    cases party with
    | asked request => exact hprogram request _ hI
    | running request rest => cases hbegins
  · obtain ⟨c, next, r, hrest, hexec, rfl⟩ := moves_eq_some hmoves
    have hshared : (run.world (m + 1)).shared = s' := by rw [hw]
    rw [← hshared] at hexec
    have hstep := hfollows.moves m k e job c next r hmove hjob hrest hexec
    have hk := hturn m k e hmove
    have hjoblast : (run.world m).parties.getLast? = some job := by
      rw [List.getLast?_eq_getElem?, ← hk, Nat.add_sub_cancel, hjob]
    have hsafe := hlast job hjoblast
    rw [hrest] at hsafe
    obtain ⟨hI', hnext⟩ := hsafe _ r hstep
    refine ⟨hI', fun last hlast' => ?_⟩
    have hset : (run.world (m + 1)).parties.getLast? = some (.running job.request (next r)) := by
      rw [hw, List.getLast?_eq_getElem?]
      rw [List.length_set, ← hk, Nat.add_sub_cancel]
      exact List.getElem?_set_self (by omega)
    cases hset.symm.trans hlast'
    exact hnext
  · have hview := hfollows.quiet m fun k e h => by rw [hpass] at h; cases h
    rw [LastSafe, hview, hw]
    exact ⟨hI, hlast⟩

/-- What every program leaves true from wherever it is true, a run of parties that do not overlap leaves
true at every moment, wherever each of them stops. -/
theorem safe_at (hstart : (run.world 0).parties = []) (hturn : InTurn run) (hfollows : Follows run view step)
    (hprogram : ∀ q v, I v → (program q).Safe I (step q) (fun _ _ => True) (fun _ _ => True) v)
    (hI : I (view 0)) (m : ℕ) : I (view m) := by
  have hboth : I (view m) ∧ LastSafe run view I step m := by
    induction m with
    | zero =>
      refine ⟨hI, fun job hjob => ?_⟩
      rw [hstart] at hjob
      cases hjob
    | succ m ih => exact safe_succ hturn hfollows hprogram ih.1 ih.2
  exact hboth.1

end

end Zelavis.Lib.Tasks
