import Zelavis.Lib.Turns

/-!
# Programs as trees of calls

A program makes calls, and each call is answered or fails; the program goes on with what it gets. Run by
several parties in turns, one call is made at a turn.
-/

namespace Zelavis.Lib.Tasks

open Turns

/-- A program of calls in `C`, answered in `A`, that ends with an `α` or fails with an `ε`. -/
inductive Task (C : Type) (A : C → Type) (ε α : Type) where
  | done (a : α)
  | fail (e : ε)
  | call (c : C) (next : Except ε (A c) → Task C A ε α)

namespace Task

variable {C : Type} {A : C → Type} {ε α β : Type}

def bind : Task C A ε α → (α → Task C A ε β) → Task C A ε β
  | done a, f => f a
  | fail e, _ => fail e
  | call c next, f => call c fun r => (next r).bind f

def tryCatch : Task C A ε α → (ε → Task C A ε α) → Task C A ε α
  | done a, _ => done a
  | fail e, f => f e
  | call c next, f => call c fun r => (next r).tryCatch f

def perform (c : C) : Task C A ε (A c) :=
  call c fun r => r.casesOn fail done

instance : Monad (Task C A ε) where
  pure := Task.done
  bind := Task.bind

@[simp] lemma pure_eq (a : α) : (Pure.pure a : Task C A ε α) = done a := rfl

@[simp] lemma bind_eq (t : Task C A ε α) (f : α → Task C A ε β) : t >>= f = t.bind f := rfl

/-! ## What every call meets -/

def Uses (allowed : C → Prop) : Task C A ε α → Prop
  | done _ => True
  | fail _ => True
  | call c next => allowed c ∧ ∀ r, (next r).Uses allowed

variable {allowed : C → Prop} {t : Task C A ε α}

@[simp] lemma uses_done (a : α) : (done a : Task C A ε α).Uses allowed := trivial

@[simp] lemma uses_fail (e : ε) : (fail e : Task C A ε α).Uses allowed := trivial

@[simp] lemma uses_perform {c : C} : (perform c : Task C A ε (A c)).Uses allowed ↔ allowed c := by
  refine ⟨fun h => h.1, fun h => ⟨h, fun r => ?_⟩⟩
  cases r with
  | error e => exact uses_fail e
  | ok a => exact uses_done a

lemma uses_bind {f : α → Task C A ε β} (h : t.Uses allowed) (hf : ∀ a, (f a).Uses allowed) :
    (t.bind f).Uses allowed := by
  induction t with
  | done a => exact hf a
  | fail e => exact uses_fail e
  | call c next ih => exact ⟨h.1, fun r => ih r (h.2 r)⟩

lemma uses_tryCatch {f : ε → Task C A ε α} (h : t.Uses allowed) (hf : ∀ e, (f e).Uses allowed) :
    (t.tryCatch f).Uses allowed := by
  induction t with
  | done a => exact uses_done a
  | fail e => exact hf e
  | call c next ih => exact ⟨h.1, fun r => ih r (h.2 r)⟩

lemma Uses.mono {allowed' : C → Prop} (h : t.Uses allowed) (himp : ∀ c, allowed c → allowed' c) :
    t.Uses allowed' := by
  induction t with
  | done a => exact uses_done a
  | fail e => exact uses_fail e
  | call c next ih => exact ⟨himp c h.1, fun r => ih r (h.2 r)⟩

def nextCall : Task C A ε α → Option C
  | call c _ => some c
  | _ => none

lemma nextCall_eq_some {c : C} (h : t.nextCall = some c) : ∃ next, t = call c next := by
  cases t with
  | done | fail => cases h
  | call c' next =>
    cases h
    exact ⟨next, rfl⟩

end Task

/-! ## Jobs -/

/-- A party that is asked for something, and the rest of its program once it runs. -/
inductive Job (Q C : Type) (A : C → Type) (ε α : Type) where
  | asked (request : Q)
  | running (request : Q) (rest : Task C A ε α)

variable {Q C : Type} {A : C → Type} {ε α E F S : Type}

def Job.rest (program : Q → Task C A ε α) : Job Q C A ε α → Task C A ε α
  | .asked request => program request
  | .running _ rest => rest

def Job.nextCall (program : Q → Task C A ε α) (job : Job Q C A ε α) : Option C :=
  (job.rest program).nextCall

def Job.request : Job Q C A ε α → Q
  | .asked request => request
  | .running request _ => request

def Task.advance (exec : E → S → (c : C) → Option (S × Except ε (A c))) (e : E) (s : S) :
    Task C A ε α → Option (S × Task C A ε α)
  | .call c next => (exec e s c).map fun got => (got.1, next got.2)
  | _ => none

def ofTasks (program : Q → Task C A ε α) (exec : E → S → (c : C) → Option (S × Except ε (A c)))
    (passes : F → S → Option S) : Rules S (Job Q C A ε α) E F where
  begins
    | .asked _ => true
    | .running _ _ => false
  moves e s job := ((job.rest program).advance exec e s).map fun next =>
    (next.1, .running job.request next.2)
  passes := passes

variable {program : Q → Task C A ε α} {exec : E → S → (c : C) → Option (S × Except ε (A c))}
  {passes : F → S → Option S}

lemma moves_eq_some {e : E} {s s' : S} {job job' : Job Q C A ε α}
    (h : (ofTasks program exec passes).moves e s job = some (s', job')) :
    ∃ c next r, job.rest program = .call c next ∧ exec e s c = some (s', r) ∧
      job' = .running job.request (next r) := by
  obtain ⟨⟨s'', t⟩, hadvance, heq⟩ := Option.map_eq_some_iff.1 h
  cases hrest : job.rest program with
  | done | fail => rw [hrest] at hadvance; cases hadvance
  | call c next =>
    rw [hrest] at hadvance
    obtain ⟨⟨s₁, r⟩, hexec, hnext⟩ := Option.map_eq_some_iff.1 hadvance
    cases hnext
    cases heq
    exact ⟨c, next, r, rfl, hexec, rfl⟩

lemma uses_of_moves {allowed : C → Prop} {e : E} {s s' : S} {job job' : Job Q C A ε α}
    (h : (ofTasks program exec passes).moves e s job = some (s', job'))
    (huses : (job.rest program).Uses allowed) : (job'.rest program).Uses allowed := by
  obtain ⟨c, next, r, hrest, -, rfl⟩ := moves_eq_some h
  rw [hrest] at huses
  exact huses.2 r

end Zelavis.Lib.Tasks
