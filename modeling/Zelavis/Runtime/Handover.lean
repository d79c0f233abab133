import Zelavis.Lib.Doubles
import Zelavis.Lib.Fibers
import Zelavis.Lib.Unicode
import Zelavis.Runtime.Admission

/-!
# The handover of a runtime

`handover.ts`: the runtime that owns the live state is replaced by another release. The candidate is
prepared, admission is paused and drained, the old owner is deactivated and the candidate activated; what
goes wrong from there on is rolled back, and what cannot be is left for recovery.
-/

namespace Zelavis.Runtime

open Lib Tasks Fibers

/-! ## Releases, owners and records -/

/-- Source: `RuntimeRelease`. -/
structure Release where
  version : Utf16
  digest : Utf16
  deriving DecidableEq

/-- Source: `options.initial`, `current`. -/
structure Standing (O : Type) where
  release : Release
  owner : O
  generation : ℕ
  deriving DecidableEq

/-- Source: `RuntimeHandoverCheckpoint`, its `phase`. -/
inductive CheckpointPhase where
  | prepared
  | releasing
  | activating
  | committing
  | ready
  | failed
  deriving DecidableEq

/-- Source: `RuntimeHandoverCheckpoint`. -/
structure Checkpoint where
  generation : ℕ
  phase : CheckpointPhase
  previous : Release
  target : Release
  deriving DecidableEq

/-! ## The host -/

/-- Source: `RuntimeHandoverHost`. -/
inductive HostCall (C O : Type) where
  | prepare (release : Release)
  | qualify (owner : O)
  | deactivate (owner : O)
  | activate (candidate : C) (generation : ℕ)
  | restore (release : Release) (generation : ℕ)
  | probe (owner : O)
  | discard (candidate : C)
  | checkpoint (value : Checkpoint)
  | commit (release : Release) (owner : O) (generation : ℕ)
  deriving DecidableEq

/-- What goes wrong. -/
inductive Cause (X : Type) where
  | host (error : X)
  | interrupted
  /-- Source: `admission.ts` `RuntimeDrainTimeout`. -/
  | drainTimeout
  /-- Source: `new Error(message)`. -/
  | error (message : Utf16)
  /-- Source: `RuntimeHandoverFailure`. -/
  | handover (cause : Cause X)
  /-- The same, with a `rollbackCause`. -/
  | unproven (cause rollbackCause : Cause X)
  deriving DecidableEq

/-- What comes back from outside. -/
inductive Reply (C O X : Type) where
  | done
  | candidate (candidate : C)
  | owner (owner : O)
  | fails (cause : Cause X)
  deriving DecidableEq

/-- What has happened. -/
inductive Entry (C O X : Type) where
  | asked (target : Release) (current : Standing O)
  | called (call : HostCall C O) (reply : Reply C O X)
  | adopted (standing : Standing O)
  | rollbackFailed
  | resumed
  deriving DecidableEq

/-! ## The controller -/

/-- The variables of a controller, those of the replacement that has its permit, the gate, and what has
happened. Source: `createRuntimeHandover`. -/
structure Controller (C O X : Type) where
  permit : Option ℕ := none
  current : Standing O
  generationCounter : ℕ
  poisoned : Bool := false
  recoveryFailure : Option (Cause X) := none
  released : Bool := false
  candidateDisposed : Bool := false
  admission : Admission
  log : List (Entry C O X) := []

variable {C O X : Type}

def Controller.initial (current : Standing O) (admission : Admission) : Controller C O X where
  current := current
  generationCounter := current.generation
  admission := admission

/-- The sum with one, as a double. Source: `n + 1`. -/
def succ (n : ℕ) : ℕ := Doubles.nearest (n + 1)

/-- Source: `Number.isSafeInteger`. -/
def isSafeInteger (n : ℕ) : Bool := n ≤ 9007199254740991

/-- How a replacement begins. -/
inductive Opened (O : Type) where
  | fenced
  | same (current : Standing O)
  | exhausted
  | opened (previous : Standing O) (generation : ℕ)

/-- The variables a step of a replacement looks at. -/
structure Locals (O : Type) where
  released : Bool
  candidateDisposed : Bool
  poisoned : Bool
  current : Standing O

/-- What a replacement calls. -/
inductive Call (C O X : Type) where
  /-- Source: `permit.withPermit`. -/
  | acquire
  | release
  /-- Source: `replace`, up to its variables. -/
  | opens (target : Release)
  | host (call : HostCall C O)
  /-- Source: `admission.pause`. -/
  | pause
  /-- Source: `admission.drain`. -/
  | drain
  /-- Source: `admission.resume`. -/
  | resume
  | moment
  /-- Source: `poisoned = true`, `recoveryFailure = …`. -/
  | poison (cause : Cause X)
  | rollbackFails (cause : Cause X)
  /-- Source: `released = true`. -/
  | released
  /-- Source: `candidateDisposed = true`. -/
  | disposed
  /-- Source: `generationCounter = …`. -/
  | countTo (generation : ℕ)
  /-- Source: `current = …`. -/
  | adopt (standing : Standing O)
  | look

/-- What a method of the host is answered. -/
abbrev HostAnswer : HostCall C O → Type
  | .prepare _ => C
  | .activate _ _ => O
  | .restore _ _ => O
  | .qualify _ | .deactivate _ | .probe _ | .discard _ | .checkpoint _ | .commit _ _ _ => Unit

/-- What a call is answered. -/
abbrev Answer : Call C O X → Type
  | .opens _ => Opened O
  | .host call => HostAnswer call
  | .look => Locals O
  | .acquire | .release | .pause | .drain | .resume | .moment | .poison _ | .rollbackFails _ | .released
  | .disposed | .countTo _ | .adopt _ => Unit

def Reply.answer (reply : Reply C O X) : (call : HostCall C O) → Option (Except (Cause X) (HostAnswer call))
  | .prepare _ =>
    match reply with
    | .candidate c => some (.ok c)
    | .fails cause => some (.error cause)
    | .done | .owner _ => none
  | .activate _ _ | .restore _ _ =>
    match reply with
    | .owner o => some (.ok o)
    | .fails cause => some (.error cause)
    | .done | .candidate _ => none
  | .qualify _ | .deactivate _ | .probe _ | .discard _ | .checkpoint _ | .commit _ _ _ =>
    match reply with
    | .done => some (.ok ())
    | .fails cause => some (.error cause)
    | .candidate _ | .owner _ => none

variable {reply : Reply C O X}

lemma Reply.eq_fails_of_answer {call : HostCall C O} {cause : Cause X}
    (h : reply.answer call = some (.error cause)) : reply = .fails cause := by
  cases call <;> cases reply <;> first | cases h; rfl | cases h

variable {candidate : C} {owner : O}

lemma Reply.eq_owner_of_activate {g : ℕ}
    (h : reply.answer (.activate candidate g) = some (.ok owner)) : reply = .owner owner := by
  cases reply <;> cases h
  rfl

variable {release : Release}

lemma Reply.eq_owner_of_restore {g : ℕ}
    (h : reply.answer (.restore release g) = some (.ok owner)) : reply = .owner owner := by
  cases reply <;> cases h
  rfl

lemma Reply.eq_candidate_of_prepare
    (h : reply.answer (.prepare release) = some (.ok candidate)) : reply = .candidate candidate := by
  cases reply <;> cases h
  rfl

def Reply.goesOn : Reply C O X → Option (Except (Cause X) Unit)
  | .done => some (.ok ())
  | .fails .interrupted => some (.error .interrupted)
  | _ => none

/-- Admission drains, or it takes too long, or the caller leaves. Source: `admission.ts` `drain`. -/
def Reply.drains (reply : Reply C O X) (gate : Admission) : Option (Except (Cause X) Unit) :=
  if gate.paused then
    match reply with
    | .done => if gate.drained then some (.ok ()) else none
    | .fails .drainTimeout => some (.error .drainTimeout)
    | .fails .interrupted => some (.error .interrupted)
    | _ => none
  else some (.error (.error (utf16 "Drain requires paused admission.")))

/-- The first lines of a replacement. Source: `replace`. -/
def Controller.opens (s : Controller C O X) (target : Release) : Controller C O X × Opened O :=
  let asked := { s with log := .asked target s.current :: s.log }
  if s.poisoned then (asked, .fenced)
  else if target = s.current.release then (asked, .same s.current)
  else
    let generation := succ s.generationCounter
    let counted := { asked with generationCounter := generation }
    if isSafeInteger (succ generation) then
      ({ counted with released := false, candidateDisposed := false }, .opened s.current generation)
    else (counted, .exhausted)

def exec (k : ℕ) (reply : Reply C O X) (s : Controller C O X) :
    (c : Call C O X) → Option (Controller C O X × Except (Cause X) (Answer c))
  | .acquire =>
    match reply.goesOn with
    | some (.ok ()) => if s.permit = none then some ({ s with permit := some k }, .ok ()) else none
    | some (.error cause) => some (s, .error cause)
    | none => none
  | .release => some ({ s with permit := none }, .ok ())
  | .opens target => some ((s.opens target).1, .ok (s.opens target).2)
  | .host call => (reply.answer call).map fun r => ({ s with log := .called call reply :: s.log }, r)
  | .pause => some ({ s with admission := s.admission.pause }, .ok ())
  | .drain => (reply.drains s.admission).map fun r => (s, r)
  | .resume => some ({ s with admission := s.admission.resume, log := .resumed :: s.log }, .ok ())
  | .moment => reply.goesOn.map fun r => (s, r)
  | .poison cause => some ({ s with poisoned := true, recoveryFailure := some cause }, .ok ())
  | .rollbackFails cause =>
    some ({ s with poisoned := true, recoveryFailure := some cause, log := .rollbackFailed :: s.log }, .ok ())
  | .released => some ({ s with released := true }, .ok ())
  | .disposed => some ({ s with candidateDisposed := true }, .ok ())
  | .countTo generation => some ({ s with generationCounter := generation }, .ok ())
  | .adopt standing => some ({ s with current := standing, log := .adopted standing :: s.log }, .ok ())
  | .look => some (s, .ok ⟨s.released, s.candidateDisposed, s.poisoned, s.current⟩)

/-! ## The programs -/

/-- What a controller does. -/
abbrev Program (C O X α : Type) := Task (Call C O X) Answer (Cause X) α

/-- One call. -/
abbrev make (c : Call C O X) : Program C O X (Answer c) := Task.perform c

/-- What a replacement works on. Source: `replace`, its variables. -/
structure Replacement (C O : Type) where
  target : Release
  previous : Standing O
  generation : ℕ
  candidate : C

namespace Replacement

variable (r : Replacement C O)

/-- Source: `record`. -/
def record (phase : CheckpointPhase) (epoch : ℕ) : Program C O X Unit :=
  make (.host (.checkpoint ⟨epoch, phase, r.previous.release, r.target⟩))

/-- A record without which recovery is required. Source: `handover.ts`, its `Effect.onError`. -/
def recordOrPoison (phase : CheckpointPhase) : Program C O X Unit :=
  onError (r.record phase r.generation) fun cause => make (.poison cause)

/-- Source: `transfer`. -/
def transfer : Program C O X (Standing O) := do
  r.recordOrPoison .releasing
  make .released
  make (.host (.deactivate r.previous.owner))
  r.record .activating r.generation
  let owner ← make (.host (.activate r.candidate r.generation))
  make (.host (.probe owner))
  r.record .committing r.generation
  make (.host (.commit r.target owner r.generation))
  r.record .ready r.generation
  make (.adopt ⟨r.target, owner, r.generation⟩)
  pure ⟨r.target, owner, r.generation⟩

/-- Source: `rollback`, once the candidate is discarded. -/
def restoring : Program C O X Unit := do
  make (.countTo (succ r.generation))
  let owner ← make (.host (.restore r.previous.release (succ r.generation)))
  make (.host (.probe owner))
  make (.host (.commit r.previous.release owner (succ r.generation)))
  make (.adopt ⟨r.previous.release, owner, succ r.generation⟩)
  r.record .failed (succ r.generation)

/-- Source: `rollback`. -/
def rollback : Program C O X Unit := do
  make (.host (.discard r.candidate))
  make .disposed
  let locals ← make .look
  if locals.released then r.restoring else pure ()

/-- The transfer, and the rollback of what fails. Source: `handover.ts`, its `Effect.uninterruptible`. -/
def transferring : Program C O X (Standing O) := do
  let done ← attempt r.transfer
  match done with
  | .ok standing => pure standing
  | .error cause => do
    let back ← attempt r.rollback
    match back with
    | .ok () => .fail (.handover cause)
    | .error rollbackCause => do
      make (.rollbackFails rollbackCause)
      .fail (.unproven cause rollbackCause)

/-- Admission drains, the host is asked whether it still qualifies, if it can tell, and ownership is
transferred. -/
def draining (qualifies : Bool) : Program C O X (Standing O) := do
  make .drain
  if qualifies then make (.host (.qualify r.previous.owner)) else pure ()
  make .moment
  r.transferring

/-- Source: `handover.ts`, its `Effect.ensuring`. -/
def reopening : Program C O X Unit := do
  let locals ← make .look
  if !locals.released || !locals.poisoned then make .resume else pure ()

/-- What is done with a candidate. Source: `handover.ts`, the use of its `Effect.acquireUseRelease`. -/
def handing (qualifies : Bool) : Program C O X (Standing O) := do
  make .moment
  r.recordOrPoison .prepared
  make .moment
  make .pause
  make .moment
  ensuring (r.draining qualifies) reopening

/-- The candidate is discarded, if it is not the owner. Source: `handover.ts`, the release of its
`Effect.acquireUseRelease`. -/
def discarding : Program C O X Unit := do
  let locals ← make .look
  if locals.candidateDisposed || locals.current.release = r.target then pure ()
  else
    Task.tryCatch (make (.host (.discard r.candidate))) fun cause => do
      make (.poison cause)
      if locals.released then make .pause else pure ()

end Replacement

/-- Source: `replace`, under its permit. -/
def replacing (qualifies : Bool) (target : Release) : Program C O X (Standing O) := do
  let opened ← make (.opens target)
  match opened with
  | .fenced =>
    .fail (.handover (.error (utf16 "Handover requires fenced recovery after failed rollback.")))
  | .same current => pure current
  | .exhausted => .fail (.handover (.error (utf16 "Runtime generation exhausted.")))
  | .opened previous generation => do
    let candidate ← make (.host (.prepare target))
    let r : Replacement C O := ⟨target, previous, generation, candidate⟩
    ensuring (r.handing qualifies) r.discarding

/-- Source: `replace`. -/
def replace (qualifies : Bool) (target : Release) : Program C O X (Standing O) := do
  make .acquire
  ensuring (replacing qualifies target) (make .release)

/-- Any number of replacements are asked for, while requests come to the gate. -/
def handover (C O X : Type) (qualifies : Bool) :
    Process (Controller C O X) Release (Call C O X) Answer (Cause X) (Standing O) (Reply C O X)
      Admission.Step Empty where
  program := replace qualifies
  exec := exec
  passes step s := (s.admission.after step).map fun admission => { s with admission }
  crashes _ _ := none

end Zelavis.Runtime
