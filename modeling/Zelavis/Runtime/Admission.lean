import Mathlib.Data.Nat.Notation

/-!
# The admission of requests

`admission.ts`: requests enter while admission is open and wait while it is paused. What is paused can be
drained, and closed for good.
-/

namespace Zelavis.Runtime

/-- The gate. Those that wait for it to reopen and have been told so are counted apart until they look
again. Source: `createRuntimeAdmission`. -/
structure Admission where
  queueLimit : ℕ
  paused : Bool := false
  closed : Bool := false
  active : ℕ := 0
  waiting : ℕ := 0
  woken : ℕ := 0
  deriving DecidableEq

namespace Admission

variable (gate : Admission)

/-- Source: `pause`. -/
def pause : Admission := if gate.closed then gate else { gate with paused := true }

/-- Source: `resume`. -/
def resume : Admission :=
  if gate.closed || !gate.paused then gate else { gate with paused := false, woken := gate.waiting }

/-- Source: `close`. -/
def close : Admission := { gate with closed := true, woken := gate.waiting }

/-- A request enters, waits, or is refused. Source: `enter`. -/
def enter : Admission :=
  if gate.closed then gate
  else if gate.paused then
    if gate.queueLimit ≤ gate.waiting then gate else { gate with waiting := gate.waiting + 1 }
  else { gate with active := gate.active + 1 }

/-- One that waits looks again. Source: `enter`, after its `await`. -/
def wake : Option Admission :=
  if 0 < gate.woken then
    some (enter { gate with waiting := gate.waiting - 1, woken := gate.woken - 1 })
  else none

/-- One that waits leaves. Source: `enter`, its `ensuring`. -/
def giveUp (told : Bool) : Option Admission :=
  if told then
    if 0 < gate.woken then
      some { gate with waiting := gate.waiting - 1, woken := gate.woken - 1 }
    else none
  else if gate.woken < gate.waiting then some { gate with waiting := gate.waiting - 1 } else none

/-- One that was let in is over. Source: `enter`, what it returns. -/
def leave : Option Admission :=
  if 0 < gate.active then some { gate with active := gate.active - 1 } else none

/-- Nobody is in. Source: `drain`, its `drained`. -/
def drained : Bool := gate.active = 0

/-- What others do at the gate: nobody but a handover resumes it. -/
inductive Step where
  | enters
  | wakes
  | givesUp (told : Bool)
  | leaves
  | pauses
  | closes

def after : Step → Option Admission
  | .enters => some gate.enter
  | .wakes => gate.wake
  | .givesUp told => gate.giveUp told
  | .leaves => gate.leave
  | .pauses => some gate.pause
  | .closes => some gate.close

variable {gate}

lemma paused_pause (h : gate.paused = true) : gate.pause.paused = true := by
  unfold pause
  split
  · exact h
  · rfl

lemma paused_enter : gate.enter.paused = gate.paused := by
  unfold enter
  split
  · rfl
  · split
    · split
      · rfl
      · rfl
    · rfl

lemma paused_after {step : Step} {gate' : Admission} (h : gate.after step = some gate')
    (hpaused : gate.paused = true) : gate'.paused = true := by
  cases step with
  | enters =>
    cases h
    rw [paused_enter, hpaused]
  | wakes =>
    simp only [after, wake] at h
    split at h
    · cases h
      rw [paused_enter]
      exact hpaused
    · cases h
  | givesUp told =>
    simp only [after, giveUp] at h
    split at h
    · split at h
      · cases h
        exact hpaused
      · cases h
    · split at h
      · cases h
        exact hpaused
      · cases h
  | leaves =>
    simp only [after, leave] at h
    split at h
    · cases h
      exact hpaused
    · cases h
  | pauses =>
    cases h
    exact paused_pause hpaused
  | closes =>
    cases h
    exact hpaused

end Admission

end Zelavis.Runtime
