import Zelavis.Edge.SystemStore
import Zelavis.Lib.Tasks
import Zelavis.Lib.Unicode

/-!
# Switching from one reverse proxy to another

`edge/index.ts` `createZelavisEdgeManager`: requests to switch, each of which reads the policy, takes the
switch record, drives the adapters through its phases and writes the policy, and the reconciliation of a
switch that was left. Any number of controllers do so, one call of the store or of an adapter at a time,
and every call may fail, before or after it has taken effect. Identifiers and publications are as
validation leaves them, and what is stored is what was written.
-/

namespace Zelavis.Edge.Switches

open Lib Turns Tasks

/-! ## What is stored -/

/-- Source: `ZelavisEdgePolicy`, its `activePublication`. -/
structure PublicationRef where
  id : Utf16
  revision : Utf16
  deriving DecidableEq

/-- Source: `ZelavisEdgePublication`. -/
structure EdgePublication where
  ref : PublicationRef
  routeCount : ℕ := 0
  requiredCapabilities : List Utf16 := []
  certificateRefs : List Utf16 := []
  deriving DecidableEq

/-- Source: `ZelavisEdgePolicy`. -/
structure Policy where
  revision : ℕ
  desiredAdapterId : Utf16
  activeAdapterId : Option Utf16 := none
  activePublication : Option PublicationRef := none
  updatedAt : ℕ
  deriving DecidableEq

/-- Source: `ZelavisEdgeSwitchPhase`. -/
inductive SwitchPhase where
  | preflight
  | stageCertificates
  | stageRouting
  | verify
  | activateCertificates
  | activateRouting
  | drain
  | commit
  | rollback
  | complete
  | failed
  deriving DecidableEq

def SwitchPhase.text : SwitchPhase → Utf16
  | .preflight => utf16 "preflight"
  | .stageCertificates => utf16 "stage-certificates"
  | .stageRouting => utf16 "stage-routing"
  | .verify => utf16 "verify"
  | .activateCertificates => utf16 "activate-certificates"
  | .activateRouting => utf16 "activate-routing"
  | .drain => utf16 "drain"
  | .commit => utf16 "commit"
  | .rollback => utf16 "rollback"
  | .complete => utf16 "complete"
  | .failed => utf16 "failed"

/-- Source: `ZelavisEdgeSwitchRecord`. -/
structure SwitchRecord where
  id : Utf16
  targetAdapterId : Utf16
  previousAdapterId : Option Utf16
  publication : EdgePublication
  phase : SwitchPhase
  startedAt : ℕ
  updatedAt : ℕ
  error : Option Utf16 := none
  fenceToken : Option ℕ := none
  leaseOwner : Option Utf16 := none
  leaseExpiresAt : Option ℕ := none
  deriving DecidableEq

def SwitchRecord.settled (record : SwitchRecord) : Bool :=
  record.phase = .complete || record.phase = .failed

def SwitchRecord.leaseActive (record : SwitchRecord) (now : ℕ) : Bool :=
  record.leaseExpiresAt.any (now < ·)

/-- What an adapter is given of a switch. Source: `ZelavisEdgeAdapterContext`. -/
structure AdapterContext where
  switchId : Utf16
  publication : EdgePublication
  previousAdapterId : Option Utf16
  deriving DecidableEq

/-- Source: `runSwitch`, its `context`. -/
def SwitchRecord.context (record : SwitchRecord) : AdapterContext :=
  ⟨record.id, record.publication, record.previousAdapterId⟩

/-! ## Calls -/

/-- What an adapter or the distributor of certificates is asked to do. -/
inductive AdapterOperation where
  | stage (adapterId : Utf16)
  | activate (adapterId : Utf16)
  | drain (adapterId : Utf16)
  | rollback (adapterId : Utf16)
  | stageCertificates
  | activateCertificates
  | rollbackCertificates
  deriving DecidableEq

/-- What an adapter finds of itself. Source: `ZelavisEdgeAdapterDetection`. -/
structure Detection where
  usable : Bool := true
  detail : Option Utf16 := none

/-- Source: `ZelavisEdgeAdapterVerification`. -/
structure Verification where
  ready : Bool := true
  detail : Option Utf16 := none

/-- What a controller calls. -/
inductive EdgeCall where
  /-- `now`. -/
  | clock
  /-- `createSwitchId`. -/
  | switchId
  | localSwitch (process : ℕ)
  | setLocalSwitch (process : ℕ) (running : Bool)
  | policyRecord
  | compareAndSetPolicy (observed : Versioned Policy) (next : Policy)
  | getSwitch
  | createSwitch (observed : Option (Versioned SwitchRecord)) (operation : SwitchRecord)
  | compareAndSetSwitch (observed : Versioned SwitchRecord) (next : SwitchRecord)
  | setHistory (record : SwitchRecord)
  | detect (adapterId : Utf16)
  | verify (adapterId : Utf16) (context : AdapterContext)
  | getPublication
  | adapter (operation : AdapterOperation) (context : AdapterContext)
  deriving DecidableEq

/-- What a call is answered. -/
abbrev Answer : EdgeCall → Type
  | .clock => ℕ
  | .switchId => Utf16
  | .localSwitch _ => Bool
  | .setLocalSwitch _ _ => Unit
  | .policyRecord => Versioned Policy
  | .compareAndSetPolicy _ _ => Option (Versioned Policy)
  | .getSwitch => Option (Versioned SwitchRecord)
  | .createSwitch _ _ => Option (Versioned SwitchRecord)
  | .compareAndSetSwitch _ _ => Option (Versioned SwitchRecord)
  | .setHistory _ => Unit
  | .detect _ => Detection
  | .verify _ _ => Verification
  | .getPublication => Option PublicationRef
  | .adapter _ _ => Unit

/-- What is thrown: a conflict, or anything else with its message. -/
inductive Fault where
  | conflict
  | failed (message : Utf16)

/-- What a controller does. -/
abbrev Program (α : Type) := Task EdgeCall Answer Fault α

/-- One call. -/
abbrev make (c : EdgeCall) : Program (Answer c) := Task.perform c

/-- What is stored, the clock, the processes with a switch running, and the state of the adapters. -/
structure Shared (X : Type) where
  now : ℕ
  policy : Option (Versioned Policy) := none
  switch : Option (Versioned SwitchRecord) := none
  running : ℕ → Bool := fun _ => false
  edge : X

/-- How a call goes, and what it is answered from outside. -/
structure Event where
  reply : Reply := .done
  message : Utf16 := []
  switchId : Utf16 := []
  detection : Detection := {}
  verification : Verification := {}
  publication : Option PublicationRef := none

def Event.answer {α : Type} (e : Event) (a : α) : Except Fault α :=
  if e.reply = .done then .ok a else .error (.failed e.message)

/-- An adapter that is registered. -/
structure Registered where
  capabilities : List Utf16 := []
  /-- It has a `drain`. -/
  drains : Bool := true
  /-- It has a `rollback`. -/
  rollsBack : Bool := true

/-- What a manager is made with, and what its adapters do. Source: `CreateZelavisEdgeManagerOptions`. -/
structure Options (X : Type) where
  defaultAdapterId : Utf16
  adapters : Utf16 → Option Registered
  /-- The distributor of certificates has a `rollback`. -/
  certificatesRollBack : Bool
  /-- There is a `getPublication`. -/
  watches : Bool
  act : AdapterOperation → AdapterContext → X → X

/-- A controller. -/
structure Controller where
  process : ℕ
  controllerId : Utf16
  leaseDurationMs : ℕ := 30000
  deriving DecidableEq

section Exec

variable {X : Type} (options : Options X)

/-- The policy a store begins with. Source: `initialPolicy`. -/
def initialPolicy (now : ℕ) : Policy := ⟨0, options.defaultAdapterId, none, none, now⟩

def Event.stored {α : Type} (e : Event) (written stored : Option α) : Option α :=
  if e.reply.happens then written.or stored else stored

def exec (e : Event) (s : Shared X) : (c : EdgeCall) → Option (Shared X × Except Fault (Answer c))
  | .clock => some (s, .ok s.now)
  | .switchId => some (s, .ok e.switchId)
  | .localSwitch process => some (s, .ok (s.running process))
  | .setLocalSwitch process running =>
    some ({ s with running := fun p => if p = process then running else s.running p }, .ok ())
  | .policyRecord =>
    let record := s.policy.getD ⟨initialPolicy options s.now, s.now⟩
    some ({ s with policy := e.stored (some record) s.policy }, e.answer record)
  | .compareAndSetPolicy observed next =>
    let written := compareAndSet s.now s.policy observed next
    some ({ s with policy := e.stored written s.policy }, e.answer written)
  | .getSwitch => some (s, e.answer s.switch)
  | .createSwitch observed operation =>
    let written := putAt s.now s.switch observed operation
    some ({ s with switch := e.stored written s.switch }, e.answer written)
  | .compareAndSetSwitch observed next =>
    let written := compareAndSet s.now s.switch observed next
    some ({ s with switch := e.stored written s.switch }, e.answer written)
  | .setHistory _ => some (s, e.answer ())
  | .detect _ => some (s, e.answer e.detection)
  | .verify _ _ => some (s, e.answer e.verification)
  | .getPublication => some (s, e.answer e.publication)
  | .adapter operation context =>
    some ({ s with edge := if e.reply.happens then options.act operation context s.edge else s.edge },
      e.answer ())

end Exec

/-! ## The phases of a switch -/

section Programs

variable {X : Type} (options : Options X) (controller : Controller)

def quoted (text : Utf16) : Utf16 := utf16 "\"" ++ text ++ utf16 "\""

def persistSwitch (record : Versioned SwitchRecord) (phase : SwitchPhase) (error : Utf16) :
    Program (Versioned SwitchRecord) := do
  let now ← make .clock
  let next : SwitchRecord :=
    { record.value with
      phase
      updatedAt := now
      fenceToken := some (record.value.fenceToken.getD 0 + 1)
      leaseOwner := some controller.controllerId
      leaseExpiresAt := some (now + controller.leaseDurationMs)
      error := if error = [] then record.value.error else some error }
  let written ← make (.compareAndSetSwitch record next)
  match written with
  | none => .fail .conflict
  | some stored => do
    make (.setHistory next)
    pure stored

/-- The policy names an adapter and a publication, in as many attempts. Source: `writePolicy`. -/
def writePolicy (targetAdapterId : Utf16) (publication : EdgePublication) : ℕ → Program Unit
  | 0 => .fail .conflict
  | attempts + 1 => do
    let current ← make .policyRecord
    let now ← make .clock
    let next : Policy :=
      ⟨current.value.revision + 1, targetAdapterId, some targetAdapterId, some publication.ref, now⟩
    let written ← make (.compareAndSetPolicy current next)
    match written with
    | none => writePolicy targetAdapterId publication attempts
    | some _ => pure ()

def optionally (has : Bool) (operation : AdapterOperation) (context : AdapterContext) : Program Unit :=
  if has then make (.adapter operation context) else pure ()

def rollbackTarget (record : SwitchRecord) : Program Unit :=
  optionally ((options.adapters record.targetAdapterId).any (·.rollsBack))
    (.rollback record.targetAdapterId) record.context

def rollbackCertificates (record : SwitchRecord) : Program Unit :=
  optionally options.certificatesRollBack .rollbackCertificates record.context

def previousOf (record : SwitchRecord) : Option Utf16 :=
  record.previousAdapterId.filter fun id => (options.adapters id).isSome

def drainPrevious (record : SwitchRecord) : Program Unit :=
  match previousOf options record with
  | none => pure ()
  | some previous =>
    optionally (previous ≠ record.targetAdapterId && (options.adapters previous).any (·.drains))
      (.drain previous) record.context

/-- Source: `runSwitch`, its phase `preflight`. -/
def preflight (record : SwitchRecord) (target : Registered) : Program Unit := do
  let _ ← make .policyRecord
  let detection ← make (.detect record.targetAdapterId)
  let missing := record.publication.requiredCapabilities.filter (· ∉ target.capabilities)
  if detection.usable ∧ missing = [] then pure ()
  else
    let missingText := if missing = [] then none else
      some (utf16 "missing capabilities: " ++ List.intercalate (utf16 ", ") missing)
    let reasons := [detection.detail, missingText].reduceOption.filter (· ≠ [])
    let text := List.intercalate (utf16 "; ") reasons
    .fail (.failed (utf16 "Edge adapter " ++ quoted record.targetAdapterId ++ utf16 " is not ready" ++
      (if text = [] then [] else utf16 " (" ++ text ++ utf16 ")") ++ utf16 "."))

/-- Source: `runSwitch`, its phase `verify`. -/
def verifyStaged (record : SwitchRecord) : Program Unit := do
  let verification ← make (.verify record.targetAdapterId record.context)
  if verification.ready then pure ()
  else
    .fail (.failed (utf16 "Edge adapter " ++ quoted record.targetAdapterId ++
      utf16 " failed staged verification" ++
        (verification.detail.filter (· ≠ [])).elim (utf16 ".") (utf16 ": " ++ ·)))

/-- Source: `runSwitch`, its phase `activate-routing`. -/
def activateRouting (record : SwitchRecord) : Program Unit := do
  if options.watches then
    let current ← make .getPublication
    match current.filter (· ≠ record.publication.ref) with
    | none => make (.adapter (.activate record.targetAdapterId) record.context)
    | some newer =>
      .fail (.failed (utf16 "Edge switch " ++ quoted record.id ++ utf16 " publication revision " ++
        quoted record.publication.ref.revision ++ utf16 " was superseded by " ++
          quoted newer.revision ++ utf16 "."))
  else make (.adapter (.activate record.targetAdapterId) record.context)

/-- What a phase does, and the phase after it. Source: `runSwitch`, the body of its loop. -/
def runPhase (stored : Versioned SwitchRecord) (target : Registered) :
    Program (Versioned SwitchRecord) :=
  let record := stored.value
  let advance := fun phase => persistSwitch controller stored phase []
  match record.phase with
  | .preflight => do
    preflight record target
    advance .stageCertificates
  | .stageCertificates => do
    make (.adapter .stageCertificates record.context)
    advance .stageRouting
  | .stageRouting => do
    make (.adapter (.stage record.targetAdapterId) record.context)
    advance .verify
  | .verify => do
    verifyStaged record
    advance .activateCertificates
  | .activateCertificates => do
    make (.adapter .activateCertificates record.context)
    advance .activateRouting
  | .activateRouting => do
    activateRouting options record
    advance .drain
  | .drain => do
    drainPrevious options record
    advance .commit
  | .commit => do
    writePolicy record.targetAdapterId record.publication 8
    advance .complete
  | .rollback => .fail .conflict
  | .failed => .fail .conflict
  | .complete => pure stored

/-- A phase has failed: the switch is marked as turning back, the target and the certificates are rolled
back, and it is marked as failed, whether or not that went well. Source: `runSwitch`, its
`catch`. -/
def turnBack (stored : Versioned SwitchRecord) : Fault → Program (Versioned SwitchRecord)
  | .conflict => .fail .conflict
  | .failed cause => do
    let aggregate := utf16 "Edge switch failed during " ++ stored.value.phase.text ++
      utf16 ", then rollback failed."
    let (stored, message) ← Task.tryCatch
      (do
        let rollingBack ← persistSwitch controller stored .rollback cause
        Task.tryCatch
          (do
            rollbackTarget options rollingBack.value
            rollbackCertificates options rollingBack.value
            pure (rollingBack, cause))
          fun _ => pure (rollingBack, aggregate))
      fun _ => pure (stored, aggregate)
    let _ ← persistSwitch controller stored .failed message
    .fail (.failed message)

/-- The loop over the phases. Source: `runSwitch`, its `while`. -/
def runPhases (target : Registered) : ℕ → Versioned SwitchRecord → Program (Versioned SwitchRecord)
  | 0, _ => .fail (.failed [])
  | fuel + 1, stored =>
    if stored.value.phase = .complete then pure stored
    else do
      let next ← Task.tryCatch (runPhase options controller stored target)
        (turnBack options controller stored)
      runPhases target fuel next

def runSwitch (stored : Versioned SwitchRecord) : Program (Versioned SwitchRecord) :=
  match options.adapters stored.value.targetAdapterId with
  | none =>
    .fail (.failed (utf16 "Unknown Edge adapter " ++ quoted stored.value.targetAdapterId ++
      utf16 "."))
  | some target => runPhases options controller target 9 stored

/-- A switch runs in the process until it is over. Source: `switchAdapter`, its
`localSwitch`. -/
def runLocally (stored : Versioned SwitchRecord) : Program (Versioned SwitchRecord) := do
  make (.setLocalSwitch controller.process true)
  let record ← Task.tryCatch (runSwitch options controller stored) fun fault => do
    make (.setLocalSwitch controller.process false)
    .fail fault
  make (.setLocalSwitch controller.process false)
  pure record

/-! ## Recovery -/

def claim (record : SwitchRecord) (now : ℕ) : SwitchRecord :=
  { record with
    fenceToken := some (record.fenceToken.getD 0 + 1)
    leaseOwner := some controller.controllerId
    leaseExpiresAt := some (now + controller.leaseDurationMs)
    updatedAt := now }

def leasedToOther (record : SwitchRecord) (now : ℕ) : Bool :=
  record.leaseActive now &&
    (record.leaseOwner.filter (· ≠ [])).any (· ≠ controller.controllerId)

/-- What recovery comes to. Source: `ZelavisEdgeReconciliationResult`. -/
inductive Recovery where
  | idle
  | recoveredForward
  | rolledBack
  deriving DecidableEq

/-- A switch that was left before its traffic, or while it was turning back. -/
def recoverBack (stored : Versioned SwitchRecord) (message : Utf16) : Program Recovery := do
  rollbackTarget options stored.value
  rollbackCertificates options stored.value
  let _ ← persistSwitch controller stored .failed message
  pure .rolledBack

def isHealthy (record : SwitchRecord) : Program Bool :=
  if (options.adapters record.targetAdapterId).isSome then
    Task.tryCatch
      (do
        let verification ← make (.verify record.targetAdapterId record.context)
        pure verification.ready)
      fun _ => pure false
  else pure false

/-- The previous adapter of a switch is activated again, where it is registered. -/
def reactivatePrevious (record : SwitchRecord) : Program Unit :=
  match previousOf options record with
  | none => pure ()
  | some previous => make (.adapter (.activate previous) record.context)

/-- A switch that was left with its traffic: forward where the target verifies, back where it does not. -/
def recoverTraffic (stored : Versioned SwitchRecord) : Program Recovery := do
  let record := stored.value
  let healthy ← isHealthy options record
  if healthy then do
    drainPrevious options record
    writePolicy record.targetAdapterId record.publication 8
    let _ ← persistSwitch controller stored .complete []
    pure .recoveredForward
  else do
    rollbackTarget options record
    rollbackCertificates options record
    reactivatePrevious options record
    let _ ← persistSwitch controller stored .failed
      (utf16 "Interrupted cutover failed target verification during recovery; rolled back")
    pure .rolledBack

/-- Source: `reconcile`, its three cases. -/
def recover (stored : Versioned SwitchRecord) : Program Recovery :=
  match stored.value.phase with
  | .preflight | .stageCertificates | .stageRouting | .verify | .activateCertificates =>
    recoverBack options controller stored
      (utf16 "Interrupted by controller restart before traffic activation")
  | .activateRouting | .drain | .commit => recoverTraffic options controller stored
  | .rollback =>
    recoverBack options controller stored (utf16 "Incomplete rollback finalized during recovery")
  | .complete | .failed => pure .idle

/-- Source: `reconcile`. -/
def reconcile : Program Recovery := do
  let running ← make (.localSwitch controller.process)
  if running then pure .idle
  else
    let record ← make .getSwitch
    match record.filter fun r => !r.value.settled with
    | none => pure .idle
    | some record => do
      let now ← make .clock
      if leasedToOther controller record.value now then pure .idle
      else
        let claimed ← make (.compareAndSetSwitch record (claim controller record.value now))
        match claimed with
        | none => pure .idle
        | some stored => recover options controller stored

/-! ## Requests -/

/-- A new switch: its record is made with the policy that was read, and taken where nobody else has taken
it. Source: `switchAdapter`, from `startedAt` on. -/
def startSwitch (policy : Policy) (targetAdapterId : Utf16) (publication : EdgePublication) :
    Program (Versioned SwitchRecord) := do
  let now ← make .clock
  let id ← make .switchId
  let operation : SwitchRecord :=
    { id
      targetAdapterId
      previousAdapterId := policy.activeAdapterId
      publication
      phase := .preflight
      startedAt := now
      updatedAt := now
      fenceToken := some 1
      leaseOwner := some controller.controllerId
      leaseExpiresAt := some (now + controller.leaseDurationMs) }
  let latest ← make .getSwitch
  let claimed ← make (.createSwitch latest operation)
  match claimed with
  | none => .fail .conflict
  | some stored => do
    make (.setHistory operation)
    runLocally options controller stored

/-- A request that finds a switch that is not over. Source: `switchAdapter`, its inner
branches. -/
def meetSwitch (policy : Policy) (existing : Versioned SwitchRecord) (targetAdapterId : Utf16)
    (publication : EdgePublication) : Program (Versioned SwitchRecord) := do
  let now ← make .clock
  let record := existing.value
  if leasedToOther controller record now then .fail .conflict
  else if record.targetAdapterId ≠ targetAdapterId ∨ record.publication.ref ≠ publication.ref then
    if record.leaseActive now then .fail .conflict
    else do
      -- the switch is stale and for another target: it is reconciled first
      let _ ← reconcile options controller
      let refreshed ← make .getSwitch
      if refreshed.any fun r => !r.value.settled then .fail .conflict
      else startSwitch options controller policy targetAdapterId publication
  else do
    let claimed ← make (.compareAndSetSwitch existing (claim controller record now))
    match claimed with
    | none => .fail .conflict
    | some stored => runLocally options controller stored

/-- What follows the reading of the policy. Source: `switchAdapter`. -/
def afterPolicy (policy : Policy) (targetAdapterId : Utf16) (publication : EdgePublication) :
    Program (Versioned SwitchRecord) := do
  let current ← make .getSwitch
  match current.filter fun r => !r.value.settled with
  | none => startSwitch options controller policy targetAdapterId publication
  | some existing => meetSwitch options controller policy existing targetAdapterId publication

/-- The reading of the policy, and what follows it. Source: `switchAdapter`. -/
def fromPolicy (targetAdapterId : Utf16) (publication : EdgePublication) :
    Program (Versioned SwitchRecord) := do
  let policy ← make .policyRecord
  afterPolicy options controller policy.value targetAdapterId publication

/-- Source: `switchAdapter`. -/
def switchAdapter (targetAdapterId : Utf16) (publication : EdgePublication) :
    Program (Versioned SwitchRecord) := do
  let running ← make (.localSwitch controller.process)
  if running then .fail .conflict else fromPolicy options controller targetAdapterId publication

end Programs

/-! ## Runs -/

/-- What a controller is asked for. -/
inductive Request where
  | switchAdapter (controller : Controller) (targetAdapterId : Utf16) (publication : EdgePublication)
  | reconcile (controller : Controller)

/-- What a request comes to. -/
inductive Outcome where
  | switched (record : SwitchRecord)
  | reconciled (recovery : Recovery)

variable {X : Type} (options : Options X)

def program : Request → Program Outcome
  | .switchAdapter controller targetAdapterId publication => do
    let stored ← switchAdapter options controller targetAdapterId publication
    pure (.switched stored.value)
  | .reconcile controller => do
    let recovery ← reconcile options controller
    pure (.reconciled recovery)

/-- Any number of requests are made, each is served one call at a time, and the clock goes on. A request
whose controller stops makes no further call. -/
def manager : Rules (Shared X) (Job Request EdgeCall Answer Fault Outcome) Event ℕ :=
  ofTasks (program options) (exec options) fun later s =>
    if s.now ≤ later then some { s with now := later } else none

end Zelavis.Edge.Switches
