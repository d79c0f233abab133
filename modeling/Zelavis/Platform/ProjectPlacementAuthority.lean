import Zelavis.Core.Checks
import Zelavis.Edge.SystemStore
import Zelavis.Lib.Turns

/-!
# The placement authority of a project

`project-placement-authority.ts`: who may run a project is one record of the system store. An owner
acquires it, renews it and releases it by reading the record, deciding, and writing where nobody else
has written since.
-/

namespace Zelavis.Platform

open Lib Lib.Turns Edge Checks

/-! ## The record -/

/-- Source: `ProjectPlacementRecord`, its `state`. -/
inductive Standing where
  | active
  | released
  deriving DecidableEq

/-- Who runs a project. Source: `ProjectPlacementRecord`. -/
structure Placement where
  projectId : Utf16
  nodeId : Utf16
  ownerSession : Utf16
  epoch : ℕ
  revision : ℕ
  leaseExpiresAt : ℤ
  state : Standing
  deriving DecidableEq

/-- What an owner holds of it. Source: `ProjectPlacementToken`. -/
structure Token where
  projectId : Utf16
  nodeId : Utf16
  ownerSession : Utf16
  epoch : ℚ
  deriving DecidableEq

/-- The longest lease. Source: `MAX_LEASE_MS`. -/
def maxLeaseMs : ℕ := 900000

/-- Source: `validEpoch`. -/
def validEpoch (value : ℚ) : Bool := isSafeInteger value && 0 ≤ value

/-- Source: `validLease`. -/
def validLease (value : ℚ) : Bool := isSafeInteger value && 0 < value && value ≤ maxLeaseMs

/-- What is stored is a record of this project. Source: `decode`. -/
def Placement.wellFormed (r : Placement) (projectId : Utf16) : Bool :=
  r.projectId == projectId && validId r.nodeId && validId r.ownerSession && validEpoch r.epoch &&
    r.epoch != 0 && validEpoch r.revision && r.revision != 0 && isSafeInteger r.leaseExpiresAt

/-- Source: `matches`. -/
def Placement.matchesToken (r : Placement) (t : Token) : Bool :=
  r.projectId == t.projectId && r.nodeId == t.nodeId && r.ownerSession == t.ownerSession &&
    (r.epoch : ℚ) == t.epoch

/-- The identifiers and the epoch of a token are such as a placement may have. -/
def Token.isValid (t : Token) : Bool :=
  validId t.projectId && validId t.nodeId && validId t.ownerSession && validEpoch t.epoch

lemma Placement.matchesToken_iff {r : Placement} {t : Token} : r.matchesToken t = true ↔
    r.projectId = t.projectId ∧ r.nodeId = t.nodeId ∧ r.ownerSession = t.ownerSession ∧
      (r.epoch : ℚ) = t.epoch := by
  unfold matchesToken
  simp only [Bool.and_eq_true, beq_iff_eq]
  tauto

/-- The record and the version it was read at. -/
abbrev Stored := Versioned Placement

/-! ## Calls -/

/-- Source: `acquire`, its `input`. -/
structure AcquireRequest where
  projectId : Utf16
  nodeId : Utf16
  ownerSession : Utf16
  expectedEpoch : ℚ
  leaseMs : ℚ

/-- A call of the authority. -/
inductive Call where
  /-- Source: `acquire`. -/
  | acquire (request : AcquireRequest)
  /-- Source: `renew`. -/
  | renew (token : Token) (leaseMs : ℚ)
  /-- Source: `release`. -/
  | release (token : Token)
  /-- Source: `validate`. -/
  | validate (token : Token)

/-- Source: `ProjectPlacementResult`, its `reason`. -/
inductive Reason where
  | invalidRequest
  | policyRefused
  | owned
  | fencingUnavailable
  | stale
  | expired
  | contended
  deriving DecidableEq

/-- What a call answers. -/
inductive Answer where
  | granted (placement : Placement)
  | refused (reason : Reason) (current : Option Placement)
  | valid (good : Bool)
  | malformed
  deriving DecidableEq

/-- Where a call is. -/
inductive Phase where
  | asked (call : Call)
  | permitted (call : Call)
  | observed (call : Call) (observed : Option Stored)
  | fencing (request : AcquireRequest) (previous : Stored) (instant : ℚ)
  | writing (call : Call) (observed : Option Stored) (placement : Placement)
  | contended (call : Call)
  | answered (call : Call) (answer : Answer)

def Call.projectId : Call → Utf16
  | .acquire request => request.projectId
  | .renew token _ => token.projectId
  | .release token => token.projectId
  | .validate token => token.projectId

def Call.isValid : Call → Bool
  | .acquire r =>
    validId r.projectId && validId r.nodeId && validId r.ownerSession &&
      validEpoch r.expectedEpoch && validLease r.leaseMs
  | .renew token leaseMs => token.isValid && validLease leaseMs
  | .release token => token.isValid
  | .validate token => token.isValid

def placementOf (observed : Option Stored) : Option Placement := observed.map Versioned.value

def epochOf (observed : Option Stored) : ℕ := observed.elim 0 fun r => r.value.epoch

def revisionOf (observed : Option Stored) : ℕ := observed.elim 0 fun r => r.value.revision

/-- The placement a request is given over what was read. Source: `acquire`, from where the previous owner is known to be stopped. -/
def placeOver (r : AcquireRequest) (observed : Option Stored) (instant : ℚ) : Phase :=
  if isSafeInteger instant = false ∨ isSafeInteger (instant + r.leaseMs) = false ∨
      (observed.isSome ∧ maxSafeInteger ≤ epochOf observed) then
    .answered (.acquire r) (.refused .invalidRequest (placementOf observed))
  else
    .writing (.acquire r) observed {
      projectId := r.projectId
      nodeId := r.nodeId
      ownerSession := r.ownerSession
      epoch := epochOf observed + 1
      revision := revisionOf observed + 1
      leaseExpiresAt := (instant + r.leaseMs).num
      state := .active }

/-- Source: `acquire`, from where the record is read. -/
def acquireFrom (r : AcquireRequest) (observed : Option Stored) (instant : ℚ) : Phase :=
  if (epochOf observed : ℚ) ≠ r.expectedEpoch then
    .answered (.acquire r) (.refused .stale (placementOf observed))
  else
    match observed with
    | none => placeOver r none instant
    | some previous =>
      if previous.value.state = .active then
        if instant < previous.value.leaseExpiresAt then
          .answered (.acquire r) (.refused .owned (some previous.value))
        else .fencing r previous instant
      else placeOver r (some previous) instant

/-- Source: `renew`, from where the record is read. -/
def renewFrom (token : Token) (leaseMs : ℚ) (observed : Option Stored) (instant : ℚ) : Phase :=
  match observed with
  | none => .answered (.renew token leaseMs) (.refused .stale none)
  | some previous =>
    if previous.value.matchesToken token = false ∨ previous.value.state ≠ .active then
      .answered (.renew token leaseMs) (.refused .stale (some previous.value))
    else if previous.value.leaseExpiresAt ≤ instant then
      .answered (.renew token leaseMs) (.refused .expired (some previous.value))
    else if isSafeInteger instant = false ∨ isSafeInteger (instant + leaseMs) = false then
      .answered (.renew token leaseMs) (.refused .invalidRequest (some previous.value))
    else
      .writing (.renew token leaseMs) (some previous) { previous.value with
        revision := previous.value.revision + 1
        leaseExpiresAt := max previous.value.leaseExpiresAt (instant + leaseMs).num }

/-- Source: `release`, from where the record is read. -/
def releaseFrom (token : Token) (observed : Option Stored) : Phase :=
  match observed with
  | none => .answered (.release token) (.refused .stale none)
  | some previous =>
    if previous.value.matchesToken token = false then
      .answered (.release token) (.refused .stale (some previous.value))
    else if previous.value.state = .released then
      .answered (.release token) (.granted previous.value)
    else
      .writing (.release token) (some previous) { previous.value with
        state := .released
        revision := previous.value.revision + 1 }

/-- Source: `validate`, from where the record is read. -/
def validateFrom (token : Token) (observed : Option Stored) (instant : ℚ) : Bool :=
  observed.any fun r =>
    r.value.state == .active && instant < r.value.leaseExpiresAt && r.value.matchesToken token

def decideFrom (call : Call) (observed : Option Stored) (instant : ℚ) : Phase :=
  match call with
  | .acquire request => acquireFrom request observed instant
  | .renew token leaseMs => renewFrom token leaseMs observed instant
  | .release token => releaseFrom token observed
  | .validate token => .answered (.validate token) (.valid (validateFrom token observed instant))

/-! ## Owners taking turns -/

/-- What the owners of a project share. -/
structure Shared where
  slot : Option Stored
  now : ℚ

/-- What a move finds outside. -/
structure Event where
  /-- What `mayPlace` or `fencePrevious` says. -/
  answer : Bool
  written : ℕ

/-- The record of a project, none where what is stored is not one. Source:
`read`. -/
def readPlacement (s : Shared) (projectId : Utf16) : Option (Option Stored) :=
  match s.slot with
  | none => some none
  | some r => if r.value.wellFormed projectId then some (some r) else none

/-- What a call begins with: its checks, and for an acquisition the policy. -/
def begun (answer : Bool) (call : Call) : Phase :=
  if call.isValid then
    match call with
    | .acquire _ => if answer then .permitted call else .answered call (.refused .policyRefused none)
    | .renew _ _ | .release _ | .validate _ => .permitted call
  else
    match call with
    | .acquire _ | .renew _ _ | .release _ => .answered call (.refused .invalidRequest none)
    | .validate _ => .answered call (.valid false)

/-- A call's next move. Source: `createProjectPlacementAuthority`,
each call up to the next thing it waits for. -/
def advance (e : Event) (s : Shared) : Phase → Option (Shared × Phase)
  | .asked call => some (s, begun e.answer call)
  | .permitted call =>
    match readPlacement s call.projectId with
    | none => some (s, .answered call .malformed)
    | some observed => some (s, .observed call observed)
  | .observed call observed => some (s, decideFrom call observed s.now)
  | .fencing request previous instant =>
    if e.answer then some (s, placeOver request (some previous) instant)
    else some (s, .answered (.acquire request) (.refused .fencingUnavailable (some previous.value)))
  | .writing call observed placement =>
    match putAt e.written s.slot observed placement with
    | some record => some ({ s with slot := some record }, .answered call (.granted placement))
    | none => some (s, .contended call)
  | .contended call =>
    match readPlacement s call.projectId with
    | none => some (s, .answered call .malformed)
    | some current => some (s, .answered call (.refused .contended (placementOf current)))
  | .answered _ _ => none

/-- The rules under which owners take turns: a call begins by being made, and the clock does not go
back. -/
def authority : Rules Shared Phase Event ℚ where
  begins
    | .asked _ => true
    | _ => false
  moves := advance
  passes now s := if s.now ≤ now then some { s with now } else none

def validates (s : Shared) (token : Token) : Bool :=
  token.isValid && ((readPlacement s token.projectId).any fun observed =>
    validateFrom token observed s.now)

end Zelavis.Platform
