import Zelavis.Platform.ProjectPlacementAuthority

/-!
# The placements an agent has accepted

`remote-placement.ts`: the platform signs the placement of a project for one agent, and the agent keeps
the newest it has accepted as one record of its system store.
-/

namespace Zelavis.Agent.RemotePlacement

open Lib Lib.Turns Edge Checks Platform

/-! ## Grants -/

/-- What an agent is. Source: `createRemotePlacementLeaseStore`, its
`options`. -/
structure Options where
  agentId : Utf16
  nodeId : Utf16

/-- A placement the platform signed. Source: `RemotePlacementGrant`. -/
structure Grant where
  keyId : Utf16
  agentId : Utf16
  placement : Placement
  issuedAt : ℚ
  expiresAt : ℚ

/-- The placement of a grant that is in order at a moment. Source: `verifyRemotePlacementGrant`, where `signed` says that the token is well spelled and its signature
good. -/
def verifyGrant (o : Options) (now : ℚ) (signed : Bool) (g : Grant) : Option Placement :=
  let p := g.placement
  if validId o.agentId && validId o.nodeId && isSafeInteger now &&
      validId g.keyId && g.agentId == o.agentId && validId p.projectId && p.nodeId == o.nodeId &&
      validId p.ownerSession && isSafeInteger p.epoch && 1 ≤ p.epoch &&
      isSafeInteger p.revision && 1 ≤ p.revision && isSafeInteger p.leaseExpiresAt &&
      p.state == .active && isSafeInteger g.issuedAt && isSafeInteger g.expiresAt &&
      g.issuedAt ≤ now + 5000 && now < g.expiresAt && g.issuedAt < g.expiresAt &&
      g.expiresAt - g.issuedAt ≤ 30000 && now < p.leaseExpiresAt &&
      (p.leaseExpiresAt : ℚ) - g.issuedAt ≤ maxLeaseMs && signed then some p
  else none

/-- What is stored is a placement of this project. Source: `createRemotePlacementLeaseStore`, its `read`. -/
def wellFormed (p : Placement) (projectId : Utf16) : Bool :=
  p.projectId == projectId && validId p.nodeId && validId p.ownerSession && isSafeInteger p.epoch &&
    isSafeInteger p.revision && isSafeInteger p.leaseExpiresAt

/-! ## A placement over another -/

/-- What is wrong with a call. -/
inductive Fault where
  | invalid
  | malformed
  | stale
  | conflict
  | reused
  | unfenced
  | contended
  deriving DecidableEq

/-- What a placement comes to over the one that is stored. -/
inductive Verdict where
  | refuse (fault : Fault)
  | same (previous : Placement)
  | fence (previous : Placement)
  | write
  deriving DecidableEq

/-- Source: `accept`, from where the stored placement is read. -/
def judge (next : Placement) : Option Placement → Verdict
  | none => .write
  | some previous =>
    if next.epoch < previous.epoch ∨
        (next.epoch = previous.epoch ∧ next.revision < previous.revision) then .refuse .stale
    else if next.epoch = previous.epoch then
      if next.ownerSession ≠ previous.ownerSession ∨ next.nodeId ≠ previous.nodeId ∨
          next.leaseExpiresAt < previous.leaseExpiresAt ∨ previous.state ≠ .active then
        .refuse .conflict
      else if next.revision = previous.revision then
        if next.leaseExpiresAt ≠ previous.leaseExpiresAt then .refuse .reused else .same previous
      else .write
    else if previous.state = .active then .fence previous
    else .write

/-! ## Calls taking turns -/

/-- What a call answers. -/
inductive Answer where
  /-- Source: `accept`. -/
  | accepted (placement : Placement)
  /-- Source: `release`. -/
  | released (done : Bool)
  | failed (fault : Fault)
  deriving DecidableEq

/-- Where a call is. -/
inductive Phase where
  | accepting (grant : Grant)
  | attempt (next : Placement) (attempts : ℕ)
  | observed (next : Placement) (attempts : ℕ) (observed : Option Stored)
  | fencing (next : Placement) (attempts : ℕ) (observed : Option Stored) (previous : Placement)
  | writing (next : Placement) (attempts : ℕ) (observed : Option Stored)
  | releasing (token : Token)
  | held (token : Token) (observed : Option Stored)
  | freeing (observed : Stored) (current : Placement)
  | answered (answer : Answer)

/-- What a move finds outside. -/
structure Event where
  now : ℚ
  /-- Whether the signature is good, or what `fencePrevious` says. -/
  answer : Bool
  written : ℕ

/-- The placement of a project, none where what is stored is not one. Source: `createRemotePlacementLeaseStore`, its `read`. -/
def readLease (slot : Option Stored) (projectId : Utf16) : Option (Option Placement) :=
  if validId projectId then
    match slot with
    | none => some none
    | some r => if wellFormed r.value projectId then some (some r.value) else none
  else some none

/-- Where a call goes once its grant is looked at. Source: `accept`. -/
def acceptBegun : Option Placement → Phase
  | none => .answered (.failed .invalid)
  | some next => .attempt next 0

/-- How often an acceptance is tried. Source: `accept`. -/
def maxAttempts : ℕ := 8

/-- Where an attempt goes once the stored placement is known. Source: `accept`. -/
def acceptFrom (next : Placement) (attempts : ℕ) (observed : Option Stored)
    (previous : Option Placement) : Phase :=
  match judge next previous with
  | .refuse fault => .answered (.failed fault)
  | .same previous => .answered (.accepted previous)
  | .fence previous => .fencing next attempts observed previous
  | .write => .writing next attempts observed

/-- The record is that of the token. Source: `release`. -/
def isHeld (current : Placement) (token : Token) : Bool :=
  current.nodeId == token.nodeId && current.ownerSession == token.ownerSession &&
    (current.epoch : ℚ) == token.epoch

/-- Where a release goes once the stored placement is known. Source: `release`. -/
def releaseLease (token : Token) (observed : Option Stored) (current : Option Placement) : Phase :=
  match observed, current with
  | some observed, some current =>
    if isHeld current token = false then .answered (.released false)
    else if current.state = .released then .answered (.released true)
    else .freeing observed current
  | _, _ => .answered (.released false)

/-- A call's next move. Source: `createRemotePlacementLeaseStore`, each call up
to the next thing it waits for. -/
def advance (o : Options) (e : Event) (slot : Option Stored) : Phase → Option (Option Stored × Phase)
  | .accepting grant => some (slot, acceptBegun (verifyGrant o e.now e.answer grant))
  | .attempt next attempts =>
    if attempts < maxAttempts then some (slot, .observed next attempts slot)
    else some (slot, .answered (.failed .contended))
  | .observed next attempts observed =>
    match readLease slot next.projectId with
    | none => some (slot, .answered (.failed .malformed))
    | some previous => some (slot, acceptFrom next attempts observed previous)
  | .fencing next attempts observed _ =>
    if e.answer then some (slot, .writing next attempts observed)
    else some (slot, .answered (.failed .unfenced))
  | .writing next attempts observed =>
    match putAt e.written slot observed next with
    | some record => some (some record, .answered (.accepted next))
    | none => some (slot, .attempt next (attempts + 1))
  | .releasing token => some (slot, .held token slot)
  | .held token observed =>
    match readLease slot token.projectId with
    | none => some (slot, .answered (.failed .malformed))
    | some current => some (slot, releaseLease token observed current)
  | .freeing observed current =>
    match compareAndSet e.written slot observed { current with state := .released } with
    | some record => some (some record, .answered (.released true))
    | none => some (slot, .answered (.released false))
  | .answered _ => none

/-- The rules under which calls take turns: a call begins by being made, and nothing else writes the
record. -/
def leaseStore (o : Options) : Rules (Option Stored) Phase Event Empty where
  begins
    | .accepting _ | .releasing _ => true
    | _ => false
  moves := advance o
  passes event _ := event.elim

end Zelavis.Agent.RemotePlacement
