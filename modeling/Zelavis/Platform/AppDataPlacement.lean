import Zelavis.Core.Checks
import Zelavis.Lib.Doubles
import Zelavis.Platform.SystemStore

/-!
# Reservations for the shards of an app

`app-data-placement.ts`: a project asks for room for a shard of its app, and the platform keeps what it
has reserved for a project in one record of the system store. A request reads what the project is
allocated, then the record, then the nodes, and writes the record where it is still the one it read.
-/

namespace Zelavis.Platform.AppDataPlacement

open Lib Turns Edge Checks Doubles SystemStore

/-! ## Data -/

/-- Source: `NAMESPACE`. -/
def NAMESPACE : Utf16 := utf16 "fabric.app-data-placement.v1"

/-- What a shard needs. Source: `AppShardPlacementRequest`, its `resources`. -/
structure Resources where
  cpuCores : ℕ
  memoryBytes : ℕ
  diskBytes : ℕ
  deriving DecidableEq

/-- Source: `AppShardPlacementRequest`. -/
structure Request where
  operationId : Utf16
  projectId : Utf16
  shardId : Utf16
  virtualRanges : List ℕ
  mapVersion : ℕ
  expectedRevision : ℕ
  resources : Resources
  deriving DecidableEq

/-- Source: `AppShardAllocation`. -/
structure Allocation where
  projectId : Utf16
  generation : ℕ
  allowedNodeIds : List Utf16
  cpuCores : ℚ
  memoryBytes : ℚ
  diskBytes : ℚ
  deriving DecidableEq

/-- Source: `AppShardPlacementNode`. -/
structure Node where
  id : Utf16
  ready : Bool
  cpuCores : ℚ
  memoryBytes : ℚ
  diskBytes : ℚ
  deriving DecidableEq

/-- Source: `AppShardPlacementReservation`. -/
structure Reservation where
  operationId : Utf16
  projectId : Utf16
  shardId : Utf16
  nodeId : Utf16
  allocationGeneration : ℕ
  mapVersion : ℕ
  virtualRanges : List ℕ
  resources : Resources
  revision : ℕ
  /-- The request it is for, as `fingerprint` spells it. -/
  requestFingerprint : Request
  deriving DecidableEq

/-- Source: `ReservationLedger`. -/
structure Ledger where
  revision : ℕ
  reservations : List Reservation
  usedOperationIds : List Utf16
  deriving DecidableEq

/-- Source: `AppShardPlacementRefusal`. -/
inductive Refusal where
  | invalidRequest
  | foreignProject
  | allocationUnavailable
  | allocationChanged
  | outOfEnvelope
  | noEligibleNode
  | rangeConflict
  | revisionConflict
  | operationConflict
  deriving DecidableEq

/-! ## Checks -/

/-- Source: `nonnegativeInteger`, of a natural number. -/
def nonnegativeInteger (n : ℕ) : Bool := n ≤ maxSafeInteger

/-- Source: `positiveInteger`, of a natural number. -/
def positiveInteger (n : ℕ) : Bool := nonnegativeInteger n && 0 < n

/-- Source: `validRequest`. -/
def Request.isValid (r : Request) : Bool :=
  validId r.operationId && validId r.projectId && validId r.shardId && positiveInteger r.mapVersion &&
    nonnegativeInteger r.expectedRevision && 0 < r.virtualRanges.length &&
    r.virtualRanges.length ≤ 4096 && r.virtualRanges.all nonnegativeInteger &&
    decide r.virtualRanges.Nodup && positiveInteger r.resources.cpuCores &&
    positiveInteger r.resources.memoryBytes && positiveInteger r.resources.diskBytes

/-- Source: `decode`. -/
def Reservation.isDecoded (e : Reservation) : Bool :=
  validId e.projectId && validId e.shardId && positiveInteger e.revision

/-- Source: `decodeLedger`; `false` where it throws. -/
def Ledger.isAccepted (l : Ledger) (projectId : Utf16) : Bool :=
  positiveInteger l.revision && l.usedOperationIds.all validId && decide l.usedOperationIds.Nodup &&
    l.reservations.all Reservation.isDecoded && l.reservations.all (·.projectId = projectId) &&
    l.reservations.all (l.usedOperationIds.contains ·.operationId) &&
    decide (l.reservations.map Reservation.shardId).Nodup &&
    decide (l.reservations.map Reservation.operationId).Nodup

/-- A request, its ranges in order. Source: `fingerprint`. -/
def fingerprint (r : Request) : Request :=
  { r with virtualRanges := r.virtualRanges.insertionSort (· ≤ ·) }

/-! ## What a request comes to -/

/-- A record as it was read. -/
abbrev Existing := Option (Versioned Ledger)

def revisionOf (existing : Existing) : ℕ := existing.elim 0 (·.value.revision)

def reservationsOf (existing : Existing) : List Reservation := existing.elim [] (·.value.reservations)

def usedOf (existing : Existing) : List Utf16 := existing.elim [] (·.value.usedOperationIds)

/-- The reservations of the other shards. Source: `request`, its `others`. -/
def othersOf (existing : Existing) (shardId : Utf16) : List Reservation :=
  (reservationsOf existing).filter (·.shardId ≠ shardId)

/-- What a request needs and what is reserved for others, as the sum comes out, is in an envelope. -/
def withinEnvelope (needed : ℕ) (reserved : List ℕ) (envelope : ℚ) : Bool :=
  (nearest (needed + sumFrom 0 reserved) : ℚ) ≤ envelope

/-- Source: `request`, its checks of the three resources. -/
def Allocation.fits (a : Allocation) (r : Request) (others : List Reservation) : Bool :=
  withinEnvelope r.resources.cpuCores (others.map (·.resources.cpuCores)) a.cpuCores &&
    withinEnvelope r.resources.memoryBytes (others.map (·.resources.memoryBytes)) a.memoryBytes &&
    withinEnvelope r.resources.diskBytes (others.map (·.resources.diskBytes)) a.diskBytes

/-- A node may take a shard. Source: `request`, its `eligible`. -/
def Node.isEligible (n : Node) (r : Request) (a : Allocation) : Bool :=
  n.ready && a.allowedNodeIds.contains n.id && (r.resources.cpuCores : ℚ) ≤ n.cpuCores &&
    (r.resources.memoryBytes : ℚ) ≤ n.memoryBytes && (r.resources.diskBytes : ℚ) ≤ n.diskBytes

/-- What a caller is answered. Source: `AppShardPlacementDecision`. -/
inductive Decision where
  | granted (reservation : Reservation)
  | refused (reason : Refusal) (currentRevision : ℕ)
  deriving DecidableEq

/-- How far a request is. -/
inductive Stage where
  | asked
  | permitted
  | allocated (allocation : Allocation)
  | observed (allocation : Allocation) (existing : Existing)
  | placing (allocation : Allocation) (existing : Existing)
  | writing (allocation : Allocation) (existing : Existing) (reservation : Reservation) (next : Ledger)
  | lost (allocation : Allocation)
  | answered (decision : Decision)
  | threw
  deriving DecidableEq

def Stage.allocation : Stage → Option Allocation
  | .allocated a | .observed a _ | .placing a _ | .writing a _ _ _ | .lost a => some a
  | .asked | .permitted | .answered _ | .threw => none

/-- What follows from the record. Source: `request`. -/
def assess (r : Request) (a : Allocation) (existing : Existing) : Stage :=
  if existing.any fun record => !record.value.isAccepted r.projectId then .threw
  else
    let refuse reason := Stage.answered (.refused reason (revisionOf existing))
    match (reservationsOf existing).find? (·.shardId = r.shardId) |>.filter (·.operationId = r.operationId) with
    | some previous =>
      if previous.requestFingerprint ≠ fingerprint r then refuse .operationConflict
      else if previous.allocationGeneration ≠ a.generation then refuse .allocationChanged
      else .answered (.granted previous)
    | none =>
      if (usedOf existing).contains r.operationId then refuse .operationConflict
      else if r.expectedRevision ≠ revisionOf existing then refuse .revisionConflict
      else if r.virtualRanges.any fun range =>
          ((othersOf existing r.shardId).flatMap Reservation.virtualRanges).contains range then
        refuse .rangeConflict
      else if !a.fits r (othersOf existing r.shardId) then refuse .outOfEnvelope
      else .placing a existing

/-- What is reserved on a node. Source: `request`, its `reservation`. -/
def reservationOn (r : Request) (a : Allocation) (existing : Existing) (node : Node) : Reservation where
  operationId := r.operationId
  projectId := r.projectId
  shardId := r.shardId
  nodeId := node.id
  allocationGeneration := a.generation
  mapVersion := r.mapVersion
  virtualRanges := r.virtualRanges.insertionSort (· ≤ ·)
  resources := r.resources
  revision := revisionOf existing + 1
  requestFingerprint := fingerprint r

def arrayLimit : ℕ := 2 ^ 32 - 1

section

variable (localeCompare : Utf16 → Utf16 → ℤ)

/-- The record with a reservation in place of its shard's. Source: `request`, its
`next`. -/
def nextLedger (existing : Existing) (reservation : Reservation) : Ledger where
  revision := revisionOf existing + 1
  reservations := (othersOf existing reservation.shardId ++ [reservation]).insertionSort
    fun x y => localeCompare x.shardId y.shardId ≤ 0
  usedOperationIds := usedOf existing ++ [reservation.operationId]

/-- What follows from the nodes; an array too long throws. Source: `request`. -/
def reserve (r : Request) (a : Allocation) (existing : Existing) (nodes : List Node) : Stage :=
  match ((nodes.filter (·.isEligible r a)).insertionSort fun x y => localeCompare x.id y.id ≤ 0).head? with
  | none => .answered (.refused .noEligibleNode (revisionOf existing))
  | some node =>
    if (usedOf existing).length < arrayLimit then
      .writing a existing (reservationOn r a existing node)
        (nextLedger localeCompare existing (reservationOn r a existing node))
    else .threw

/-- What a request that was not first comes to. Source: `request`, its
`latest`. -/
def answerLatest (r : Request) (a : Allocation) (latest : Existing) : Stage :=
  if latest.any fun record => !record.value.isAccepted r.projectId then .threw
  else
    match (reservationsOf latest).find? (·.shardId = r.shardId) |>.filter fun e =>
      e.operationId = r.operationId ∧ e.requestFingerprint = fingerprint r ∧
        e.allocationGeneration = a.generation with
    | some e => .answered (.granted e)
    | none => .answered (.refused .revisionConflict (revisionOf latest))

/-! ## The steps of a request -/

/-- A request of a caller. -/
structure Call where
  caller : Utf16
  request : Request
  stage : Stage

/-- The clock, the records, and every reservation that was written, in order. -/
structure Shared where
  now : ℕ
  records : Records Ledger
  granted : List Reservation

/-- What a request finds outside. -/
inductive Event where
  | goOn
  | allocation (found : Option Allocation)
  | nodes (nodes : List Node)
  | store (reply : Reply)

def writeRecord (now : ℕ) (stored existing : Existing) (next : Ledger) : Existing :=
  match existing with
  | some record => compareAndSetRecord now stored record.updatedAt next (some record.value)
  | none => Edge.setIfAbsent now stored next

/-- The next step of a request. Source: `request`. -/
def advance (event : Event) (s : Shared) (c : Call) : Option (Shared × Call) :=
  match event, c.stage with
  | .goOn, .asked =>
    some (s, { c with
      stage := if !validId c.caller || !c.request.isValid then .answered (.refused .invalidRequest 0)
        else if c.caller ≠ c.request.projectId then .answered (.refused .foreignProject 0)
        else .permitted })
  | .allocation found, .permitted =>
    some (s, { c with
      stage := match found.filter fun a => a.projectId = c.caller ∧ positiveInteger a.generation = true with
        | some a => .allocated a
        | none => .answered (.refused .allocationUnavailable 0) })
  | .store reply, .allocated a =>
    some (s, { c with
      stage := match recordId NAMESPACE c.request.projectId with
        | some id => if reply = .done then .observed a (s.records id) else .threw
        | none => .threw })
  | .goOn, .observed a existing => some (s, { c with stage := assess c.request a existing })
  | .nodes nodes, .placing a existing =>
    some (s, { c with stage := reserve localeCompare c.request a existing nodes })
  | .store reply, .writing a existing reservation next =>
    match recordId NAMESPACE c.request.projectId with
    | none => some (s, { c with stage := .threw })
    | some id =>
      match (writeRecord s.now (s.records id) existing next).filter fun _ => reply.happens with
      | some record =>
        some ({ s with
            records := Function.update s.records id (some record)
            granted := s.granted ++ [reservation] },
          { c with stage := if reply = .done then .answered (.granted reservation) else .threw })
      | none => some (s, { c with stage := if reply = .done then .lost a else .threw })
  | .store reply, .lost a =>
    some (s, { c with
      stage := match recordId NAMESPACE c.request.projectId with
        | some id => if reply = .done then answerLatest c.request a (s.records id) else .threw
        | none => .threw })
  | _, _ => none

/-- Any number of requests of any callers, and a clock that does not go back. -/
def requests : Rules Shared Call Event ℕ where
  begins c := c.stage = .asked
  moves := advance localeCompare
  passes now s := if s.now ≤ now then some { s with now } else none

end

end Zelavis.Platform.AppDataPlacement
