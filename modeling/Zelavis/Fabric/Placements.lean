import Mathlib.Algebra.Order.Ring.Rat
import Mathlib.Data.List.Sort
import Mathlib.Data.Rat.Floor
import Zelavis.Lib.Ancestry
import Zelavis.Lib.Unicode

/-!
# The placement of projects on nodes

`core/fabric/index.ts` `planFabricProjectPlacements` and what it calls. Numbers are rationals, and one
that is missing or not finite is nothing. The order of two identifiers by `localeCompare` is a parameter.
-/

namespace Zelavis.Fabric

open Lib

/-! ## Nodes and requests -/

/-- Source: `FabricNodeStatus`. -/
inductive FabricNodeStatus where
  | ready
  | degraded
  | draining
  | unavailable
  deriving DecidableEq

/-- Source: `workload/index.ts` `ZelavisNodeRole`. -/
inductive FabricNodeRole where
  | gateway
  | control
  | worker
  deriving DecidableEq

/-- Source: `FabricNodeCapacity`. -/
structure FabricNodeCapacity where
  cpuCores : Option ℚ := none
  memoryBytes : Option ℚ := none
  diskBytes : Option ℚ := none
  deriving DecidableEq

/-- The pressures that weigh in a choice. Source: `FabricNodeLoad`. -/
structure FabricNodeLoad where
  cpu : Option ℚ := none
  memory : Option ℚ := none
  activeRequests : Option ℚ := none
  deriving DecidableEq

/-- The members of a record of texts, by their names. -/
abbrev Labels := List (Utf16 × Utf16)

/-- A node. Where it has no capacity, load or labels, all of theirs are missing.
Source: `FabricNode`. -/
structure FabricNode where
  id : Utf16
  status : FabricNodeStatus
  roles : List FabricNodeRole
  runtimeDriver : Option Utf16 := none
  capacity : FabricNodeCapacity := {}
  load : FabricNodeLoad := {}
  labels : Labels := []
  deriving DecidableEq

/-- Source: `FabricReplicaMode`. -/
inductive FabricReplicaMode where
  | single
  | fixed
  | automatic
  deriving DecidableEq

/-- How many replicas are asked for. Source: `FabricProjectReplicaPolicy`. -/
structure FabricProjectReplicaPolicy where
  mode : FabricReplicaMode
  replicas : Option ℚ := none
  minReplicas : Option ℚ := none
  maxReplicas : Option ℚ := none
  scaleOutCpuThreshold : Option ℚ := none
  scaleInCpuThreshold : Option ℚ := none
  scaleOutRequestThreshold : Option ℚ := none
  scaleInRequestThreshold : Option ℚ := none
  deriving DecidableEq

/-- What is measured of a project. Where it is left out, all of it is missing.
Source: `FabricProjectScaleSignal`. -/
structure FabricProjectScaleSignal where
  currentReplicas : Option ℚ := none
  cpu : Option ℚ := none
  requests : Option ℚ := none
  deriving DecidableEq

/-- What a replica takes. Source: `FabricProjectReplicaResources`. -/
structure FabricProjectReplicaResources where
  cpuCores : Option ℚ := none
  memoryBytes : Option ℚ := none
  diskBytes : Option ℚ := none
  deriving DecidableEq

/-- Source: `workload/index.ts` `ZelavisProjectWorkloadIdentity`. -/
structure ProjectWorkloadIdentity where
  scopeId : Utf16
  workloadId : Utf16
  deriving DecidableEq

/-- Source: `FabricProjectPlacementRequest`. -/
structure FabricProjectPlacementRequest where
  identity : ProjectWorkloadIdentity
  projectKind : Utf16
  runtimeDriver : Option Utf16 := none
  /-- Its capability `statelessRuntimeReplicas`. -/
  statelessRuntimeReplicas : Bool
  replicaPolicy : FabricProjectReplicaPolicy := { mode := .single }
  scaleSignal : FabricProjectScaleSignal := {}
  resources : FabricProjectReplicaResources := {}
  allowedNodeIds : Option (List Utf16) := none
  requiredLabels : Labels := []
  ownerProjectId : Option Utf16 := none
  deriving DecidableEq

def FabricProjectPlacementRequest.id (request : FabricProjectPlacementRequest) : Utf16 :=
  request.identity.workloadId

def truthy (text : Option Utf16) : Option Utf16 := text.filter (· ≠ [])

def FabricProjectPlacementRequest.owner (request : FabricProjectPlacementRequest) : Option Utf16 :=
  truthy request.ownerProjectId

/-! ## How many replicas -/

/-- Source: `positiveInteger`. -/
def positiveInteger (value : Option ℚ) (fallback : ℕ) : ℕ :=
  value.elim fallback fun v => max 1 ⌊v⌋.toNat

/-- Source: `normalizedPressure`. -/
def normalizedPressure (value : Option ℚ) : Option ℚ := value.map fun v => min 1 (max 0 v)

def threshold (value : Option ℚ) (fallback : ℚ) : ℚ := (normalizedPressure value).getD fallback

/-- Source: `desiredReplicaCount`. -/
def desiredReplicaCount (request : FabricProjectPlacementRequest) : ℕ :=
  let policy := request.replicaPolicy
  if request.statelessRuntimeReplicas = false ∨ policy.mode = .single then 1
  else
    let least := positiveInteger policy.minReplicas 1
    if policy.mode = .fixed then
      let fixed := max least (positiveInteger policy.replicas least)
      let ceiling := positiveInteger policy.maxReplicas fixed
      max least (min fixed ceiling)
    else
      let most := max least (positiveInteger policy.maxReplicas least)
      let current := min most (max least (positiveInteger request.scaleSignal.currentReplicas least))
      let cpu := normalizedPressure request.scaleSignal.cpu
      let requests := normalizedPressure request.scaleSignal.requests
      let scaleOut :=
        cpu.any (threshold policy.scaleOutCpuThreshold (3 / 4) ≤ ·) ||
          requests.any (threshold policy.scaleOutRequestThreshold (3 / 4) ≤ ·)
      let hasSignal := cpu.isSome || requests.isSome
      let scaleIn :=
        hasSignal && cpu.all (· ≤ threshold policy.scaleInCpuThreshold (1 / 4)) &&
          requests.all (· ≤ threshold policy.scaleInRequestThreshold (1 / 4))
      if scaleOut then min most (current + 1)
      else if scaleIn then max least (current - 1)
      else current

/-! ## Where a replica may run -/

/-- What the plan has put on a node so far. Source: `FabricPlannedNodeUsage`. -/
structure FabricPlannedNodeUsage where
  replicas : ℕ := 0
  cpuCores : ℚ := 0
  memoryBytes : ℚ := 0
  diskBytes : ℚ := 0
  projects : Utf16 → ℕ := fun _ => 0

/-- Source: `eligibleNode`. -/
def eligibleNode (node : FabricNode) (request : FabricProjectPlacementRequest) : Bool :=
  node.status = .ready && node.roles.contains .worker &&
    (truthy request.runtimeDriver).all (node.runtimeDriver = some ·) &&
    request.allowedNodeIds.all (·.contains node.id) &&
    request.requiredLabels.all fun label => node.labels.lookup label.1 = some label.2

/-- What a replica takes of a resource. Source: `hasCapacity`. -/
def amount (value : Option ℚ) : ℚ := max 0 (value.getD 0)

/-- Source: `hasCapacity`. -/
def hasCapacity (node : FabricNode) (usage : FabricPlannedNodeUsage)
    (resources : FabricProjectReplicaResources) : Bool :=
  node.capacity.cpuCores.all (usage.cpuCores + amount resources.cpuCores ≤ ·) &&
    node.capacity.memoryBytes.all (usage.memoryBytes + amount resources.memoryBytes ≤ ·) &&
    node.capacity.diskBytes.all (usage.diskBytes + amount resources.diskBytes ≤ ·)

/-- Source: `nodeScore`. -/
def nodeScore (node : FabricNode) (usage : FabricPlannedNodeUsage) (projectId : Utf16) : ℚ :=
  let capacityShare :=
    (node.capacity.cpuCores.filter (· ≠ 0)).elim ((usage.replicas : ℚ) / 100) (usage.cpuCores / ·)
  let pressure :=
    threshold node.load.cpu 0 + threshold node.load.memory 0 + threshold node.load.activeRequests 0
  usage.projects projectId * 1000 + pressure * 100 + capacityShare * 10

/-! ## Owners -/

/-- The request of a workload in `byId`, a map made of all the requests in turn: the last of them.
Source: `planFabricProjectPlacements`, its `byId`. -/
def requestOf (requests : List FabricProjectPlacementRequest) (id : Utf16) :
    Option FabricProjectPlacementRequest :=
  requests.reverse.find? (·.id = id)

def ownerOf (requests : List FabricProjectPlacementRequest) (id : Utf16) : Option Utf16 :=
  (requestOf requests id).bind FabricProjectPlacementRequest.owner

/-- Whether going up from owner to owner comes round. Source: `hasOwnershipCycle`. -/
def hasOwnershipCycle (requests : List FabricProjectPlacementRequest) (projectId : Utf16) : Bool :=
  (Ancestry.comesRound (ownerOf requests) (requests.length + 1) [] projectId).getD false

section Ordering

variable (requests : List FabricProjectPlacementRequest)

/-- The walk from one request: the owner first, unless it is on the way; nothing where the fuel runs out.
What is done is what is ordered. Source: `orderRequestsByOwnership`, its `visit`. -/
def visit : ℕ → List Utf16 → List FabricProjectPlacementRequest → FabricProjectPlacementRequest →
    Option (List FabricProjectPlacementRequest)
  | 0, _, _, _ => none
  | fuel + 1, visiting, ordered, request =>
    if request.id ∈ ordered.map (·.id) ∨ request.id ∈ visiting then some ordered
    else
      let owner := request.owner.bind (requestOf requests)
      let walked := owner.elim (some ordered) (visit fuel (request.id :: visiting) ordered)
      walked.map fun ordered =>
        if request.id ∈ ordered.map (·.id) then ordered else ordered ++ [request]

variable (localeCompare : Utf16 → Utf16 → ℤ)

/-- Source: `orderRequestsByOwnership`. -/
def orderRequestsByOwnership : List FabricProjectPlacementRequest :=
  let sorted := requests.insertionSort fun left right => localeCompare left.id right.id ≤ 0
  (sorted.foldlM (visit requests (requests.length + 1) []) []).getD []

end Ordering

/-! ## The plan -/

/-- Source: `FabricPlannedProjectReplica`. -/
structure FabricPlannedProjectReplica where
  identity : ProjectWorkloadIdentity
  projectKind : Utf16
  replicaId : Utf16
  replicaIndex : ℕ
  runtimeNodeId : Utf16
  deriving DecidableEq

/-- Source: `FabricUnplacedReplicaReason`. -/
inductive FabricUnplacedReplicaReason where
  | noEligibleNode
  | insufficientCapacity
  | ownerUnplaced
  | ownerCycle
  deriving DecidableEq

/-- Source: `FabricUnplacedProjectReplica`. -/
structure FabricUnplacedProjectReplica where
  identity : ProjectWorkloadIdentity
  projectKind : Utf16
  replicaId : Utf16
  replicaIndex : ℕ
  reason : FabricUnplacedReplicaReason
  deriving DecidableEq

/-- Source: `FabricPlacementPlan`. -/
structure FabricPlacementPlan where
  replicas : List FabricPlannedProjectReplica := []
  unplaced : List FabricUnplacedProjectReplica := []
  deriving DecidableEq

/-- The identifier of a replica, ``${projectId}:runtime:${replicaIndex + 1}``. -/
def replicaIdOf (projectId : Utf16) (replicaIndex : ℕ) : Utf16 :=
  projectId ++ utf16 ":runtime:" ++
    (Nat.toDigits 10 (replicaIndex + 1)).map fun c => Fin.ofNat 0x10000 c.toNat

/-- What the loops of the plan have come to. -/
structure Planning where
  plan : FabricPlacementPlan := {}
  usage : Utf16 → FabricPlannedNodeUsage := fun _ => {}
  placedNodes : Utf16 → List Utf16 := fun _ => []

/-- Why an owned project cannot be placed, if it cannot. Source: `ownershipFailure`. -/
def ownershipFailure (requests : List FabricProjectPlacementRequest) (owner : Utf16)
    (placedNodes : Utf16 → List Utf16) : Option FabricUnplacedReplicaReason :=
  if hasOwnershipCycle requests owner then some .ownerCycle
  else if placedNodes owner = [] then some .ownerUnplaced
  else none

def Planning.refuse (s : Planning) (request : FabricProjectPlacementRequest)
    (reason : FabricUnplacedReplicaReason) (replicaIndex : ℕ) : Planning :=
  { s with
    plan :=
      { s.plan with
        unplaced := s.plan.unplaced ++
          [⟨request.identity, request.projectKind, replicaIdOf request.id replicaIndex, replicaIndex,
            reason⟩] } }

/-- A replica placed on a node, and what it takes reserved.
Source: `planFabricProjectPlacements`, its inner loop. -/
def Planning.place (s : Planning) (request : FabricProjectPlacementRequest) (replicaIndex : ℕ)
    (selected : FabricNode) : Planning :=
  let was := s.usage selected.id
  { plan :=
      { s.plan with
        replicas := s.plan.replicas ++
          [⟨request.identity, request.projectKind, replicaIdOf request.id replicaIndex, replicaIndex,
            selected.id⟩] }
    usage := Function.update s.usage selected.id
      { replicas := was.replicas + 1
        cpuCores := was.cpuCores + amount request.resources.cpuCores
        memoryBytes := was.memoryBytes + amount request.resources.memoryBytes
        diskBytes := was.diskBytes + amount request.resources.diskBytes
        projects := Function.update was.projects request.id (was.projects request.id + 1) }
    placedNodes := Function.update s.placedNodes request.id
      (List.insert selected.id (s.placedNodes request.id)) }

section Plan

variable (localeCompare : Utf16 → Utf16 → ℤ)

/-- Whether one candidate comes before another: the lesser score, or the lesser identifier.
Source: `planFabricProjectPlacements`, its comparison of candidates. -/
def before (usage : Utf16 → FabricPlannedNodeUsage) (projectId : Utf16) (left right : FabricNode) :
    Bool :=
  let score :=
    nodeScore left (usage left.id) projectId - nodeScore right (usage right.id) projectId
  if score = 0 then localeCompare left.id right.id ≤ 0 else score ≤ 0

def selectNode (eligible : List FabricNode) (usage : Utf16 → FabricPlannedNodeUsage)
    (request : FabricProjectPlacementRequest) : Option FabricNode :=
  let fitting := eligible.filter fun node => hasCapacity node (usage node.id) request.resources
  let candidates := fitting.insertionSort fun left right =>
    before localeCompare usage request.id left right
  candidates.head?

/-- One replica. Source: `planFabricProjectPlacements`, its inner loop. -/
def planReplica (eligible : List FabricNode) (request : FabricProjectPlacementRequest) (s : Planning)
    (replicaIndex : ℕ) : Planning :=
  match selectNode localeCompare eligible s.usage request with
  | none =>
    s.refuse request (if eligible = [] then .noEligibleNode else .insufficientCapacity) replicaIndex
  | some selected => s.place request replicaIndex selected

variable (sortedNodes : List FabricNode)

/-- The nodes a request's replicas may be put on: those eligible, and of them those with its owner.
Source: `planFabricProjectPlacements`, its `eligible`. -/
def eligibleNodes (request : FabricProjectPlacementRequest) (placedNodes : Utf16 → List Utf16) :
    List FabricNode :=
  sortedNodes.filter fun node =>
    eligibleNode node request && request.owner.all fun owner => (placedNodes owner).contains node.id

/-- One request. Source: `planFabricProjectPlacements`, its outer loop. -/
def planRequest (requests : List FabricProjectPlacementRequest) (s : Planning)
    (request : FabricProjectPlacementRequest) : Planning :=
  let indices := List.range (desiredReplicaCount request)
  match request.owner.bind fun owner => ownershipFailure requests owner s.placedNodes with
  | some failure => indices.foldl (fun s => s.refuse request failure) s
  | none =>
    indices.foldl
      (planReplica localeCompare (eligibleNodes sortedNodes request s.placedNodes) request) s

/-- Source: `planFabricProjectPlacements`. -/
def planFabricProjectPlacements (nodes : List FabricNode)
    (requests : List FabricProjectPlacementRequest) : FabricPlacementPlan :=
  let sortedNodes := nodes.insertionSort fun left right => localeCompare left.id right.id ≤ 0
  ((orderRequestsByOwnership requests localeCompare).foldl
    (planRequest localeCompare sortedNodes requests) {}).plan

end Plan

end Zelavis.Fabric
