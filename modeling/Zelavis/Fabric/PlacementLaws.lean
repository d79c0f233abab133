import Zelavis.Fabric.PlacementPlan

/-!
# What a plan keeps to

Over `core/fabric/index.ts` `planFabricProjectPlacements`.
-/

namespace Zelavis.Fabric

open Lib List

variable {nodes : List FabricNode} {requests : List FabricProjectPlacementRequest}

/-! ## What a plan takes of a node -/

variable {p : FabricPlannedProjectReplica} {id n : Utf16}

section Load

variable (requests) (replicas : List FabricPlannedProjectReplica)

def taken (p : FabricPlannedProjectReplica) (k : Resource) : ℚ :=
  (requestOf requests p.identity.workloadId).elim 0 (·.resources.need k)

def load (n : Utf16) (k : Resource) : ℚ :=
  ((replicas.filter (·.runtimeNodeId = n)).map (taken requests · k)).sum

def Holds (id n : Utf16) : Prop :=
  ∃ p ∈ replicas, p.identity.workloadId = id ∧ p.runtimeNodeId = n

lemma load_concat (p : FabricPlannedProjectReplica) (k : Resource) :
    load requests (replicas ++ [p]) p.runtimeNodeId k =
      load requests replicas p.runtimeNodeId k + taken requests p k := by
  unfold load
  rw [filter_append, filter_singleton, decide_eq_true rfl]
  simp [cond_true]

variable {replicas} in
lemma load_concat_of_ne {n : Utf16} (h : n ≠ p.runtimeNodeId)
    (k : Resource) : load requests (replicas ++ [p]) n k = load requests replicas n k := by
  unfold load
  rw [filter_append, filter_singleton, decide_eq_false h.symm]
  simp only [cond_false, append_nil]

variable {replicas} in
lemma Holds.concat (h : Holds replicas id n) (p : FabricPlannedProjectReplica) :
    Holds (replicas ++ [p]) id n := by
  obtain ⟨q, hq, heq⟩ := h
  exact ⟨q, mem_append_left _ hq, heq⟩

lemma holds_concat_iff (p : FabricPlannedProjectReplica) : Holds (replicas ++ [p]) id n ↔
      Holds replicas id n ∨ (p.identity.workloadId = id ∧ p.runtimeNodeId = n) := by
  simp [Holds]

end Load

/-! ## What the loops keep -/

/-- A replica is one of a request, its node meets the constraints, and its owner, if it has one, is on
no cycle and has a replica on that node. -/
def Stands (nodes : List FabricNode) (requests : List FabricProjectPlacementRequest)
    (replicas : List FabricPlannedProjectReplica) (p : FabricPlannedProjectReplica) : Prop :=
  ∃ r ∈ requests, r.identity = p.identity ∧ r.projectKind = p.projectKind ∧
    (∃ node ∈ nodes, node.id = p.runtimeNodeId ∧ eligibleNode node r = true) ∧ ∀ owner, r.owner = some owner →
        hasOwnershipCycle requests owner = false ∧ Holds replicas owner p.runtimeNodeId

/-- What the loops of the plan keep. -/
structure Sound (nodes : List FabricNode) (requests : List FabricProjectPlacementRequest)
    (s : Planning) : Prop where
  used : ∀ n k, (s.usage n).used k = load requests s.plan.replicas n k
  room : ∀ p ∈ s.plan.replicas, ∃ node ∈ nodes, node.id = p.runtimeNodeId ∧
    node.capacity.Holds (s.usage p.runtimeNodeId).used
  placed : ∀ id n, n ∈ s.placedNodes id ↔ Holds s.plan.replicas id n
  stands : ∀ p ∈ s.plan.replicas, Stands nodes requests s.plan.replicas p

lemma Stands.concat {replicas : List FabricPlannedProjectReplica}
    (h : Stands nodes requests replicas p) (q : FabricPlannedProjectReplica) :
    Stands nodes requests (replicas ++ [q]) p := by
  obtain ⟨r, hr, hidentity, hkind, hnode, howner⟩ := h
  exact ⟨r, hr, hidentity, hkind, hnode, fun owner ho =>
    ⟨(howner owner ho).1, (howner owner ho).2.concat q⟩⟩

/-- A node may take a replica of a request: it meets the constraints and has the owner. -/
def Admits (nodes : List FabricNode) (requests : List FabricProjectPlacementRequest) (s : Planning)
    (r : FabricProjectPlacementRequest) (node : FabricNode) : Prop :=
  node ∈ nodes ∧ eligibleNode node r = true ∧ ∀ owner, r.owner = some owner →
      hasOwnershipCycle requests owner = false ∧ node.id ∈ s.placedNodes owner

/-- Source: `planFabricProjectPlacements`, the replica it pushes. -/
def replicaAt (r : FabricProjectPlacementRequest) (i : ℕ) (selected : FabricNode) :
    FabricPlannedProjectReplica :=
  ⟨r.identity, r.projectKind, replicaIdOf r.id i, i, selected.id⟩

lemma replicas_place (s : Planning) (r : FabricProjectPlacementRequest) (i : ℕ) (selected : FabricNode) :
    (s.place r i selected).plan.replicas = s.plan.replicas ++ [replicaAt r i selected] := rfl

lemma mem_placedNodes_place {s : Planning} {r : FabricProjectPlacementRequest} {i : ℕ}
    {selected : FabricNode} : n ∈ (s.place r i selected).placedNodes id ↔
      n ∈ s.placedNodes id ∨ (r.id = id ∧ selected.id = n) := by
  unfold Planning.place
  simp only [Function.update_apply]
  split
  case isTrue heq => rw [mem_insert_iff, heq]; tauto
  case isFalse hne => exact ⟨.inl, fun h => h.resolve_right fun h => hne h.1.symm⟩

variable {sortedNodes : List FabricNode} {eligible : List FabricNode}

section Keeps

variable {s : Planning} {r : FabricProjectPlacementRequest} {i : ℕ} {selected : FabricNode}

lemma Sound.place (h : Sound nodes requests s) (hagree : Agreeing requests) (hr : r ∈ requests)
    (hadmits : Admits nodes requests s r selected)
    (hroom : hasCapacity selected (s.usage selected.id) r.resources = true) :
    Sound nodes requests (s.place r i selected) := by
  have htaken : ∀ k, taken requests (replicaAt r i selected) k = r.resources.need k := fun k => by
    have hof : requestOf requests (replicaAt r i selected).identity.workloadId = some r :=
      hagree.requestOf_eq hr
    unfold taken
    rw [hof]
    rfl
  have hwithin : selected.capacity.Holds ((s.place r i selected).usage selected.id).used := by
    intro k c hc
    rw [used_place]
    exact hasCapacity_iff.1 hroom k c hc
  obtain ⟨hmem, heligible, howner⟩ := hadmits
  refine ⟨fun n k => ?_, fun p hp => ?_, fun id n => ?_, fun p hp => ?_⟩
  · rw [replicas_place]
    by_cases hn : n = selected.id
    · subst hn
      rw [used_place, h.used selected.id k, ← htaken k]
      exact (load_concat requests s.plan.replicas (replicaAt r i selected) k).symm
    · rw [usage_place_of_ne hn, load_concat_of_ne requests (p := replicaAt r i selected) hn]
      exact h.used n k
  · by_cases hn : p.runtimeNodeId = selected.id
    · rw [hn]
      exact ⟨selected, hmem, rfl, hwithin⟩
    · rw [replicas_place, mem_append, mem_singleton] at hp
      obtain hp | rfl := hp
      · rw [usage_place_of_ne hn]
        exact h.room p hp
      · exact absurd rfl hn
  · rw [replicas_place, holds_concat_iff, mem_placedNodes_place, h.placed id n]
    rfl
  · rw [replicas_place, mem_append, mem_singleton] at hp
    obtain hp | rfl := hp
    · exact (h.stands p hp).concat _
    · refine ⟨r, hr, rfl, rfl, ⟨selected, hmem, rfl, heligible⟩, fun owner ho => ?_⟩
      obtain ⟨hcycle, hplaced⟩ := howner owner ho
      exact ⟨hcycle, ((h.placed owner selected.id).1 hplaced).concat _⟩

lemma Sound.refuse (h : Sound nodes requests s) (reason : FabricUnplacedReplicaReason) :
    Sound nodes requests (s.refuse r reason i) :=
  ⟨h.used, h.room, h.placed, h.stands⟩

lemma selectNode_eq_some {localeCompare : Utf16 → Utf16 → ℤ}
    {usage : Utf16 → FabricPlannedNodeUsage} (h : selectNode localeCompare eligible usage r = some selected) :
    selected ∈ eligible ∧ hasCapacity selected (usage selected.id) r.resources = true := by
  have hmem := (mem_insertionSort _).1 (mem_of_head? h)
  exact mem_filter.1 hmem

lemma Admits.place (h : Admits nodes requests s r selected) (r' : FabricProjectPlacementRequest)
    (node : FabricNode) : Admits nodes requests (s.place r' i node) r selected := by
  obtain ⟨hmem, heligible, howner⟩ := h
  refine ⟨hmem, heligible, fun owner ho => ?_⟩
  exact ⟨(howner owner ho).1, mem_placedNodes_place.2 (.inl (howner owner ho).2)⟩

variable (localeCompare : Utf16 → Utf16 → ℤ)

/-- The inner loop: the nodes it selects from admit its request throughout, since a project only comes to
be on more nodes. -/
theorem Sound.planReplicas (hagree : Agreeing requests) (hr : r ∈ requests)
    (indices : List ℕ) (h : Sound nodes requests s)
    (hadmits : ∀ node ∈ eligible, Admits nodes requests s r node) :
    Sound nodes requests (indices.foldl (planReplica localeCompare eligible r) s) := by
  induction indices generalizing s with
  | nil => exact h
  | cons i indices ih =>
    rw [foldl_cons]
    unfold planReplica
    cases hselect : selectNode localeCompare eligible s.usage r with
    | none => exact ih (h.refuse _) hadmits
    | some selected =>
      obtain ⟨hmem, hroom⟩ := selectNode_eq_some hselect
      exact ih (h.place hagree hr (hadmits selected hmem) hroom) fun node hnode =>
        (hadmits node hnode).place r selected

lemma ownershipFailure_eq_none {owner : Utf16} {placedNodes : Utf16 → List Utf16}
    (h : ownershipFailure requests owner placedNodes = none) : hasOwnershipCycle requests owner = false := by
  unfold ownershipFailure at h
  split at h
  case isTrue => exact absurd h (Option.some_ne_none _)
  case isFalse hcycle => exact Bool.eq_false_iff.2 hcycle

lemma admits_eligibleNodes (hmem : ∀ n ∈ sortedNodes, n ∈ nodes)
    (hfailure : (r.owner.bind fun owner => ownershipFailure requests owner s.placedNodes) = none)
    {node : FabricNode} (hnode : node ∈ eligibleNodes sortedNodes r s.placedNodes) :
    Admits nodes requests s r node := by
  obtain ⟨hsorted, hcond⟩ := mem_filter.1 hnode
  obtain ⟨heligible, hon⟩ := (Bool.and_eq_true _ _).mp hcond
  refine ⟨hmem node hsorted, heligible, fun owner ho => ?_⟩
  rw [ho] at hfailure hon
  exact ⟨ownershipFailure_eq_none hfailure, contains_iff_mem.1 hon⟩

lemma Sound.planRequest (hmem : ∀ n ∈ sortedNodes, n ∈ nodes)
    (hagree : Agreeing requests) (h : Sound nodes requests s) (hr : r ∈ requests) :
    Sound nodes requests (planRequest localeCompare sortedNodes requests s r) := by
  unfold Fabric.planRequest
  cases hfailure : r.owner.bind fun owner => ownershipFailure requests owner s.placedNodes with
  | none =>
    exact h.planReplicas localeCompare hagree hr _ fun node hnode =>
      admits_eligibleNodes hmem hfailure hnode
  | some failure =>
    refine List.foldlRecOn _ _ h fun s' hs' i _ => ?_
    exact hs'.refuse failure

end Keeps

/-! ## Cycles of owners -/

/-- The second workload is the owner that a request of the first one names. -/
def Owned (requests : List FabricProjectPlacementRequest) (a b : Utf16) : Prop :=
  ∃ r ∈ requests, r.id = a ∧ r.owner = some b

def InOwnershipCycle (requests : List FabricProjectPlacementRequest)
    (r : FabricProjectPlacementRequest) : Prop :=
  Relation.TransGen (Owned requests) r.id r.id

def OwnerAbsent (requests : List FabricProjectPlacementRequest) (r : FabricProjectPlacementRequest) :
    Prop :=
  ∃ owner, r.owner = some owner ∧ ∀ q ∈ requests, q.id ≠ owner

/-- What a plan is for, apart from having the replicas that are asked for. -/
structure Lawful (nodes : List FabricNode) (requests : List FabricProjectPlacementRequest)
    (plan : FabricPlacementPlan) : Prop where
  within : ∀ p ∈ plan.replicas, ∃ node ∈ nodes, node.id = p.runtimeNodeId ∧
    node.capacity.Holds (load requests plan.replicas p.runtimeNodeId)
  each : ∀ node ∈ nodes, (∀ node' ∈ nodes, node'.id = node.id → node' = node) →
    (∃ id, Holds plan.replicas id node.id) → node.capacity.Holds (load requests plan.replicas node.id)
  constraints : ∀ p ∈ plan.replicas, ∀ r ∈ requests, r.id = p.identity.workloadId →
    ∃ node ∈ nodes, node.id = p.runtimeNodeId ∧ eligibleNode node r = true
  owners : ∀ p ∈ plan.replicas, ∀ r ∈ requests, r.id = p.identity.workloadId →
    ∀ owner, r.owner = some owner → Holds plan.replicas owner p.runtimeNodeId
  refused : ∀ r ∈ requests, InOwnershipCycle requests r ∨ OwnerAbsent requests r →
    (∀ n, ¬Holds plan.replicas r.id n) ∧ ∀ i < desiredReplicaCount r, ∃ u ∈ plan.unplaced,
        u.identity.workloadId = r.id ∧ u.replicaIndex = i

section Plan

variable (localeCompare : Utf16 → Utf16 → ℤ)

variable (nodes requests)

end Plan

/-! ## A workload asked for twice -/

end Zelavis.Fabric
