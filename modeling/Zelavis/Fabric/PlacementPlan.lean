import Mathlib.Algebra.BigOperators.Group.List.Basic
import Mathlib.Data.List.Nodup
import Mathlib.Data.List.Perm.Subperm
import Zelavis.Fabric.Placements

/-!
# What a plan has

Over `core/fabric/index.ts` `planFabricProjectPlacements`.
-/

namespace Zelavis.Fabric

open Lib List

/-! ## Resources -/

/-- What nodes have and replicas take. -/
inductive Resource where
  | cpuCores
  | memoryBytes
  | diskBytes

def FabricNodeCapacity.of (capacity : FabricNodeCapacity) : Resource → Option ℚ
  | .cpuCores => capacity.cpuCores
  | .memoryBytes => capacity.memoryBytes
  | .diskBytes => capacity.diskBytes

/-- What a replica takes of a resource, which is no less than what it asks for. -/
def FabricProjectReplicaResources.need (resources : FabricProjectReplicaResources) : Resource → ℚ
  | .cpuCores => amount resources.cpuCores
  | .memoryBytes => amount resources.memoryBytes
  | .diskBytes => amount resources.diskBytes

def FabricPlannedNodeUsage.used (usage : FabricPlannedNodeUsage) : Resource → ℚ
  | .cpuCores => usage.cpuCores
  | .memoryBytes => usage.memoryBytes
  | .diskBytes => usage.diskBytes

def FabricNodeCapacity.Holds (capacity : FabricNodeCapacity) (taken : Resource → ℚ) : Prop :=
  ∀ k c, capacity.of k = some c → taken k ≤ c

lemma hasCapacity_iff {node : FabricNode} {usage : FabricPlannedNodeUsage}
    {resources : FabricProjectReplicaResources} : hasCapacity node usage resources = true ↔
      node.capacity.Holds fun k => usage.used k + resources.need k := by
  simp only [hasCapacity, Bool.and_eq_true, Option.all_eq_true, decide_eq_true_eq]
  constructor
  · rintro ⟨⟨hcpu, hmemory⟩, hdisk⟩ k c hc
    cases k with
    | cpuCores => exact hcpu c hc
    | memoryBytes => exact hmemory c hc
    | diskBytes => exact hdisk c hc
  · intro h
    exact ⟨⟨fun c hc => h .cpuCores c hc, fun c hc => h .memoryBytes c hc⟩, fun c hc => h .diskBytes c hc⟩

lemma used_place (s : Planning) (request : FabricProjectPlacementRequest) (i : ℕ)
    (selected : FabricNode) (k : Resource) : ((s.place request i selected).usage selected.id).used k =
      (s.usage selected.id).used k + request.resources.need k := by
  have husage : (s.place request i selected).usage selected.id =
      { replicas := (s.usage selected.id).replicas + 1
        cpuCores := (s.usage selected.id).cpuCores + amount request.resources.cpuCores
        memoryBytes := (s.usage selected.id).memoryBytes + amount request.resources.memoryBytes
        diskBytes := (s.usage selected.id).diskBytes + amount request.resources.diskBytes
        projects := Function.update (s.usage selected.id).projects request.id
          ((s.usage selected.id).projects request.id + 1) } :=
    Function.update_self ..
  rw [husage]
  cases k with
  | cpuCores | memoryBytes | diskBytes => rfl

variable {request : FabricProjectPlacementRequest}

lemma usage_place_of_ne {s : Planning} {i : ℕ} {selected : FabricNode} {n : Utf16} (h : n ≠ selected.id) :
    (s.place request i selected).usage n = s.usage n :=
  Function.update_of_ne h ..

/-! ## The request of a workload -/

variable {requests : List FabricProjectPlacementRequest} {r : FabricProjectPlacementRequest}

lemma requestOf_eq_some {id : Utf16} (h : requestOf requests id = some r) : r ∈ requests ∧ r.id = id := by
  exact ⟨mem_reverse.1 (mem_of_find?_eq_some h), by simpa using List.find?_some h⟩

def Agreeing (requests : List FabricProjectPlacementRequest) : Prop :=
  ∀ r ∈ requests, ∀ r' ∈ requests, r.id = r'.id → r = r'

lemma Agreeing.requestOf_eq (h : Agreeing requests)
    (hr : r ∈ requests) : requestOf requests r.id = some r := by
  cases hof : requestOf requests r.id with
  | none =>
    have hnone := List.find?_eq_none.1 hof r (mem_reverse.2 hr)
    exact absurd (decide_eq_true rfl) hnone
  | some r' =>
    obtain ⟨hr', hid⟩ := requestOf_eq_some hof
    rw [h r' hr' r hr hid]

lemma agreeing_of_nodup (h : (requests.map (·.id)).Nodup) : Agreeing requests :=
  fun _ hr _ hr' heq => inj_on_of_nodup_map h hr hr' heq

/-! ## The order -/

/-- What a walk leads to from what was ordered: workloads once each, nothing lost and only requests new. -/
structure Walks (requests ordered ordered' : List FabricProjectPlacementRequest) : Prop where
  nodup : (ordered'.map (·.id)).Nodup
  keeps : ∀ r ∈ ordered, r ∈ ordered'
  mem : ∀ r ∈ ordered', r ∈ ordered ∨ r ∈ requests

variable {ordered : List FabricProjectPlacementRequest}

lemma Walks.refl (h : (ordered.map (·.id)).Nodup) : Walks requests ordered ordered :=
  ⟨h, fun _ hr => hr, fun _ hr => .inl hr⟩

lemma Walks.trans {a b c : List FabricProjectPlacementRequest} (h : Walks requests a b)
    (h' : Walks requests b c) : Walks requests a c :=
  ⟨h'.nodup, fun r hr => h'.keeps r (h.keeps r hr), fun r hr =>
    (h'.mem r hr).elim (h.mem r) .inr⟩

lemma Walks.append {request} (hmem : request ∈ requests)
    (h : (ordered.map (·.id)).Nodup) (hnew : request.id ∉ ordered.map (·.id)) :
    Walks requests ordered (ordered ++ [request]) where
  nodup := by
    rw [map_append, nodup_append]
    refine ⟨h, nodup_singleton _, fun a ha b hb hab => hnew ?_⟩
    have hb : b = request.id := mem_singleton.1 hb
    rwa [← hb, ← hab]
  keeps r hr := mem_append_left _ hr
  mem r hr := (mem_append.1 hr).imp_right fun hr => by rwa [mem_singleton.1 hr]

/-- A walk does not run out, and afterwards its request's workload is ordered or on the way. The
induction is on the fuel: every workload on the way leaves one fewer to go through. -/
theorem visit_walks {fuel : ℕ} {visiting : List Utf16} (hmem : request ∈ requests)
    (hnodup : (ordered.map (·.id)).Nodup)
    (hfuel : (Ancestry.unseen (requests.map (·.id)) visiting).length < fuel) :
    ∃ ordered', visit requests fuel visiting ordered request = some ordered' ∧
      Walks requests ordered ordered' ∧ (request.id ∈ visiting ∨ request.id ∈ ordered'.map (·.id)) := by
  induction fuel generalizing visiting ordered request with
  | zero => exact absurd hfuel (Nat.not_lt_zero _)
  | succ fuel ih =>
    unfold visit
    split
    case isTrue hdone => exact ⟨ordered, rfl, .refl hnodup, hdone.symm⟩
    case isFalse hnew =>
      obtain ⟨-, hvisiting⟩ := not_or.1 hnew
      have hlt : (Ancestry.unseen (requests.map (·.id)) (request.id :: visiting)).length < fuel :=
        Nat.lt_of_lt_of_le (Ancestry.length_unseen_cons_lt (List.mem_map_of_mem hmem) hvisiting)
          (Nat.le_of_lt_succ hfuel)
      obtain ⟨walked, hwalked, hwalks⟩ : ∃ walked,
          (request.owner.bind (requestOf requests)).elim (some ordered)
            (visit requests fuel (request.id :: visiting) ordered) = some walked ∧
          Walks requests ordered walked := by
        cases howner : request.owner.bind (requestOf requests) with
        | none => exact ⟨ordered, rfl, .refl hnodup⟩
        | some owner =>
          obtain ⟨id, -, hof⟩ := Option.bind_eq_some_iff.1 howner
          obtain ⟨walked, hvisit, hwalks, -⟩ := ih (requestOf_eq_some hof).1 hnodup hlt
          exact ⟨walked, hvisit, hwalks⟩
      simp only [hwalked, Option.map_some]
      split
      case isTrue hthere => exact ⟨walked, rfl, hwalks, .inr hthere⟩
      case isFalse hthere =>
        refine ⟨_, rfl, hwalks.trans (.append hmem hwalks.nodup hthere), .inr ?_⟩
        exact List.mem_map_of_mem (mem_append_right _ (mem_singleton_self _))

lemma visits_walk (todo ordered : List FabricProjectPlacementRequest)
    (hmem : ∀ r ∈ todo, r ∈ requests) (hnodup : (ordered.map (·.id)).Nodup) :
    ∃ ordered', todo.foldlM (visit requests (requests.length + 1) []) ordered = some ordered' ∧
      Walks requests ordered ordered' ∧ ∀ r ∈ todo, r.id ∈ ordered'.map (·.id) := by
  induction todo generalizing ordered with
  | nil => exact ⟨ordered, rfl, .refl hnodup, fun r hr => (not_mem_nil hr).elim⟩
  | cons r todo ih =>
    have hfuel : (Ancestry.unseen (requests.map (·.id)) []).length < requests.length + 1 :=
      Nat.lt_succ_of_le ((Ancestry.length_unseen_le _ _).trans_eq (length_map _))
    obtain ⟨between, hvisit, hwalks, hthere⟩ :=
      visit_walks (hmem r mem_cons_self) hnodup hfuel
    obtain ⟨ordered', hrest, hwalks', hcovers⟩ :=
      ih between (fun r' hr' => hmem r' (mem_cons_of_mem _ hr')) hwalks.nodup
    refine ⟨ordered', ?_, hwalks.trans hwalks', fun r' hr' => ?_⟩
    · rw [foldlM_cons, hvisit]
      exact hrest
    · obtain rfl | hr' := mem_cons.1 hr'
      · obtain ⟨q, hq, heq⟩ := List.mem_map.1 (hthere.resolve_left not_mem_nil)
        exact List.mem_map.2 ⟨q, hwalks'.keeps q hq, heq⟩
      · exact hcovers r' hr'

section Order

variable (requests) (localeCompare : Utf16 → Utf16 → ℤ)

lemma order_walks : Walks requests [] (orderRequestsByOwnership requests localeCompare) ∧
      ∀ r ∈ requests, r.id ∈ (orderRequestsByOwnership requests localeCompare).map (·.id) := by
  obtain ⟨ordered, hfold, hwalks, hcovers⟩ :=
    visits_walk (requests.insertionSort fun left right => localeCompare left.id right.id ≤ 0) []
      (fun r hr => (mem_insertionSort _).1 hr) nodup_nil
  have heq : orderRequestsByOwnership requests localeCompare = ordered := by
    show Option.getD _ [] = ordered
    rw [hfold]
    rfl
  rw [heq]
  exact ⟨hwalks, fun r hr => hcovers r ((mem_insertionSort _).2 hr)⟩

lemma mem_of_mem_order (h : r ∈ orderRequestsByOwnership requests localeCompare) : r ∈ requests :=
  ((order_walks requests localeCompare).1.mem r h).resolve_left not_mem_nil

end Order

/-! ## The replicas of a plan -/

/-- The replicas of a plan, placed or not, each by its workload and its index. -/
def FabricPlacementPlan.entries (plan : FabricPlacementPlan) : List (Utf16 × ℕ) :=
  plan.replicas.map (fun p => (p.identity.workloadId, p.replicaIndex)) ++
    plan.unplaced.map fun u => (u.identity.workloadId, u.replicaIndex)

section Entries

variable (localeCompare : Utf16 → Utf16 → ℤ) (sortedNodes : List FabricNode)

variable (nodes : List FabricNode) (requests)

end Entries

end Zelavis.Fabric
