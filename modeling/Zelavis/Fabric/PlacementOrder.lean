import Zelavis.Fabric.PlacementPlan

/-!
# What a plan depends on

Over `core/fabric/index.ts` `planFabricProjectPlacements`: the order in which nodes and requests are given.
Both are sorted by `localeCompare`, which may find different identifiers alike, as those that are
canonically equivalent.
-/

namespace Zelavis.Fabric

open Lib List

/-! ## Sorting -/

section Sorting

variable {α : Type} {l l' c : List α}

lemma insertionSort_eq_of_perm {r : α → α → Prop} [DecidableRel r] [Std.Total r] [IsTrans α r]
    (h : l'.Perm l) (hanti : ∀ a ∈ l, ∀ b ∈ l, r a b → r b a → a = b) :
    l'.insertionSort r = l.insertionSort r := by
  have hperm : (l'.insertionSort r).Perm (l.insertionSort r) :=
    ((perm_insertionSort r l').trans h).trans (perm_insertionSort r l).symm
  refine hperm.eq_of_pairwise (fun a b ha hb => hanti a ?_ b ?_) (pairwise_insertionSort r l')
    (pairwise_insertionSort r l)
  · exact h.mem_iff.1 ((mem_insertionSort r).1 ha)
  · exact (mem_insertionSort r).1 hb

lemma filter_eq_of_sublist {p : α → Bool} (hl : l.Nodup) (hc : c.Sublist l)
    (hp : ∀ x ∈ l, p x = true ↔ x ∈ c) : l.filter p = c := by
  have hfilter : c.filter p = c := filter_eq_self.2 fun x hx => (hp x (hc.subset hx)).2 hx
  have hsub : c.Sublist (l.filter p) := by
    have h := hc.filter p
    rwa [hfilter] at h
  have hlength : (l.filter p).length ≤ c.length :=
    (subperm_of_subset (hl.filter p) fun x hx =>
      (hp x (mem_filter.1 hx).1).1 (mem_filter.1 hx).2).length_le
  exact (hsub.eq_of_length (le_antisymm hsub.length_le hlength)).symm

lemma exists_perm_pair [DecidableEq α] {a b : α} (ha : a ∈ l) (hb : b ∈ l) (hne : a ≠ b) :
    ∃ rest, (a :: b :: rest).Perm l ∧ (b :: a :: rest).Perm l := by
  have hb' : b ∈ l.erase a := (mem_erase_of_ne hne.symm).2 hb
  have hperm : (a :: b :: (l.erase a).erase b).Perm l :=
    (((perm_cons_erase ha).trans ((perm_cons_erase hb').cons a))).symm
  exact ⟨_, hperm, (List.Perm.swap a b _).trans hperm⟩

end Sorting

/-! ## What does not depend on the order -/

/-- What `localeCompare` is: an order of texts, in which different ones may be alike. -/
structure Collation (localeCompare : Utf16 → Utf16 → ℤ) : Prop where
  total : ∀ a b, localeCompare a b ≤ 0 ∨ localeCompare b a ≤ 0
  trans : ∀ a b c, localeCompare a b ≤ 0 → localeCompare b c ≤ 0 → localeCompare a c ≤ 0

def Apart (localeCompare : Utf16 → Utf16 → ℤ) (ids : List Utf16) : Prop :=
  ∀ a ∈ ids, ∀ b ∈ ids, localeCompare a b ≤ 0 → localeCompare b a ≤ 0 → a = b

/-- Two plans put the same replicas on the same nodes, and report the same ones as not placed. -/
structure SamePlacement (plan plan' : FabricPlacementPlan) : Prop where
  replicas : plan.replicas.Perm plan'.replicas
  unplaced : plan.unplaced.Perm plan'.unplaced

def OrderFree (localeCompare : Utf16 → Utf16 → ℤ) (nodes : List FabricNode)
    (requests : List FabricProjectPlacementRequest) : Prop :=
  ∀ nodes' requests', nodes'.Perm nodes → requests'.Perm requests →
    SamePlacement (planFabricProjectPlacements localeCompare nodes' requests')
      (planFabricProjectPlacements localeCompare nodes requests)

variable {localeCompare : Utf16 → Utf16 → ℤ} {nodes nodes' : List FabricNode}
  {requests requests' : List FabricProjectPlacementRequest}

lemma Collation.sort_eq {α : Type} {f : α → Utf16} {l l' : List α} (h : Collation localeCompare)
    (hinj : ∀ a ∈ l, ∀ b ∈ l, f a = f b → a = b) (hapart : Apart localeCompare (l.map f))
    (hperm : l'.Perm l) : l'.insertionSort (fun a b => localeCompare (f a) (f b) ≤ 0) =
      l.insertionSort fun a b => localeCompare (f a) (f b) ≤ 0 := by
  have htotal : Std.Total fun a b => localeCompare (f a) (f b) ≤ 0 := ⟨fun a b => h.total (f a) (f b)⟩
  have htrans : IsTrans α fun a b => localeCompare (f a) (f b) ≤ 0 :=
    ⟨fun a b c => h.trans (f a) (f b) (f c)⟩
  refine insertionSort_eq_of_perm hperm fun a ha b hb hab hba => hinj a ha b hb ?_
  exact hapart _ (List.mem_map_of_mem ha) _ (List.mem_map_of_mem hb) hab hba

lemma Agreeing.perm (h : Agreeing requests) (hperm : requests'.Perm requests) : Agreeing requests' :=
  fun r hr r' hr' => h r (hperm.mem_iff.1 hr) r' (hperm.mem_iff.1 hr')

lemma requestOf_eq_of_perm (h : Agreeing requests) (hperm : requests'.Perm requests) :
    requestOf requests' = requestOf requests := by
  funext id
  refine Option.ext fun r => ⟨fun hr => ?_, fun hr => ?_⟩
  · obtain ⟨hmem, rfl⟩ := requestOf_eq_some hr
    exact h.requestOf_eq (hperm.mem_iff.1 hmem)
  · obtain ⟨hmem, rfl⟩ := requestOf_eq_some hr
    exact (h.perm hperm).requestOf_eq (hperm.mem_iff.2 hmem)

section

variable (h : requestOf requests' = requestOf requests)
include h

lemma visit_congr (fuel : ℕ) :
    visit requests' fuel = visit requests fuel := by
  induction fuel with
  | zero => rfl
  | succ fuel ih =>
    simp only [visit, h, ih]

lemma hasOwnershipCycle_congr
    (hlength : requests'.length = requests.length) :
    hasOwnershipCycle requests' = hasOwnershipCycle requests := by
  unfold hasOwnershipCycle ownerOf
  rw [h, hlength]

lemma ownershipFailure_congr
    (hlength : requests'.length = requests.length) :
    ownershipFailure requests' = ownershipFailure requests := by
  unfold ownershipFailure
  rw [hasOwnershipCycle_congr h hlength]

end

lemma order_eq_of_perm (hcollation : Collation localeCompare) (h : (requests.map (·.id)).Nodup)
    (hapart : Apart localeCompare (requests.map (·.id))) (hperm : requests'.Perm requests) :
    orderRequestsByOwnership requests' localeCompare = orderRequestsByOwnership requests localeCompare := by
  have hagree := agreeing_of_nodup h
  unfold orderRequestsByOwnership
  rw [hcollation.sort_eq (fun a ha b hb => hagree a ha b hb) hapart hperm, hperm.length_eq,
    visit_congr (requestOf_eq_of_perm hagree hperm)]

lemma plan_eq_of_perm (hcollation : Collation localeCompare) (hnodes : (nodes.map (·.id)).Nodup)
    (hrequests : (requests.map (·.id)).Nodup) (hapart : Apart localeCompare (nodes.map (·.id)))
    (hapart' : Apart localeCompare (requests.map (·.id))) (hperm : nodes'.Perm nodes)
    (hperm' : requests'.Perm requests) : planFabricProjectPlacements localeCompare nodes' requests' =
      planFabricProjectPlacements localeCompare nodes requests := by
  have hof := requestOf_eq_of_perm (agreeing_of_nodup hrequests) hperm'
  have hsort := hcollation.sort_eq (fun a ha b hb => inj_on_of_nodup_map hnodes ha hb) hapart hperm
  have hrequest : ∀ sortedNodes, planRequest localeCompare sortedNodes requests' =
      planRequest localeCompare sortedNodes requests := fun sortedNodes => by
    unfold planRequest
    rw [ownershipFailure_congr hof hperm'.length_eq]
  unfold planFabricProjectPlacements
  rw [order_eq_of_perm hcollation hrequests hapart' hperm', hsort]
  dsimp only
  rw [hrequest]

/-! ## No nodes, or no requests -/

lemma perm_order (h : (requests.map (·.id)).Nodup) :
    (orderRequestsByOwnership requests localeCompare).Perm requests := by
  obtain ⟨hwalks, hcovers⟩ := order_walks requests localeCompare
  have hagree := agreeing_of_nodup h
  refine (perm_ext_iff_of_nodup hwalks.nodup.of_map h.of_map).2 fun r => ?_
  refine ⟨mem_of_mem_order requests localeCompare, fun hr => ?_⟩
  obtain ⟨q, hq, hid⟩ := List.mem_map.1 (hcovers r hr)
  obtain rfl : q = r := hagree q (mem_of_mem_order requests localeCompare hq) r hr hid
  exact hq

/-- The replicas of a request that are reported as not placed, with a reason. -/
def refusals (request : FabricProjectPlacementRequest) (reason : FabricUnplacedReplicaReason)
    (indices : List ℕ) : List FabricUnplacedProjectReplica :=
  indices.map fun i =>
    ⟨request.identity, request.projectKind, replicaIdOf request.id i, i, reason⟩

variable {r : FabricProjectPlacementRequest}

lemma foldl_refuse {reason : FabricUnplacedReplicaReason} (indices : List ℕ) (s : Planning) :
    indices.foldl (fun s => s.refuse r reason) s =
      { s with plan := { s.plan with unplaced := s.plan.unplaced ++ refusals r reason indices } } := by
  induction indices generalizing s with
  | nil => rw [foldl_nil, refusals, map_nil, append_nil]
  | cons i indices ih =>
    have hcons : refusals r reason (i :: indices) = refusals r reason [i] ++ refusals r reason indices := rfl
    rw [foldl_cons, ih, hcons, ← append_assoc]
    rfl

/-- Why the replicas of a request are not placed where there are no nodes. -/
def reasonWithoutNodes (requests : List FabricProjectPlacementRequest)
    (request : FabricProjectPlacementRequest) : FabricUnplacedReplicaReason :=
  request.owner.elim .noEligibleNode fun owner =>
    if hasOwnershipCycle requests owner then .ownerCycle else .ownerUnplaced

lemma planRequest_nil {s : Planning} (h : s.placedNodes = fun _ => [])
    (r : FabricProjectPlacementRequest) :
    planRequest localeCompare [] requests s r = { s with
        plan :=
          { s.plan with
            unplaced := s.plan.unplaced ++
              refusals r (reasonWithoutNodes requests r) (List.range (desiredReplicaCount r)) } } := by
  have hreplica : planReplica localeCompare (eligibleNodes [] r s.placedNodes) r =
      fun s => s.refuse r .noEligibleNode := rfl
  unfold planRequest reasonWithoutNodes
  rcases howner : r.owner with _ | owner
  · rw [Option.bind_none, Option.elim_none, ← foldl_refuse, hreplica]
  · have hfailure : ownershipFailure requests owner s.placedNodes =
        some (if hasOwnershipCycle requests owner then .ownerCycle else .ownerUnplaced) := by
      unfold ownershipFailure
      rw [h]
      by_cases hcycle : hasOwnershipCycle requests owner = true <;> simp [hcycle]
    rw [Option.bind_some, hfailure, Option.elim_some, ← foldl_refuse]

lemma planRequests_nil (todo : List FabricProjectPlacementRequest) {s : Planning}
    (h : s.placedNodes = fun _ => []) :
    (todo.foldl (planRequest localeCompare [] requests) s).plan = { s.plan with
        unplaced := s.plan.unplaced ++ todo.flatMap fun r =>
          refusals r (reasonWithoutNodes requests r) (List.range (desiredReplicaCount r)) } := by
  induction todo generalizing s with
  | nil => rw [foldl_nil, flatMap_nil, append_nil]
  | cons r todo ih =>
    rw [foldl_cons, planRequest_nil h, flatMap_cons, ← append_assoc]
    exact ih h

lemma orderFree_of_no_nodes (h : (requests.map (·.id)).Nodup) : OrderFree localeCompare [] requests := by
  intro nodes' requests' hperm hperm'
  obtain rfl := hperm.eq_nil
  have hids : (requests'.map (·.id)).Nodup := (hperm'.map (·.id)).nodup_iff.2 h
  have hplan : ∀ l, planFabricProjectPlacements localeCompare [] l =
      { unplaced := (orderRequestsByOwnership l localeCompare).flatMap fun r =>
          refusals r (reasonWithoutNodes l r) (List.range (desiredReplicaCount r)) } := fun l =>
    planRequests_nil _ rfl
  have hreason : reasonWithoutNodes requests' = reasonWithoutNodes requests := by
    unfold reasonWithoutNodes
    rw [hasOwnershipCycle_congr (requestOf_eq_of_perm (agreeing_of_nodup h) hperm') hperm'.length_eq]
  rw [hplan, hplan, hreason]
  refine ⟨List.Perm.refl _, List.Perm.flatMap_right _ ?_⟩
  exact ((perm_order hids).trans hperm').trans (perm_order h).symm

lemma orderFree_of_no_requests : OrderFree localeCompare nodes [] := by
  intro nodes' requests' _ hperm'
  obtain rfl := hperm'.eq_nil
  exact ⟨List.Perm.refl _, List.Perm.refl _⟩

lemma orderFree_of_apart (hcollation : Collation localeCompare) (hnodes : (nodes.map (·.id)).Nodup)
    (hrequests : (requests.map (·.id)).Nodup) (hapart : Apart localeCompare (nodes.map (·.id)))
    (hapart' : Apart localeCompare (requests.map (·.id))) : OrderFree localeCompare nodes requests := by
  intro nodes' requests' hperm hperm'
  rw [plan_eq_of_perm hcollation hnodes hrequests hapart hapart' hperm hperm']
  exact ⟨List.Perm.refl _, List.Perm.refl _⟩

/-! ## Requests without owners -/

def Lone (request : FabricProjectPlacementRequest) : Prop :=
  request.owner = none ∧ desiredReplicaCount request = 1

def isActive (sortedNodes : List FabricNode) (request : FabricProjectPlacementRequest) : Bool :=
  sortedNodes.any fun node => eligibleNode node request

variable {sortedNodes : List FabricNode}

lemma order_of_lone (h : (requests.map (·.id)).Nodup) (hlone : ∀ r ∈ requests, Lone r) :
    orderRequestsByOwnership requests localeCompare =
      requests.insertionSort fun left right => localeCompare left.id right.id ≤ 0 := by
  have hfold : ∀ (todo ordered : List FabricProjectPlacementRequest),
      ((ordered ++ todo).map (·.id)).Nodup → (∀ r ∈ todo, Lone r) →
        todo.foldlM (visit requests (requests.length + 1) []) ordered = some (ordered ++ todo) := by
    intro todo
    induction todo with
    | nil => intro ordered _ _; rw [append_nil]; rfl
    | cons r todo ih =>
      intro ordered hnodup hlone
      have hnew : r.id ∉ ordered.map (·.id) := by
        rw [map_append, nodup_append] at hnodup
        exact fun hmem => hnodup.2.2 _ hmem _ mem_cons_self rfl
      have hvisit : visit requests (requests.length + 1) [] ordered r = some (ordered ++ [r]) := by
        unfold visit
        rw [(hlone r mem_cons_self).1, if_neg (not_or.2 ⟨hnew, not_mem_nil⟩)]
        exact congrArg some (if_neg hnew)
      have hcons : ordered ++ r :: todo = (ordered ++ [r]) ++ todo := append_cons ..
      rw [hcons] at hnodup ⊢
      rw [foldlM_cons, hvisit]
      exact ih _ hnodup fun q hq => hlone q (mem_cons_of_mem _ hq)
  have hsorted : ((requests.insertionSort fun left right => localeCompare left.id right.id ≤ 0).map
      (·.id)).Nodup := ((perm_insertionSort _ _).map _).nodup_iff.2 h
  have hrun := hfold (requests.insertionSort fun left right => localeCompare left.id right.id ≤ 0) []
    hsorted fun r hr => hlone r ((mem_insertionSort _).1 hr)
  unfold orderRequestsByOwnership
  dsimp only
  rw [hrun]
  rfl

lemma planRequest_of_lone (hlone : Lone r) (s : Planning) :
    planRequest localeCompare sortedNodes requests s r =
      planReplica localeCompare (sortedNodes.filter fun node => eligibleNode node r) r s 0 := by
  unfold planRequest eligibleNodes
  rw [hlone.1, hlone.2]
  simp

/-- Two states that differ in what is not placed at most. -/
structure Alike (s s' : Planning) : Prop where
  replicas : s.plan.replicas = s'.plan.replicas
  usage : s.usage = s'.usage

variable {s s' : Planning}

lemma Alike.planReplica (h : Alike s s') (eligible : List FabricNode)
    (r : FabricProjectPlacementRequest) (i : ℕ) :
    Alike (planReplica localeCompare eligible r s i) (planReplica localeCompare eligible r s' i) := by
  unfold Fabric.planReplica
  rw [h.usage]
  cases selectNode localeCompare eligible s'.usage r with
  | none => exact ⟨h.replicas, h.usage⟩
  | some selected =>
    refine ⟨?_, ?_⟩
    · show s.plan.replicas ++ _ = s'.plan.replicas ++ _
      rw [h.replicas]
    · unfold Planning.place
      rw [h.usage]

lemma alike_planRequest (hlone : Lone r) (hidle : isActive sortedNodes r = false) (h : Alike s s') :
    Alike (planRequest localeCompare sortedNodes requests s r) s' := by
  have hnone : sortedNodes.filter (fun node => eligibleNode node r) = [] := by
    refine filter_eq_nil_iff.2 fun node hnode heligible => ?_
    exact Bool.eq_false_iff.1 hidle (List.any_eq_true.2 ⟨node, hnode, heligible⟩)
  rw [planRequest_of_lone hlone, hnone]
  exact ⟨h.replicas, h.usage⟩

lemma alike_planRequests (todo : List FabricProjectPlacementRequest) (hlone : ∀ r ∈ todo, Lone r)
    (h : Alike s s') : Alike (todo.foldl (planRequest localeCompare sortedNodes requests) s)
      ((todo.filter (isActive sortedNodes)).foldl (planRequest localeCompare sortedNodes requests) s') := by
  induction todo generalizing s s' with
  | nil => exact h
  | cons r todo ih =>
    have hr := hlone r mem_cons_self
    have hrest : ∀ q ∈ todo, Lone q := fun q hq => hlone q (mem_cons_of_mem _ hq)
    rw [foldl_cons, filter_cons]
    split
    case isTrue =>
      refine ih hrest ?_
      rw [planRequest_of_lone hr, planRequest_of_lone hr]
      exact h.planReplica _ r 0
    case isFalse hidle =>
      exact ih hrest (alike_planRequest hr (Bool.eq_false_iff.2 hidle) h)

lemma replicas_of_active {active : List FabricProjectPlacementRequest}
    (h : (requests.map (·.id)).Nodup) (hlone : ∀ r ∈ requests, Lone r) (hsub : active.Sublist requests)
    (hsorted : active.Pairwise fun left right => localeCompare left.id right.id ≤ 0)
    (hactive : ∀ r ∈ requests, isActive
      (nodes.insertionSort fun left right => localeCompare left.id right.id ≤ 0) r = true ↔ r ∈ active) :
    (planFabricProjectPlacements localeCompare nodes requests).replicas =
      (active.foldl (planRequest localeCompare
        (nodes.insertionSort fun left right => localeCompare left.id right.id ≤ 0) requests)
          {}).plan.replicas := by
  have hlone' : ∀ r ∈ requests.insertionSort fun left right => localeCompare left.id right.id ≤ 0,
      Lone r := fun r hr => hlone r ((mem_insertionSort _).1 hr)
  have hnodup : (requests.insertionSort fun left right => localeCompare left.id right.id ≤ 0).Nodup :=
    (perm_insertionSort _ _).nodup_iff.2 h.of_map
  have hfilter := filter_eq_of_sublist hnodup (sublist_insertionSort hsorted hsub)
    fun r hr => hactive r ((mem_insertionSort _).1 hr)
  unfold planFabricProjectPlacements
  rw [order_of_lone h hlone, ← hfilter]
  exact (alike_planRequests _ hlone' ⟨rfl, rfl⟩).replicas

/-! ## Identifiers that are alike -/

def workerAt (id : Utf16) : FabricNode := { id, status := .ready, roles := [.worker] }

def confinedTo (nodeIds : List Utf16) (id : Utf16) : FabricProjectPlacementRequest :=
  { identity := ⟨[], id⟩
    projectKind := []
    statelessRuntimeReplicas := false
    allowedNodeIds := some nodeIds }

lemma lone_confinedTo (nodeIds : List Utf16) (id : Utf16) : Lone (confinedTo nodeIds id) := ⟨rfl, rfl⟩

variable {nodeIds : List Utf16}

lemma eligibleNode_confinedTo {n id : Utf16} :
    eligibleNode (workerAt n) (confinedTo nodeIds id) = nodeIds.contains n := by
  simp [eligibleNode, workerAt, confinedTo, truthy]

lemma pair_sublist {α : Type} (a b : α) (l : List α) : [a, b].Sublist (a :: b :: l) :=
  ((nil_sublist l).cons_cons b).cons_cons a

lemma runtimeNodeIds_of_alike {a b w : Utf16} {ids ws : List Utf16}
    {rest : List FabricNode} (hallowed : ∀ x, x ∈ ids ↔ x = a ∨ x = b) (hab : localeCompare a b ≤ 0)
    (hw : (w :: ws).Nodup) (hnodes : (workerAt a :: workerAt b :: rest).Nodup) (hworker : ∀ n ∈ rest, n = workerAt n.id) :
    (planFabricProjectPlacements localeCompare (workerAt a :: workerAt b :: rest)
      (confinedTo ids w :: ws.map (confinedTo []))).replicas.map (·.runtimeNodeId) = [a] := by
  have hall : ∀ n ∈ workerAt a :: workerAt b :: rest, n = workerAt n.id := by
    intro n hn
    obtain rfl | hn := mem_cons.1 hn
    · rfl
    · obtain rfl | hn := mem_cons.1 hn
      · rfl
      · exact hworker n hn
  have hsorted : [workerAt a, workerAt b].Sublist ((workerAt a :: workerAt b :: rest).insertionSort
      fun left right => localeCompare left.id right.id ≤ 0) :=
    pair_sublist_insertionSort hab (pair_sublist _ _ _)
  have hids : ((confinedTo ids w :: ws.map (confinedTo [])).map (·.id)).Nodup := by
    have hmap : (confinedTo ids w :: ws.map (confinedTo [])).map (·.id) = w :: ws := by
      rw [map_cons, List.map_map]
      exact congrArg (w :: ·) (List.map_id ws)
    rw [hmap]
    exact hw
  have hlone : ∀ r ∈ confinedTo ids w :: ws.map (confinedTo []), Lone r := by
    intro r hr
    obtain rfl | hr := mem_cons.1 hr
    · exact lone_confinedTo _ _
    · obtain ⟨x, -, rfl⟩ := List.mem_map.1 hr
      exact lone_confinedTo _ _
  have hactive : ∀ r ∈ confinedTo ids w :: ws.map (confinedTo []),
      isActive ((workerAt a :: workerAt b :: rest).insertionSort fun left right =>
        localeCompare left.id right.id ≤ 0) r = true ↔ r ∈ [confinedTo ids w] := by
    intro r hr
    rw [mem_singleton]
    obtain rfl | hr := mem_cons.1 hr
    · refine ⟨fun _ => rfl, fun _ => List.any_eq_true.2 ⟨workerAt a, hsorted.subset ?_, ?_⟩⟩
      · exact mem_cons_self
      · rw [eligibleNode_confinedTo]
        exact contains_iff_mem.2 ((hallowed a).2 (.inl rfl))
    · obtain ⟨x, -, rfl⟩ := List.mem_map.1 hr
      refine ⟨fun h => ?_, fun h => ?_⟩
      · obtain ⟨n, hn, heligible⟩ := List.any_eq_true.1 h
        rw [hall n ((mem_insertionSort _).1 hn), eligibleNode_confinedTo] at heligible
        cases heligible
      · have hnone : some [] = some ids := congrArg FabricProjectPlacementRequest.allowedNodeIds h
        cases hnone
        exact absurd ((hallowed a).2 (.inl rfl)) not_mem_nil
  have heligible : ((workerAt a :: workerAt b :: rest).insertionSort fun left right =>
      localeCompare left.id right.id ≤ 0).filter (fun node => eligibleNode node (confinedTo ids w)) =
        [workerAt a, workerAt b] := by
    refine filter_eq_of_sublist ((perm_insertionSort _ _).nodup_iff.2 hnodes) hsorted fun n hn => ?_
    rw [hall n ((mem_insertionSort _).1 hn), eligibleNode_confinedTo,
      contains_iff_mem, hallowed n.id, mem_cons, mem_singleton]
    simp [workerAt]
  have hselect : selectNode localeCompare [workerAt a, workerAt b] (fun _ => {}) (confinedTo ids w) =
      some (workerAt a) := by
    simp [selectNode, hasCapacity, workerAt, before, nodeScore, hab]
  rw [replicas_of_active hids hlone ((nil_sublist _).cons_cons _) (pairwise_singleton _ _)
    hactive, foldl_cons, foldl_nil, planRequest_of_lone (lone_confinedTo _ _), heligible]
  unfold planReplica
  rw [hselect]
  rfl

def coreAt (id n : Utf16) : FabricNode :=
  { id := n
    status := if n = id then .ready else .draining
    roles := [.worker]
    capacity := { cpuCores := some 1 } }

def coreFor (p q id : Utf16) : FabricProjectPlacementRequest :=
  { identity := ⟨[], id⟩
    projectKind := []
    statelessRuntimeReplicas := false
    resources := { cpuCores := some 1 }
    allowedNodeIds := if id = p ∨ id = q then none else some [] }

lemma lone_coreFor (p q id : Utf16) : Lone (coreFor p q id) := ⟨rfl, rfl⟩

lemma eligibleNode_coreFor {p q id n m : Utf16} :
    eligibleNode (coreAt n m) (coreFor p q id) = decide (m = n ∧ (id = p ∨ id = q)) := by
  by_cases hm : m = n <;> by_cases hid : id = p ∨ id = q <;>
    simp [eligibleNode, coreAt, coreFor, truthy, hm, hid]

/-- Of two workloads that are alike and do not both have room, the one that is given first is placed. -/
theorem workloadIds_of_alike {p q n : Utf16} {ids rest : List Utf16} (hpq : localeCompare p q ≤ 0)
    (hn : n ∈ ids) (hids : ids.Nodup) (hrequests : (p :: q :: rest).Nodup) :
    (planFabricProjectPlacements localeCompare (ids.map (coreAt n))
      ((p :: q :: rest).map (coreFor p q))).replicas.map (·.identity.workloadId) = [p] := by
  have hmap : ((p :: q :: rest).map (coreFor p q)).map (·.id) = p :: q :: rest := by
    rw [List.map_map]
    exact List.map_id _
  have hlone : ∀ r ∈ (p :: q :: rest).map (coreFor p q), Lone r := by
    intro r hr
    obtain ⟨x, -, rfl⟩ := List.mem_map.1 hr
    exact lone_coreFor p q x
  have hnodes : (ids.map (coreAt n)).Nodup :=
    hids.map fun x y h => congrArg FabricNode.id h
  have hmem : coreAt n n ∈ (ids.map (coreAt n)).insertionSort fun left right =>
      localeCompare left.id right.id ≤ 0 :=
    (mem_insertionSort _).2 (List.mem_map_of_mem hn)
  have heligible : ∀ x, x = p ∨ x = q → ((ids.map (coreAt n)).insertionSort fun left right =>
      localeCompare left.id right.id ≤ 0).filter (fun node => eligibleNode node (coreFor p q x)) =
        [coreAt n n] := by
    intro x hx
    refine filter_eq_of_sublist ((perm_insertionSort _ _).nodup_iff.2 hnodes)
      (singleton_sublist.2 hmem) fun node hnode => ?_
    obtain ⟨m, -, rfl⟩ := List.mem_map.1 ((mem_insertionSort _).1 hnode)
    rw [eligibleNode_coreFor, decide_eq_true_eq, mem_singleton]
    refine ⟨fun h => by rw [h.1], fun h => ⟨congrArg FabricNode.id h, hx⟩⟩
  have hactive : ∀ r ∈ (p :: q :: rest).map (coreFor p q),
      isActive ((ids.map (coreAt n)).insertionSort fun left right =>
        localeCompare left.id right.id ≤ 0) r = true ↔ r ∈ [coreFor p q p, coreFor p q q] := by
    intro r hr
    obtain ⟨x, -, rfl⟩ := List.mem_map.1 hr
    rw [mem_cons, mem_singleton]
    refine ⟨fun h => ?_, fun h => List.any_eq_true.2 ⟨coreAt n n, hmem, ?_⟩⟩
    · obtain ⟨node, hnode, hnode'⟩ := List.any_eq_true.1 h
      obtain ⟨m, -, rfl⟩ := List.mem_map.1 ((mem_insertionSort _).1 hnode)
      rw [eligibleNode_coreFor, decide_eq_true_eq] at hnode'
      exact hnode'.2.imp (congrArg _) (congrArg _)
    · rw [eligibleNode_coreFor, decide_eq_true_eq]
      exact ⟨rfl, h.imp (congrArg FabricProjectPlacementRequest.id)
        (congrArg FabricProjectPlacementRequest.id)⟩
  have hplaced : planReplica localeCompare [coreAt n n] (coreFor p q p) {} 0 =
      Planning.place {} (coreFor p q p) 0 (coreAt n n) := by
    have hselect : selectNode localeCompare [coreAt n n] (fun _ => {}) (coreFor p q p) =
        some (coreAt n n) := by
      simp [selectNode, hasCapacity, coreAt, coreFor, amount]
    unfold planReplica
    rw [hselect]
  have hrefused : (planReplica localeCompare [coreAt n n] (coreFor p q q)
      (Planning.place {} (coreFor p q p) 0 (coreAt n n)) 0).plan.replicas =
        (Planning.place {} (coreFor p q p) 0 (coreAt n n)).plan.replicas := by
    have hselect : selectNode localeCompare [coreAt n n]
        (Planning.place {} (coreFor p q p) 0 (coreAt n n)).usage (coreFor p q q) = none := by
      simp [selectNode, hasCapacity, coreAt, coreFor, amount, Planning.place]
    unfold planReplica
    rw [hselect]
    rfl
  rw [replicas_of_active (by rw [hmap]; exact hrequests) hlone (pair_sublist _ _ _)
    (pairwise_pair.2 hpq) hactive, foldl_cons, foldl_cons, foldl_nil,
    planRequest_of_lone (lone_coreFor _ _ _), planRequest_of_lone (lone_coreFor _ _ _),
    heligible p (.inl rfl), heligible q (.inr rfl), hplaced, hrefused]
  rfl

/-! ## Both directions -/

lemma apart_of_orderFree_nodes {w : Utf16} {ws : List Utf16} (hnodes : nodeIds.Nodup) (hw : (w :: ws).Nodup)
    (h : ∀ nodes requests, nodes.map (·.id) = nodeIds → requests.map (·.id) = w :: ws →
      OrderFree localeCompare nodes requests) : Apart localeCompare nodeIds := by
  intro a ha b hb hab hba
  by_contra hne
  have hinj : Function.Injective workerAt := fun x y hxy => congrArg FabricNode.id hxy
  have hnodup : (nodeIds.map workerAt).Nodup := hnodes.map hinj
  obtain ⟨rest, hfirst, hsecond⟩ := exists_perm_pair (List.mem_map_of_mem (f := workerAt) ha)
    (List.mem_map_of_mem hb) fun heq => hne (hinj heq)
  have hworker : ∀ n ∈ rest, n = workerAt n.id := by
    intro n hn
    obtain ⟨x, -, rfl⟩ := List.mem_map.1 (hfirst.mem_iff.1 (mem_cons_of_mem _
      (mem_cons_of_mem _ hn)))
    rfl
  have hfree : OrderFree localeCompare (nodeIds.map workerAt)
      (confinedTo [a, b] w :: ws.map (confinedTo [])) := by
    refine h _ _ ?_ ?_
    · rw [List.map_map]
      exact List.map_id _
    · rw [map_cons, List.map_map]
      exact congrArg (w :: ·) (List.map_id ws)
  have hfirst' := ((hfree _ _ hfirst (List.Perm.refl _)).replicas).map (·.runtimeNodeId)
  have hsecond' := ((hfree _ _ hsecond (List.Perm.refl _)).replicas).map (·.runtimeNodeId)
  rw [runtimeNodeIds_of_alike (fun x => by simp) hab hw (hfirst.nodup_iff.2 hnodup) hworker] at hfirst'
  rw [runtimeNodeIds_of_alike (fun x => by simp [or_comm]) hba hw (hsecond.nodup_iff.2 hnodup)
    hworker] at hsecond'
  have heq := perm_singleton.1 (hfirst'.trans hsecond'.symm)
  cases heq
  exact hne rfl

lemma apart_of_orderFree_requests {workloadIds : List Utf16} {n : Utf16} {ns : List Utf16}
    (hnodes : (n :: ns).Nodup) (hworkloads : workloadIds.Nodup)
    (h : ∀ nodes requests, nodes.map (·.id) = n :: ns → requests.map (·.id) = workloadIds →
      OrderFree localeCompare nodes requests) : Apart localeCompare workloadIds := by
  intro p hp q hq hpq hqp
  by_contra hne
  obtain ⟨rest, hfirst, hsecond⟩ := exists_perm_pair hp hq hne
  have hcore : coreFor q p = coreFor p q := by
    unfold coreFor
    simp only [or_comm]
  have hfree : OrderFree localeCompare ((n :: ns).map (coreAt n)) (workloadIds.map (coreFor p q)) := by
    refine h _ _ ?_ ?_
    · rw [List.map_map]
      exact List.map_id _
    · rw [List.map_map]
      exact List.map_id _
  have hfirst' := ((hfree _ _ (List.Perm.refl _) (hfirst.map _)).replicas).map
    (·.identity.workloadId)
  have hsecond' := ((hfree _ _ (List.Perm.refl _) (hsecond.map _)).replicas).map
    (·.identity.workloadId)
  rw [workloadIds_of_alike hpq mem_cons_self hnodes (hfirst.nodup_iff.2 hworkloads)] at hfirst'
  rw [← hcore, workloadIds_of_alike hqp mem_cons_self hnodes (hsecond.nodup_iff.2 hworkloads),
    hcore] at hsecond'
  have heq := perm_singleton.1 (hfirst'.trans hsecond'.symm)
  cases heq
  exact hne rfl

/-- Whatever the nodes and requests with given identifiers are, their order does not matter, exactly where
`localeCompare` tells the identifiers of the nodes apart, and those of the workloads, unless there is
nothing of the other kind. -/
theorem orderFree_iff (hcollation : Collation localeCompare) {nodeIds workloadIds : List Utf16}
    (hnodes : nodeIds.Nodup) (hworkloads : workloadIds.Nodup) :
    (∀ nodes requests, nodes.map (·.id) = nodeIds → requests.map (·.id) = workloadIds →
      OrderFree localeCompare nodes requests) ↔ (workloadIds = [] ∨ Apart localeCompare nodeIds) ∧
      (nodeIds = [] ∨ Apart localeCompare workloadIds) := by
  constructor
  · intro h
    refine ⟨?_, ?_⟩
    · cases workloadIds with
      | nil => exact .inl rfl
      | cons w ws => exact .inr (apart_of_orderFree_nodes hnodes hworkloads h)
    · cases nodeIds with
      | nil => exact .inl rfl
      | cons n ns => exact .inr (apart_of_orderFree_requests hnodes hworkloads h)
  · rintro ⟨hnode, hworkload⟩ nodes requests rfl rfl
    obtain hnil | hnode := hnode
    · rw [List.map_eq_nil_iff.1 hnil]
      exact orderFree_of_no_requests
    · obtain hnil | hworkload := hworkload
      · rw [List.map_eq_nil_iff.1 hnil]
        exact orderFree_of_no_nodes hworkloads
      · exact orderFree_of_apart hcollation hnodes hworkloads hnode hworkload

/-! ## One name, spelled in two ways -/

/-- A text with each e with an acute accent taken apart, as canonically equivalent texts are compared. -/
def takenApart (text : Utf16) : Utf16 :=
  text.flatMap fun unit => if unit = 0xe9 then [0x65, 0x301] else [unit]

def compareTakenApart (left right : Utf16) : ℤ :=
  if takenApart left ≤ takenApart right then (if takenApart right ≤ takenApart left then 0 else -1)
  else 1

lemma compareTakenApart_le {left right : Utf16} :
    compareTakenApart left right ≤ 0 ↔ takenApart left ≤ takenApart right := by
  unfold compareTakenApart
  split_ifs with h h'
  · exact ⟨fun _ => h, fun _ => le_rfl⟩
  · exact ⟨fun _ => h, fun _ => by decide⟩
  · exact ⟨fun hle => absurd hle (by decide), fun hle => absurd hle h⟩

lemma collation_compareTakenApart : Collation compareTakenApart where
  total a b := by
    rw [compareTakenApart_le, compareTakenApart_le]
    exact le_total _ _
  trans a b c := by
    rw [compareTakenApart_le, compareTakenApart_le, compareTakenApart_le]
    exact le_trans

/-- The planner on two nodes and a workload whose names are told apart. -/
theorem orderFree_plainNames :
    (∀ nodes requests, nodes.map (·.id) = [utf16 "a", utf16 "b"] → requests.map (·.id) = [utf16 "shop"] →
      OrderFree compareTakenApart nodes requests) ↔
    ([utf16 "shop"] = [] ∨ Apart compareTakenApart [utf16 "a", utf16 "b"]) ∧
      ([utf16 "a", utf16 "b"] = [] ∨ Apart compareTakenApart [utf16 "shop"]) :=
  orderFree_iff collation_compareTakenApart (by decide) (by decide)

/-- Two nodes whose names are one name, spelled in two ways: the one that is given first is chosen. -/
theorem not_orderFree : ¬∀ nodes requests, (nodes.map FabricNode.id).Nodup →
    (requests.map FabricProjectPlacementRequest.id).Nodup → OrderFree compareTakenApart nodes requests := by
  intro h
  have hsame := (h [workerAt [0xe9], workerAt [0x65, 0x301]] [confinedTo [[0xe9], [0x65, 0x301]]
    (utf16 "shop")] (by decide) (by decide) [workerAt [0x65, 0x301], workerAt [0xe9]] _
      (List.Perm.swap _ _ _) (List.Perm.refl _)).replicas
  revert hsame
  decide +kernel

end Zelavis.Fabric
