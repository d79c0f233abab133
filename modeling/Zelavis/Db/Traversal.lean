import Zelavis.Db.EditDistance
import Zelavis.Db.Links
import Zelavis.Lib.BreadthFirst
import Mathlib.Algebra.Order.Floor.Semiring
import Mathlib.Data.Rat.Floor

/-!
# Traversal

`documents.ts` `traverse`: a breadth-first search along one declared edge, that reads the neighbours of a
document with the linked reads of `findDocuments`.
-/

namespace Zelavis.Db

open Lib Lib.BreadthFirst List

/-! ## Reads narrowed by filters -/

/-- The clause a filter becomes, if a lens can answer it. Source: `planQuery`, the body of
the loop. -/
def clauseOf (tenant : TenantId) (collection : Utf16) (filter : DocumentFilter) : Option Query :=
  let column := columnFor tenant collection filter.path
  let scalar := orderable (some filter.value)
  match filter.op with
  | .eq => scalar.map (.equals column)
  | .among =>
    match filter.value with
    | .array [] => none
    | .array members => (members.mapM fun member => orderable (some member)).map fun values =>
        .or (values.map (.equals column))
    | _ => none
  | .gt => scalar.map fun value => .range column (some ⟨value, false⟩) none
  | .gte => scalar.map fun value => .range column (some ⟨value, true⟩) none
  | .lt => scalar.map fun value => .range column none (some ⟨value, false⟩)
  | .lte => scalar.map fun value => .range column none (some ⟨value, true⟩)
  | .ne => none

/-- A read as it is planned. Source: `Plan`. -/
structure Plan where
  query : Query
  fields : Option Query
  residual : List DocumentFilter

def planQuery (tenant : TenantId) (collection : Utf16) («where» : List DocumentFilter) : Plan :=
  let fields := match «where».filterMap (clauseOf tenant collection) with
    | [] => none
    | [clause] => some clause
    | clauses => some (.and clauses)
  { query := fields.getD (.equals (collectionColumn tenant) (.string collection))
    fields
    residual := «where».filter fun filter => (clauseOf tenant collection filter).isNone }

/-- A plan narrowed by the clause of a link. Source: `withLink`, what it returns. -/
def Plan.narrowed (plan : Plan) (clause : Query) : Plan where
  query := .and [plan.query, clause]
  fields := some (plan.fields.elim clause fun fields => .and [fields, clause])
  residual := plan.residual

section

variable (t : TenantId) (o : Objects Record)

/-- The documents of a plan, in the order of their identifiers. Source: `findDocuments`, its
last loop. -/
def candidates (plan : Plan) : List Document :=
  ((o.resolve plan.query).filterMap (readDocument o)).filter fun doc =>
    plan.residual.all («matches» doc.data)

/-- A read with filters and a link. Source: `findDocuments`. -/
def findDocuments (collection : Utf16) («where» : List DocumentFilter) (linked : Option LinkFilter) :
    Except UnknownEdge (List Document) :=
  let plan := planQuery t collection «where»
  match linked with
  | none => .ok (candidates o plan)
  | some filter =>
    match withLink t o collection filter with
    | .error fault => .error fault
    | .ok none => .ok []
    | .ok (some clause) => .ok (candidates o (plan.narrowed clause))

end

/-! ## The traversal -/

/-- Which way a traversal follows its edge. Source: `TraverseInput`. -/
inductive TraverseDirection where
  | outbound
  | inbound
  | both
  deriving DecidableEq

structure TraverseInput where
  collection : Utf16
  edgeCollection : Option Utf16 := none
  id : Utf16
  edge : Utf16
  direction : TraverseDirection := .outbound
  maxDepth : Option Bound := none
  maxVisits : Option Bound := none
  «where» : List DocumentFilter := []

structure TraverseStep where
  document : Document
  depth : ℕ

structure TraverseResult where
  documents : List Document
  steps : List TraverseStep
  visited : ℕ
  maxDepthReached : ℕ

/-- `Math.max(1, Math.min(x ?? default, most))`. -/
def clamped (x : Option Bound) (default most : ℕ) : Bound :=
  (x.getD (some (toNumber default))).map fun v => max (toNumber 1) (min v (toNumber most))

/-- `n < bound`. -/
def below (n : ℕ) : Bound → Bool
  | none => false
  | some v => toNumber n < v

/-- The first count that is not below a number: what a count is compared with. -/
def ceiling : WithBot (WithTop ℚ) → ℕ
  | some (some q) => ⌈q⌉₊
  | _ => 0

/-- The depth a traversal keeps to. Nothing is below `NaN` or at least it, so then the first document is
asked for its neighbours and none of these. -/
def depthLimit (input : TraverseInput) : ℕ := (clamped input.maxDepth 1 20).elim 1 ceiling

def visitLimit (input : TraverseInput) : ℕ := (clamped input.maxVisits 100 1000).elim 0 ceiling

def nodeOf (doc : Document) : Utf16 × Utf16 := (doc.collection, doc.id)

section

variable (t : TenantId) (o : Objects Record)

def traversedEdge (input : TraverseInput) : Except UnknownEdge (Utf16 × EdgeDefinition) :=
  let declaring := input.edgeCollection.getD input.collection
  match (edgesOf t o declaring).find? fun candidate => candidate.name = input.edge with
  | some declared => .ok (declaring, declared)
  | none =>
    if input.edgeCollection = none then
      match (edgesOf t o input.collection).find? fun candidate => candidate.name = input.edge with
      | some declared => .ok (input.collection, declared)
      | none => .error ⟨declaring, input.edge⟩
    else .error ⟨declaring, input.edge⟩

/-- The documents next to one. Source: `traverse`, `currentStepDocs`. -/
def neighbours (input : TraverseInput) (declaring target : Utf16) (current : Utf16 × Utf16) :
    Except UnknownEdge (List Document) :=
  let outDocs :=
    if input.direction ≠ .inbound ∧ current.1 = declaring then
      findDocuments t o target input.where
        (some { collection := declaring, id := current.2, edge := input.edge, direction := .outbound })
    else .ok []
  let inDocs :=
    if input.direction ≠ .outbound ∧ current.1 = target then
      findDocuments t o declaring input.where
        (some { collection := declaring, id := current.2, edge := input.edge, direction := .inbound })
    else .ok []
  match outDocs, inDocs with
  | .error fault, _ => .error fault
  | _, .error fault => .error fault
  | .ok outDocs, .ok inDocs => .ok (outDocs ++ inDocs)

/-- A traversal; nothing where the loop goes on for longer than the bounds allow. Source: `traverse`. -/
def traverse (input : TraverseInput) : Option (Except UnknownEdge TraverseResult) :=
  match traversedEdge t o input with
  | .error fault => some (.error fault)
  | .ok (declaring, declared) =>
    match o.lookup (documentNs t input.collection) input.id with
    | none => some (.ok ⟨[], [], 0, 0⟩)
    | some _ =>
      let key := fun at' : Utf16 × Utf16 => nameOf at'.1 at'.2
      let searched := loop nodeOf key (neighbours t o input declaring declared.collection)
        (depthLimit input) (visitLimit input) (visitLimit input + 2)
        (.first key (input.collection, input.id))
      searched.map fun result => result.map fun s =>
        { documents := s.steps.map Prod.fst
          steps := s.steps.map fun step => ⟨step.1, step.2⟩
          visited := s.steps.length
          maxDepthReached := s.deepest }

end

/-! ## What a read finds -/

variable {x : Document} {clause : Query} {s : Seq} {plan : Plan}

section

variable {t : TenantId} {o : Objects Record} {c : Utf16} {filters : List DocumentFilter}

/-- A document the filters admit: a read of its collection with them answers it. -/
def Admitted (t : TenantId) (o : Objects Record) (filters : List DocumentFilter) (x : Document) : Prop :=
  x ∈ candidates o (planQuery t x.collection filters)

lemma mem_candidates : x ∈ candidates o plan ↔ (∃ s ∈ o.resolve plan.query, readDocument o s = some x) ∧
      plan.residual.all («matches» x.data) = true := by
  rw [candidates, mem_filter, mem_filterMap]

lemma column_of_clauseOf {filter : DocumentFilter} (h : clauseOf t c filter = some clause)
    {M : Manifests} (hs : clause.Satisfies M s) :
    ∃ man ∈ M s, ∃ v, (columnFor t c filter.path, v) ∈ man.columns := by
  unfold clauseOf at h
  split at h
  case h_2 =>
    split at h
    · cases h
    · obtain ⟨values, -, rfl⟩ := Option.map_eq_some_iff.1 h
      obtain ⟨q, hq, hs⟩ := Query.satisfies_or.1 hs
      obtain ⟨value, -, rfl⟩ := List.mem_map.1 hq
      obtain ⟨man, hman, v, hmem, -⟩ := hs
      exact ⟨man, hman, v, hmem⟩
    · cases h
  case h_7 => cases h
  all_goals
    obtain ⟨value, -, rfl⟩ := Option.map_eq_some_iff.1 h
    obtain ⟨man, hman, v, hmem, -⟩ := hs
    exact ⟨man, hman, v, hmem⟩

lemma OrderedScalar.same_refl (v : OrderedScalar) : v.same v := by
  cases v <;> rfl

lemma docAt_of_plan (ho : Kept o) (ht : TenantOk t) (hc : isName c = true)
    (hs : s ∈ o.resolve (planQuery t c filters).query) (hread : readDocument o s = some x) :
    docAt t o s = some x ∧ x.collection = c := by
  have hfound : (∃ d, docAt t o s = some d ∧ d.collection = c) → docAt t o s = some x ∧ x.collection = c := by
    rintro ⟨d, hd, hcol⟩
    have hsame := readDocument_of_docAt hd
    rw [hread] at hsame
    cases hsame
    exact ⟨hd, hcol⟩
  -- a clause of a filter leads to a column of the collection
  have hclause : ∀ clause ∈ filters.filterMap (clauseOf t c), clause.Satisfies o.manifests s →
      ∃ d, docAt t o s = some d ∧ d.collection = c := by
    intro clause hclause hsat
    obtain ⟨filter, -, hof⟩ := mem_filterMap.1 hclause
    obtain ⟨man, hman, v, hmem⟩ := column_of_clauseOf hof hsat
    obtain ⟨hheld, -⟩ := Objects.mem_resolve.1 hs
    exact ho.docAt_of_column ht hc
      (Objects.mem_resolve.2 ⟨hheld, man, hman, v, hmem, OrderedScalar.same_refl v⟩)
  obtain ⟨-, hsat⟩ := Objects.mem_resolve.1 hs
  unfold planQuery at hsat
  split at hsat
  next =>
    rcases ho.docAt_of_marked hsat with hd | ⟨-, hnone⟩
    · exact hfound hd
    · rw [hread] at hnone
      cases hnone
  next clause hone => exact hfound (hclause clause (by rw [hone]; exact mem_singleton_self _) hsat)
  next clauses hnil _ =>
    obtain ⟨hne, hall⟩ := Query.satisfies_and.1 hsat
    obtain ⟨clause, hmem⟩ := exists_mem_of_ne_nil _ hne
    exact hfound (hclause clause hmem (hall clause hmem))

lemma mem_resolve_narrowed : s ∈ o.resolve (plan.narrowed clause).query ↔
      s ∈ o.resolve plan.query ∧ clause.Satisfies o.manifests s := by
  rw [Objects.mem_resolve, Objects.mem_resolve, and_assoc]
  refine and_congr_right fun _ => ?_
  rw [Plan.narrowed, Query.satisfies_and]
  simp

lemma mem_narrowed (ho : Kept o) (ht : TenantOk t) (hc : isName c = true)
    : x ∈ candidates o ((planQuery t c filters).narrowed clause) ↔ x.collection = c ∧ Admitted t o filters x ∧
        ∃ s, docAt t o s = some x ∧ clause.Satisfies o.manifests s := by
  rw [mem_candidates]
  constructor
  · rintro ⟨⟨s, hs, hread⟩, hresidual⟩
    obtain ⟨hs, hclause⟩ := mem_resolve_narrowed.1 hs
    obtain ⟨hd, rfl⟩ := docAt_of_plan ho ht hc hs hread
    exact ⟨rfl, mem_candidates.2 ⟨⟨s, hs, hread⟩, hresidual⟩, s, hd, hclause⟩
  · rintro ⟨rfl, hadmitted, s, hd, hclause⟩
    obtain ⟨⟨s', hs', hread⟩, hresidual⟩ := mem_candidates.1 hadmitted
    obtain ⟨hd', -⟩ := docAt_of_plan ho ht hc hs' hread
    obtain rfl := ho.docAt_inj ht hd hd' rfl rfl
    exact ⟨⟨s, mem_resolve_narrowed.2 ⟨hs', hclause⟩, hread⟩, hresidual⟩

end

/-! ## The graph -/

section

variable (t : TenantId) (o : Objects Record)

/-- An edge that a document is stored with, to a document of the edge's target. -/
structure EdgeTo (declaring : Utf16) (e : EdgeDefinition) (q : Seq) (d : Document) (s : Seq) (x : Document) :
    Prop where
  source : d.collection = declaring
  target : x.collection = e.collection
  stored : (edgeTypeFor declaring e.name, s) ∈ targetsOf o q

/-- One step of a traversal: along an edge, in a direction it follows, to a document its filters admit. -/
def Steps (input : TraverseInput) (declaring : Utf16) (e : EdgeDefinition) (u : Utf16 × Utf16)
    (x : Document) : Prop :=
  ∃ q d s, docAt t o q = some d ∧ nodeOf d = u ∧ docAt t o s = some x ∧ Admitted t o input.where x ∧
    (input.direction ≠ .inbound ∧ EdgeTo o declaring e q d s x ∨
      input.direction ≠ .outbound ∧ EdgeTo o declaring e s x q d)

/-- The graph that a traversal goes through, between the names of documents. -/
def LeadsTo (input : TraverseInput) (declaring : Utf16) (e : EdgeDefinition) (u v : Utf16 × Utf16) : Prop :=
  ∃ x, Steps t o input declaring e u x ∧ nodeOf x = v

end

section

variable {t : TenantId} {o : Objects Record} {input : TraverseInput} {declaring : Utf16} {e : EdgeDefinition}

lemma find_of_traversedEdge (h : traversedEdge t o input = .ok (declaring, e)) :
    ((edgesOf t o declaring).find? fun candidate => candidate.name = input.edge) = some e := by
  unfold traversedEdge at h
  dsimp only at h
  split at h
  next declared hfind =>
    cases h
    exact hfind
  next =>
    split_ifs at h
    split at h
    next declared hfind =>
      cases h
      exact hfind
    next => cases h

variable (ho : Kept o) (ht : TenantOk t)
  (hedge : ((edgesOf t o declaring).find? fun candidate => candidate.name = input.edge) = some e)

include ho ht hedge

lemma findDocuments_eq {c id holding : Utf16} (hc : isName c = true) (direction : EdgeDirection)
    (hholding : holding = match direction with
      | .inbound => e.collection
      | .outbound => declaring) :
    ∃ found, findDocuments t o c input.where
        (some { collection := declaring, id, edge := input.edge, direction }) = .ok found ∧
      ∀ x, x ∈ found ↔ x.collection = c ∧ Admitted t o input.where x ∧
        ∃ q d s, docAt t o q = some d ∧ nodeOf d = (holding, id) ∧ docAt t o s = some x ∧
          (Query.edge (edgeTypeFor declaring e.name) q direction).Satisfies o.manifests s := by
  have hname : e.name = input.edge := by simpa using List.find?_some hedge
  have hwith : withLink t o c { collection := declaring, id, edge := input.edge, direction } =
      .ok ((o.lookup (documentNs t holding) id).map fun seq =>
        .edge (edgeTypeFor declaring input.edge) seq direction) := by
    unfold withLink declaredEdge
    dsimp only [Option.getD_some]
    rw [hedge, hholding] <;> rfl
  unfold findDocuments
  dsimp only
  rw [hwith]
  cases hlookup : o.lookup (documentNs t holding) id with
  | none =>
    refine ⟨[], rfl, fun x => iff_of_false not_mem_nil ?_⟩
    rintro ⟨-, -, q, d, -, hd, hnode, -⟩
    obtain ⟨hcol, hid⟩ := Prod.mk.inj hnode
    have hnamed := (ho.named_iff ht).2 ⟨d, hd, hcol, hid⟩
    unfold Objects.lookup at hlookup
    rw [hnamed] at hlookup
    cases hlookup
  | some q =>
    refine ⟨_, rfl, fun x => ?_⟩
    obtain ⟨d, hd, hcol, hid⟩ := (ho.named_iff ht).1 hlookup
    rw [mem_narrowed ho ht hc, hname]
    refine and_congr_right fun _ => and_congr_right fun _ => ?_
    constructor
    · rintro ⟨s, hx, hsat⟩
      exact ⟨q, d, s, hd, Prod.ext hcol hid, hx, hsat⟩
    · rintro ⟨q', d', s, hd', hnode, hx, hsat⟩
      obtain ⟨hcol', hid'⟩ := Prod.mk.inj hnode
      obtain rfl := ho.docAt_inj ht hd hd' (hcol.trans hcol'.symm) (hid.trans hid'.symm)
      exact ⟨s, hx, hsat⟩

lemma read_along {c holding : Utf16} (hc : isName c = true) (direction : EdgeDirection)
    (hholding : holding = match direction with
      | .inbound => e.collection
      | .outbound => declaring)
    (along : Prop) [Decidable along] (u : Utf16 × Utf16) :
    ∃ found, (if along ∧ u.1 = holding then findDocuments t o c input.where
        (some { collection := declaring, id := u.2, edge := input.edge, direction })
      else .ok []) = .ok found ∧
      ∀ x, x ∈ found ↔ ∃ q d s, docAt t o q = some d ∧ nodeOf d = u ∧ docAt t o s = some x ∧
        Admitted t o input.where x ∧ along ∧ d.collection = holding ∧ x.collection = c ∧
          (Query.edge (edgeTypeFor declaring e.name) q direction).Satisfies o.manifests s := by
  obtain ⟨col, id⟩ := u
  split_ifs with hread
  · obtain ⟨halong, rfl⟩ := hread
    obtain ⟨found, hfound, hmem⟩ := @findDocuments_eq t o input declaring e ho ht hedge c id _ hc direction
      hholding
    refine ⟨found, hfound, fun x => (hmem x).trans ⟨?_, ?_⟩⟩
    · rintro ⟨hcol, hadmitted, q, d, s, hd, hnode, hx, hsat⟩
      exact ⟨q, d, s, hd, hnode, hx, hadmitted, halong, congrArg Prod.fst hnode, hcol, hsat⟩
    · rintro ⟨q, d, s, hd, hnode, hx, hadmitted, -, -, hcol, hsat⟩
      exact ⟨hcol, hadmitted, q, d, s, hd, hnode, hx, hsat⟩
  · refine ⟨[], rfl, fun x => iff_of_false not_mem_nil ?_⟩
    rintro ⟨q, d, s, -, hnode, -, -, halong, hcol, -⟩
    exact hread ⟨halong, (congrArg Prod.fst hnode).symm.trans hcol⟩

lemma mem_neighbours (hnames : isName declaring = true ∧ isName e.collection = true)
    (u : Utf16 × Utf16) :
    ∃ found, neighbours t o input declaring e.collection u = .ok found ∧
      ∀ x, x ∈ found ↔ Steps t o input declaring e u x := by
  obtain ⟨outDocs, hout, hmemOut⟩ := read_along ho ht hedge hnames.2 .outbound rfl
    (input.direction ≠ .inbound) u
  obtain ⟨inDocs, hin, hmemIn⟩ := read_along ho ht hedge hnames.1 .inbound rfl
    (input.direction ≠ .outbound) u
  refine ⟨outDocs ++ inDocs, ?_, fun x => ?_⟩
  · unfold neighbours
    rw [hout, hin]
  · rw [mem_append, hmemOut, hmemIn]
    constructor
    · rintro (⟨q, d, s, hd, hnode, hx, hadmitted, halong, hfirst, hsecond, hsat⟩ |
        ⟨q, d, s, hd, hnode, hx, hadmitted, halong, hfirst, hsecond, hsat⟩)
      · exact ⟨q, d, s, hd, hnode, hx, hadmitted, .inl ⟨halong, hfirst, hsecond, satisfies_outbound.1 hsat⟩⟩
      · exact ⟨q, d, s, hd, hnode, hx, hadmitted, .inr ⟨halong, hsecond, hfirst, satisfies_inbound.1 hsat⟩⟩
    · rintro ⟨q, d, s, hd, hnode, hx, hadmitted, ⟨halong, hto⟩ | ⟨halong, hto⟩⟩
      · exact .inl ⟨q, d, s, hd, hnode, hx, hadmitted, halong, hto.source, hto.target,
          satisfies_outbound.2 hto.stored⟩
      · exact .inr ⟨q, d, s, hd, hnode, hx, hadmitted, halong, hto.target, hto.source,
          satisfies_inbound.2 hto.stored⟩

end

/-! ## Bounds -/

lemma toNumber_natCast (n : ℕ) : toNumber n = ((((n : ℚ) : WithTop ℚ)) : WithBot (WithTop ℚ)) := rfl

variable {v : WithBot (WithTop ℚ)} {n : ℕ}

lemma lt_ceiling {most : ℕ} (hlow : toNumber 1 ≤ v)
    (hhigh : v ≤ toNumber most) : n < ceiling v ↔ toNumber n < v := by
  cases v with
  | bot => exact absurd hlow (by simp [toNumber])
  | coe v =>
    cases v with
    | top =>
      rw [toNumber_natCast, WithBot.coe_le_coe, top_le_iff] at hhigh
      exact absurd hhigh WithTop.coe_ne_top
    | coe q =>
      rw [toNumber_natCast, WithBot.coe_lt_coe, WithTop.coe_lt_coe]
      exact Nat.lt_ceil

lemma clamped_eq_some {x : Option Bound} {default most : ℕ}
    (hmost : 1 ≤ most) (h : clamped x default most = some v) : toNumber 1 ≤ v ∧ v ≤ toNumber most := by
  obtain ⟨w, -, rfl⟩ := Option.map_eq_some_iff.1 h
  refine ⟨le_max_left _ _, max_le ?_ (min_le_right _ _)⟩
  exact toNumber_le_toNumber.2 (by exact_mod_cast hmost)

/-- What is below the depth a traversal keeps to: the first document's, and every one below the bound. -/
theorem lt_depthLimit {input : TraverseInput} :
    n < depthLimit input ↔ n = 0 ∨ below n (clamped input.maxDepth 1 20) = true := by
  unfold depthLimit
  cases hclamped : clamped input.maxDepth 1 20 with
  | none => simp [below]
  | some v =>
    obtain ⟨hlow, hhigh⟩ := clamped_eq_some (by decide) hclamped
    rw [Option.elim_some, lt_ceiling hlow hhigh, below, decide_eq_true_eq]
    constructor
    · exact .inr
    · rintro (rfl | hlt)
      · exact lt_of_lt_of_le (by decide) hlow
      · exact hlt

lemma depthLimit_pos (input : TraverseInput) : 0 < depthLimit input := lt_depthLimit.2 (.inl rfl)

/-! ## Every run -/

section

variable {host : Host} {C : World → TenantId → Utf16 → List DocumentWrite → Prop}

def AllEdgesOk (o : Objects Record) : Prop := ∀ t n c, loadCollection t o n = some c → EdgesOk c

variable {o o' : Objects Record}

lemma AllEdgesOk.of_records (h : AllEdgesOk o) (hload : ∀ t n c', loadCollection t o' n = some c' →
      (∃ c, loadCollection t o n = some c ∧ c'.edges = c.edges) ∨ EdgesOk c') : AllEdgesOk o' := by
  intro t n c' hc'
  rcases hload t n c' hc' with ⟨c, hc, hedges⟩ | hok
  · obtain ⟨named, nodup⟩ := h t n c hc
    exact ⟨by rw [hedges]; exact named, by rw [hedges]; exact nodup⟩
  · exact hok

lemma AllEdgesOk.congr (h : AllEdgesOk o)
    (hload : ∀ t n, loadCollection t o' n = loadCollection t o n) : AllEdgesOk o' :=
  h.of_records fun t n c' hc' => .inl ⟨c', (hload t n).symm.trans hc', rfl⟩

lemma AllEdgesOk.alike (h : AllEdgesOk o)
    (hr : RecordsOnly o.lastSeq o o' ∧ SameRecords o o') : AllEdgesOk o' :=
  h.of_records fun t n c' hc' => by
    obtain ⟨c, hc, halike⟩ := hr.2.back t n c' hc'
    exact .inl ⟨c, hc, halike.edges⟩

lemma AllEdgesOk.collectionPut {t : TenantId} {o : Objects Record} (h : AllEdgesOk o) (ho : Kept o)
    {n : Utf16} {seq : Seq} {c c' : StoredCollection} (hseq : o.named ⟨collectionNs t, n⟩ = some seq)
    (hc : loadCollection t o n = some c) (hname : c'.name = c.name) (hedges : c'.edges = c.edges) :
    AllEdgesOk (o.commit [Db.collectionPut t seq c']) := by
  have hn := (ho.name_of_load hc).1
  have htakes : o.Takes seq ⟨collectionNs t, c'.name⟩ := by
    refine ho.named.takes_of_named ?_
    rw [← hseq, hname, hn]
  rw [Objects.commit_cons, Objects.commit_nil]
  refine h.of_records fun t' n' c'' hc'' => .inl ?_
  rw [loadCollection_collectionPut ho.named htakes] at hc''
  split_ifs at hc'' with heq
  · obtain ⟨rfl, rfl⟩ := heq
    cases hc''
    rw [hname, hn]
    exact ⟨c, hc, hedges⟩
  · exact ⟨c'', hc'', rfl⟩

lemma AllEdgesOk.putsIndexes {t : TenantId} (h : AllEdgesOk o) (ho : Kept o) {n : Utf16} {seq : Seq}
    (hseq : o.named ⟨collectionNs t, n⟩ = some seq) (hputs : PutsIndexes t o seq n o') : AllEdgesOk o' := by
  obtain rfl | ⟨c, indexes, hc, rfl⟩ := hputs
  · exact h
  · exact h.collectionPut ho hseq hc rfl rfl

lemma World.Step.allEdgesOk {w w' : World} (h : AllEdgesOk w.store) (hw : w.Sound)
    (hstep : w.Step host C w') : AllEdgesOk w'.store := by
  cases hstep with
  | reserve => exact h.congr fun _ _ => rfl
  | write ht hreserved hnodup _ hwrite =>
    obtain ⟨s, hs, rfl⟩ := writeDocuments_eq_ok hwrite
    obtain ⟨hwithin, -⟩ := foldlM_uses hw.kept ht
      (fun q hq => hw.reserved q (hreserved q hq)) hnodup hs
    exact h.congr (hwithin.load_commit hw.kept)
  | @create t now salt input _ =>
    obtain ⟨-, hkeep, hnew⟩ := createCollection_recordsOnly hw.kept t now salt input
    refine h.of_records fun t' n c' hc' => ?_
    cases hc : loadCollection t' w.store n with
    | some c =>
      obtain ⟨b', hb', halike⟩ := hkeep t' n c hc
      rw [hb'] at hc'
      cases hc'
      exact .inl ⟨c, rfl, halike.edges⟩
    | none => exact .inr (hnew t' n c' hc' hc).2.2.1
  | addReference => exact h.alike (addReference_recordsOnly hw.kept _ _)
  | dropReference => exact h.alike (dropReference_recordsOnly hw.kept _ _)
  | dropCollection ht =>
    refine (dropCollection_induct (P := fun o => Kept o ∧ AllEdgesOk o) ht And.left ?_ ?_ ?_
      ⟨hw.kept, h⟩).2
    · rintro o ops s hinserts hs ⟨hkept, h'⟩
      have hseqs := seqsOf_eq_nil hinserts
      obtain ⟨hwithin, -⟩ := foldlM_uses hkept ht (by rw [hseqs]; simp) (by rw [hseqs]; simp) hs
      exact ⟨hwithin.kept_commit hkept ht, h'.congr (hwithin.load_commit hkept)⟩
    · rintro o o' hr ⟨-, h'⟩
      exact ⟨hr.1.kept, h'.alike hr⟩
    · rintro o seq _ _ ⟨hkept, h'⟩
      refine ⟨hkept.retract seq, h'.of_records fun t' n c' hc' => .inl ?_⟩
      rw [loadCollection_retract hkept.named] at hc'
      split_ifs at hc'
      exact ⟨c', hc', rfl⟩
  | start => exact h
  | record hbuilds hphase hfresh hrecord hsame hbuilding =>
    have hseq := (hw.builds _ (World.Sound.mem_of_builds hbuilds)).seq
    exact h.putsIndexes hw.kept hseq (recordIndex_puts hrecord)
  | scan => exact h
  | rewrite hbuilds hphase hrewrite =>
    have hb := hw.builds _ (World.Sound.mem_of_builds hbuilds)
    obtain ⟨l, rfl, hl, -⟩ := rewriteChunk_eq_ok (hb.docAt_of_todo hphase) hrewrite
    obtain ⟨-, -, hload, -⟩ := PutBack.commit hw.kept hb.tenant fun e he => (hl e he).2
    exact h.congr hload
  | finish hbuilds hphase hfinish =>
    have hseq := (hw.builds _ (World.Sound.mem_of_builds hbuilds)).seq
    exact h.putsIndexes hw.kept hseq (finishIndex_puts hfinish)
  | abandon => exact h
  | configure ht hseq => exact h.alike (recordSettings_recordsOnly hw.kept hseq _)
  | reindex => exact h
  | drop ht hseq => exact h.putsIndexes hw.kept hseq (dropIndex_puts _)

lemma Reached.edgesOk {w : World} (h : Reached host C w) : AllEdgesOk w.store := by
  induction h with
  | start =>
    intro t n c hc
    cases hc
  | step h hstep ih => exact World.Step.allEdgesOk ih h.sound hstep

end

/-! ## What a traversal answers -/

section

variable (t : TenantId) (o : Objects Record) (input : TraverseInput) (declaring : Utf16) (e : EdgeDefinition)

/-- A breadth-first search within a depth and for as many documents as a bound allows. -/
structure IsBreadthFirst (maxDepth maxVisits : ℕ) (r : TraverseResult) : Prop where
  once : (r.steps.map fun s => nodeOf s.document).Nodup
  stored : ∀ s ∈ r.steps, nodeOf s.document ≠ (input.collection, input.id) ∧
    ∃ q, docAt t o q = some s.document
  dist : ∀ s ∈ r.steps,
    IsDist (LeadsTo t o input declaring e) (input.collection, input.id) s.depth (nodeOf s.document)
  depth : ∀ s ∈ r.steps, s.depth ≤ maxDepth
  ordered : r.steps.Pairwise fun s s' => s.depth ≤ s'.depth
  bounded : r.steps.length ≤ maxVisits
  whole : r.steps.length < maxVisits → ∀ n ≤ maxDepth, ∀ v,
    IsDist (LeadsTo t o input declaring e) (input.collection, input.id) n v →
    v = (input.collection, input.id) ∨ ∃ s ∈ r.steps, nodeOf s.document = v ∧ s.depth = n
  documents : r.documents = r.steps.map TraverseStep.document
  visited : r.visited = r.steps.length

end

lemma eq_start_of_walk {γ : Type} {R : γ → γ → Prop} {a : γ} (h : ∀ v, ¬R a v) {v : γ}
    (hwalk : Walk R a n v) : v = a := by
  induction hwalk with
  | start => rfl
  | step _ edge ih =>
    rw [ih] at edge
    exact absurd edge (h _)

section

variable {t : TenantId} {o : Objects Record} {input : TraverseInput} {declaring : Utf16} {e : EdgeDefinition}

lemma isName_of_steps (ho : Kept o) {u : Utf16 × Utf16}
    (h : Steps t o input declaring e u x) : isName x.collection = true := by
  obtain ⟨q, d, s, -, -, hx, -⟩ := h
  exact ho.isName_of_docAt hx

variable (ho : Kept o) (ht : TenantOk t)
  (hedge : ((edgesOf t o declaring).find? fun candidate => candidate.name = input.edge) = some e)
  (hnames : isName declaring = true ∧ isName e.collection = true)

include ho ht hedge hnames

lemma succ_eq :
    Succ nodeOf (neighbours t o input declaring e.collection) = LeadsTo t o input declaring e := by
  funext u v
  obtain ⟨found, hfound, hmem⟩ := mem_neighbours ho ht hedge hnames u
  apply propext
  constructor
  · rintro ⟨found', hfound', x, hx, rfl⟩
    rw [hfound] at hfound'
    cases hfound'
    exact ⟨x, (hmem x).1 hx, rfl⟩
  · rintro ⟨x, hx, rfl⟩
    exact ⟨found, hfound, x, (hmem x).2 hx, rfl⟩

lemma closed_names (hstart : isName input.collection = true) :
    Closed nodeOf (fun u => nameOf u.1 u.2) (neighbours t o input declaring e.collection)
      (input.collection, input.id) fun u => isName u.1 = true where
  first := hstart
  inj u v hu hv hkey := by
    obtain ⟨hcol, hid⟩ := nameOf_inj hu hv hkey
    exact Prod.ext hcol hid
  asked u _ := by
    obtain ⟨found, hfound, hmem⟩ := mem_neighbours ho ht hedge hnames u
    exact ⟨found, hfound, fun x hx => isName_of_steps ho ((hmem x).1 hx)⟩

lemma isBreadthFirst_of_found {maxDepth maxVisits : ℕ} {s : State Document (Utf16 × Utf16) Utf16}
    (h : Found nodeOf (fun u => nameOf u.1 u.2) (neighbours t o input declaring e.collection) maxDepth
      maxVisits (input.collection, input.id) (fun u => isName u.1 = true) s) :
    IsBreadthFirst t o input declaring e maxDepth maxVisits {
        documents := s.steps.map Prod.fst
        steps := s.steps.map fun step => ⟨step.1, step.2⟩
        visited := s.steps.length
        maxDepthReached := s.deepest } := by
  have hgraph := succ_eq ho ht hedge hnames
  have hfound : ∀ x ∈ s.steps, (nodeOf x.1, x.2) ∈ s.found nodeOf (input.collection, input.id) :=
    fun x hx => mem_found.2 (.inr ⟨x, hx, rfl⟩)
  have hnodup := h.nodup
  rw [State.found, map_cons, List.map_map, nodup_cons] at hnodup
  constructor
  case once =>
    rw [List.map_map]
    exact hnodup.2
  case stored =>
    intro step hstep
    obtain ⟨x, hx, rfl⟩ := List.mem_map.1 hstep
    refine ⟨fun heq => hnodup.1 (List.mem_map.2 ⟨x, hx, heq⟩), ?_⟩
    obtain ⟨u, found, -, hnext, hmem⟩ := h.answers x hx
    obtain ⟨found', hnext', hsteps⟩ := mem_neighbours ho ht hedge hnames u
    rw [hnext] at hnext'
    cases hnext'
    obtain ⟨-, -, q, -, -, hd, -⟩ := (hsteps x.1).1 hmem
    exact ⟨q, hd⟩
  case dist =>
    intro step hstep
    obtain ⟨x, hx, rfl⟩ := List.mem_map.1 hstep
    have hdist := h.dist _ (hfound x hx)
    rw [hgraph] at hdist
    exact hdist
  case depth =>
    intro step hstep
    obtain ⟨x, hx, rfl⟩ := List.mem_map.1 hstep
    exact h.depth _ (hfound x hx)
  case ordered => exact pairwise_map.2 h.ordered
  case bounded =>
    rw [length_map]
    exact h.bounded
  case whole =>
    intro hroom n hn v hv
    rw [length_map] at hroom
    rw [← hgraph] at hv
    rcases mem_found.1 (h.whole hroom n hn v hv) with heq | ⟨x, hx, heq⟩
    · exact .inl (Prod.mk.inj heq).1
    · obtain ⟨hnode, hdepth⟩ := Prod.mk.inj heq
      exact .inr ⟨_, List.mem_map.2 ⟨x, hx, rfl⟩, hnode, hdepth⟩
  case documents =>
    rw [List.map_map]
    rfl
  case visited => rw [length_map]

end

/-- A traversal is a breadth-first search of the graph of documents within the bounds it keeps to. -/
theorem traverse_isBreadthFirst {host : Host}
    {C : World → TenantId → Utf16 → List DocumentWrite → Prop} {w : World} (h : Reached host C w)
    {t : TenantId} (ht : TenantOk t) (input : TraverseInput) :
    (∀ fault, traversedEdge t w.store input = .error fault → traverse t w.store input = some (.error fault)) ∧
    ∀ declaring e, traversedEdge t w.store input = .ok (declaring, e) →
      ∃ r, traverse t w.store input = some (.ok r) ∧
        IsBreadthFirst t w.store input declaring e (depthLimit input) (visitLimit input) r := by
  refine ⟨fun fault hfault => by rw [traverse, hfault], fun declaring e hedge => ?_⟩
  have ho := h.sound.kept
  have hfind := find_of_traversedEdge hedge
  have hnames : isName declaring = true ∧ isName e.collection = true := by
    have hmem := List.mem_of_find?_eq_some hfind
    unfold edgesOf at hmem
    cases hc : loadCollection t w.store declaring with
    | none =>
      rw [hc] at hmem
      exact absurd hmem List.not_mem_nil
    | some c =>
      rw [hc] at hmem
      exact ⟨(ho.name_of_load hc).2, ((h.edgesOk t declaring c hc).named e hmem).2⟩
  rw [traverse, hedge]
  cases hlookup : w.store.lookup (documentNs t input.collection) input.id with
  | none =>
    -- a document that is not there has no neighbours
    have hnone : ∀ v, ¬LeadsTo t w.store input declaring e (input.collection, input.id) v := by
      rintro v ⟨x, ⟨q, d, s, hd, hnode, -⟩, -⟩
      obtain ⟨hcol, hid⟩ := Prod.mk.inj hnode
      have hnamed := (ho.named_iff ht).2 ⟨d, hd, hcol, hid⟩
      unfold Objects.lookup at hlookup
      rw [hnamed] at hlookup
      cases hlookup
    exact ⟨_, rfl, by simp, by simp, by simp, by simp, by simp, by simp,
      fun _ n _ v hv => Or.inl (eq_start_of_walk hnone hv.1), rfl, rfl⟩
  | some q =>
    obtain ⟨d, hd, hcol, -⟩ := (ho.named_iff ht).1 hlookup
    have hstart : isName input.collection = true := hcol ▸ ho.isName_of_docAt hd
    obtain ⟨s, hs, hfound⟩ := loop_spec (visitLimit input) (closed_names ho ht hfind hnames hstart)
      (depthLimit_pos input)
    dsimp only
    rw [hs]
    exact ⟨_, rfl, isBreadthFirst_of_found ho ht hfind hnames hfound⟩

def tracedStore : Objects Record :=
  linkStore linkWorld.store.nextSeq.2.nextSeq.2
    [linkInsert (utf16 "x") (utf16 "x") 3, linkInsert (utf16 "y") (utf16 "x") 4]

def tracedInput (maxDepth : ℕ) : TraverseInput where
  collection := utf16 "a"
  id := utf16 "y"
  edge := utf16 "r"
  maxDepth := some (some (toNumber maxDepth))
  maxVisits := some (some (toNumber 10))

lemma reached_tracedStore : Reached plainHost (fun _ _ _ _ => True)
    { linkWorld with store := tracedStore, reserved := [] } :=
  .step (.step (.step (reached_linkWorld _) .reserve) .reserve)
    (.write ⟨by decide, by decide⟩ (by decide) (by decide) trivial
      (writeDocuments_linkStore _ [linkInsert (utf16 "x") (utf16 "x") 3,
        linkInsert (utf16 "y") (utf16 "x") 4] (by decide +kernel)))

/-- A traversal with a depth of one finds the first. -/
theorem traverse_isBreadthFirst_traced :
    ((traverse (utf16 "t") tracedStore (tracedInput 1)).map fun r => r.toOption.map fun r =>
        r.steps.map fun s => (s.document.id, s.depth)) = some (some [(utf16 "x", 1)]) ∧
      ∀ declaring e, traversedEdge (utf16 "t") tracedStore (tracedInput 1) = .ok (declaring, e) →
        ∃ r, traverse (utf16 "t") tracedStore (tracedInput 1) = some (.ok r) ∧
          IsBreadthFirst (utf16 "t") tracedStore (tracedInput 1) declaring e (depthLimit (tracedInput 1))
            (visitLimit (tracedInput 1)) r :=
  ⟨by decide +kernel, (traverse_isBreadthFirst reached_tracedStore ⟨by decide, by decide⟩ (tracedInput 1)).2⟩

/-- With a depth of zero a document is found at a depth of one. -/
theorem not_traverse_isBreadthFirst : ¬∀ w, Reached plainHost (fun _ _ _ _ => True) w →
    ∀ (input : TraverseInput) (maxDepth maxVisits : ℕ), input.maxDepth = some (some (toNumber maxDepth)) →
      input.maxVisits = some (some (toNumber maxVisits)) → ∀ declaring e,
        traversedEdge (utf16 "t") w.store input = .ok (declaring, e) →
        ∃ r, traverse (utf16 "t") w.store input = some (.ok r) ∧
          IsBreadthFirst (utf16 "t") w.store input declaring e maxDepth maxVisits r := by
  intro hall
  have hedge : (traversedEdge (utf16 "t") tracedStore (tracedInput 0)).toOption.isSome = true := by
    decide +kernel
  have hsteps : ((traverse (utf16 "t") tracedStore (tracedInput 0)).map fun r => r.toOption.map fun r =>
      r.steps.map TraverseStep.depth) = some (some [1]) := by decide +kernel
  cases hdeclared : traversedEdge (utf16 "t") tracedStore (tracedInput 0) with
  | error fault =>
    rw [hdeclared] at hedge
    cases hedge
  | ok declared =>
    obtain ⟨r, hr, hsearch⟩ := hall _ reached_tracedStore (tracedInput 0) 0 10 rfl rfl declared.1
      declared.2 hdeclared
    rw [hr] at hsteps
    have hdepths : r.steps.map TraverseStep.depth = [1] := Option.some.inj (Option.some.inj hsteps)
    have hone : 1 ∈ r.steps.map TraverseStep.depth := by
      rw [hdepths]
      exact List.mem_singleton_self 1
    obtain ⟨s, hs, hdepth⟩ := List.mem_map.1 hone
    have := hsearch.depth s hs
    omega

end Zelavis.Db
