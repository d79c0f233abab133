import Zelavis.Db.Builds

/-!
# Following edges

The linked reads of `documents.ts`, and what a store keeps to for them. An edge is declared by a path
of ids; a document is stored with the identifiers those ids named when it was written.
-/

namespace Zelavis.Db

open Lib List Option

variable {o : Objects Record} {t : TenantId} {reserved : List Seq} {o' : Objects Record}

/-! ## Reading along edges -/

def edgeValues (data : JsonObject) (path : Utf16) : List Json :=
  match readPath data path with
  | none => []
  | some (.scalar .null) => []
  | some (.array items) => items
  | some value => [value]

def edgeIds (data : JsonObject) (path : Utf16) : List Utf16 :=
  (edgeValues data path).filterMap Json.asString?

structure LinkFilter where
  collection : Option Utf16 := none
  id : Utf16
  edge : Utf16
  direction : EdgeDirection := .outbound

/-- `UnknownEdge`. -/
structure UnknownEdge where
  collection : Utf16
  name : Utf16
  deriving DecidableEq

section

variable (t : TenantId) (o : Objects Record)

def edgesOf (collection : Utf16) : List EdgeDefinition :=
  (loadCollection t o collection).elim [] StoredCollection.edges

def declaredEdge (current : Utf16) (filter : LinkFilter) :
    Except UnknownEdge (Utf16 × EdgeDefinition) :=
  let declaring := filter.collection.getD current
  match (edgesOf t o declaring).find? fun candidate => candidate.name = filter.edge with
  | some declared => .ok (declaring, declared)
  | none =>
    match filter.direction, filter.collection with
    | .inbound, some collection =>
      match (edgesOf t o current).find? fun candidate =>
          candidate.name = filter.edge && candidate.collection = collection with
      | some declared => .ok (current, declared)
      | none => .error ⟨declaring, filter.edge⟩
    | _, _ => .error ⟨declaring, filter.edge⟩

/-- The clause a filter narrows a read with; nothing where the document it starts from is not there.
Source: `withLink`. -/
def withLink (current : Utf16) (filter : LinkFilter) : Except UnknownEdge (Option Query) :=
  match declaredEdge t o current filter with
  | .error fault => .error fault
  | .ok (declaring, declared) =>
    let holding := match filter.direction with
      | .inbound => declared.collection
      | .outbound => declaring
    .ok ((o.lookup (documentNs t holding) filter.id).map fun seq =>
      .edge (edgeTypeFor declaring filter.edge) seq filter.direction)

/-- The documents of a collection that a filter narrows it to. Source: `findDocuments`. -/
def findLinked (collection : Utf16) (filter : LinkFilter) : Except UnknownEdge (List Document) :=
  match withLink t o collection filter with
  | .error fault => .error fault
  | .ok none => .ok []
  | .ok (some clause) =>
    .ok ((o.resolve (.and [.equals (collectionColumn t) (.string collection), clause])).filterMap
      (readDocument o))

/-- A read along an edge answers what the documents hold: outbound from a document, the documents of
the edge's target whose id it holds at the edge's path; inbound to a document, those that hold its
id there. -/
def EdgesMirrored : Prop :=
  ∀ collection filter declaring e, declaredEdge t o collection filter = .ok (declaring, e) →
    ∀ docs, findLinked t o collection filter = .ok docs → ∀ q d, docAt t o q = some d → d.id = filter.id →
      (filter.direction = .outbound → d.collection = declaring → ∀ x, x ∈ docs ↔
        x.collection = collection ∧ x.collection = e.collection ∧ x.id ∈ edgeIds d.data e.path ∧
          ∃ q', docAt t o q' = some x) ∧
      (filter.direction = .inbound → d.collection = e.collection → ∀ x, x ∈ docs ↔
        x.collection = collection ∧ x.collection = declaring ∧ d.id ∈ edgeIds x.data e.path ∧
          ∃ q', docAt t o q' = some x)

end

/-! ## What a store keeps to -/

def targetsOf (o : Objects Record) (q : Seq) : List (Utf16 × Seq) :=
  (o.held.get q).elim [] fun h => h.manifest.edges

/-- What a tenant's documents keep to for their edges, where some identifiers are allocated and not
used yet. -/
structure Linked (t : TenantId) (o : Objects Record) (reserved : List Seq) : Prop where
  mirror : ∀ q d c e, docAt t o q = some d → loadCollection t o d.collection = some c →
    e ∈ c.edges → ∀ s x, docAt t o s = some x → ((edgeTypeFor d.collection e.name, s) ∈ targetsOf o q ↔
        x.collection = e.collection ∧ x.id ∈ edgeIds d.data e.path)
  typed : ∀ q d, docAt t o q = some d → ∀ g ∈ targetsOf o q, ∀ c,
    loadCollection t o d.collection = some c → ∃ e ∈ c.edges, g.1 = edgeTypeFor d.collection e.name
  settled : ∀ q d, docAt t o q = some d → ∀ g ∈ targetsOf o q, g.2 ≤ o.lastSeq ∧ g.2 ∉ reserved

/-- The types of edges of collections are the same only where the collections and the names are. -/
theorem edgeTypeFor_inj {c c' name name' : Utf16} (hc : isName c = true) (hc' : isName c' = true)
    (h : edgeTypeFor c name = edgeTypeFor c' name') : c = c' ∧ name = name' := by
  unfold edgeTypeFor at h
  rw [append_assoc, append_assoc] at h
  exact append_cons_inj (slash_notMem hc) (slash_notMem hc') h

lemma EdgesOk.eq_of_name {c : StoredCollection} (h : EdgesOk c) {e e' : EdgeDefinition}
    (he : e ∈ c.edges) (he' : e' ∈ c.edges) (hname : e.name = e'.name) : e = e' :=
  inj_on_of_nodup_map h.nodup he he' hname

variable {collection : Utf16} {x : Document}

lemma mem_findLinked (ho : Kept o) (ht : TenantOk t) {clause : Query} :
    x ∈ (o.resolve (.and [.equals (collectionColumn t) (.string collection), clause])).filterMap
        (readDocument o) ↔
      x.collection = collection ∧ ∃ s, docAt t o s = some x ∧ clause.Satisfies o.manifests s := by
  rw [mem_filterMap]
  constructor
  · rintro ⟨s, hs, hread⟩
    obtain ⟨-, hand⟩ := Objects.mem_resolve.1 hs
    obtain ⟨-, hall⟩ := Query.satisfies_and.1 hand
    have hmarked := hall (.equals (collectionColumn t) (.string collection)) (by simp)
    rcases ho.docAt_of_marked hmarked with ⟨d, hd, hcol⟩ | ⟨-, hnone⟩
    · have hsame := readDocument_of_docAt hd
      rw [hread] at hsame
      cases hsame
      exact ⟨hcol, s, hd, hall clause (by simp)⟩
    · rw [hread] at hnone
      cases hnone
  · rintro ⟨rfl, s, hx, hclause⟩
    obtain ⟨held, hheld, -⟩ := docAt_eq_some.1 hx
    refine ⟨s, Objects.mem_resolve.2 ⟨⟨held, hheld⟩, Query.satisfies_and.2 ⟨by simp, ?_⟩⟩,
      readDocument_of_docAt hx⟩
    intro clause' hclause'
    rcases mem_cons.1 hclause' with rfl | hclause'
    · exact ho.satisfies_marked ht hx
    · rw [mem_singleton.1 hclause']
      exact hclause

variable {edgeType : Utf16}

lemma satisfies_outbound {q s : Seq} :
    (Query.edge edgeType q .outbound).Satisfies o.manifests s ↔ (edgeType, s) ∈ targetsOf o q := by
  unfold Query.Satisfies Objects.manifests targetsOf
  cases o.held.get q with
  | none | some => simp

lemma satisfies_inbound {q s : Seq} :
    (Query.edge edgeType q .inbound).Satisfies o.manifests s ↔ (edgeType, q) ∈ targetsOf o s := by
  unfold Query.Satisfies Objects.manifests targetsOf
  cases o.held.get s with
  | none | some => simp

variable {e : EdgeDefinition} {filter : LinkFilter}

lemma declaredEdge_eq_ok {current declaring : Utf16}
    (h : declaredEdge t o current filter = .ok (declaring, e)) :
    e.name = filter.edge ∧ ∃ c, loadCollection t o declaring = some c ∧ e ∈ c.edges := by
  have hload : ∀ {n}, e ∈ edgesOf t o n → ∃ c, loadCollection t o n = some c ∧ e ∈ c.edges := by
    intro n he
    unfold edgesOf at he
    cases hc : loadCollection t o n with
    | none =>
      rw [hc] at he
      exact absurd he not_mem_nil
    | some c =>
      rw [hc] at he
      exact ⟨c, rfl, he⟩
  unfold declaredEdge at h
  dsimp only at h
  split at h
  next declared hfind =>
    cases h
    exact ⟨by simpa using List.find?_some hfind, hload (mem_of_find?_eq_some hfind)⟩
  next =>
    split at h
    next _ collection _ _ =>
      split at h
      next declared hfind =>
        cases h
        have hname := List.find?_some hfind
        simp only [Bool.and_eq_true, decide_eq_true_eq] at hname
        exact ⟨hname.1, hload (mem_of_find?_eq_some hfind)⟩
      next => cases h
    next => cases h

lemma Linked.edgesMirrored
    (h : Linked t o reserved) (ho : Kept o) (ht : TenantOk t)
    (hhomed : ∀ q d, docAt t o q = some d → ∃ c, loadCollection t o d.collection = some c) :
    EdgesMirrored t o := by
  intro collection filter declaring e hdeclared docs hdocs q d hd hid
  obtain ⟨hname, c, hc, he⟩ := declaredEdge_eq_ok hdeclared
  unfold findLinked withLink at hdocs
  rw [hdeclared] at hdocs
  constructor
  · intro hdirection hcol x
    subst hcol
    rw [hdirection] at hdocs
    dsimp only at hdocs
    have hlookup : o.lookup (documentNs t d.collection) filter.id = some q :=
      (ho.named_iff ht).2 ⟨d, hd, rfl, hid⟩
    rw [hlookup] at hdocs
    cases hdocs
    rw [mem_findLinked ho ht]
    refine and_congr_right fun hcol => ?_
    constructor
    · rintro ⟨s, hx, hclause⟩
      rw [satisfies_outbound, ← hname] at hclause
      obtain ⟨htarget, hmem⟩ := (h.mirror q d c e hd hc he s x hx).1 hclause
      exact ⟨htarget, hmem, s, hx⟩
    · rintro ⟨htarget, hmem, s, hx⟩
      refine ⟨s, hx, ?_⟩
      rw [satisfies_outbound, ← hname]
      exact (h.mirror q d c e hd hc he s x hx).2 ⟨htarget, hmem⟩
  · intro hdirection hcol x
    rw [hdirection] at hdocs
    dsimp only at hdocs
    have hlookup : o.lookup (documentNs t e.collection) filter.id = some q :=
      (ho.named_iff ht).2 ⟨d, hd, hcol, hid⟩
    rw [hlookup] at hdocs
    cases hdocs
    rw [mem_findLinked ho ht]
    refine and_congr_right fun _ => ?_
    constructor
    · rintro ⟨s, hx, hclause⟩
      rw [satisfies_inbound, ← hname] at hclause
      have hxname := ho.isName_of_docAt hx
      -- the edge is one of the document's own collection
      obtain ⟨cx, hcx⟩ := hhomed s x hx
      obtain ⟨e', he', htype⟩ := h.typed s x hx _ hclause cx hcx
      obtain ⟨rfl, hnames⟩ := edgeTypeFor_inj (ho.name_of_load hc).2 hxname htype
      rw [hc] at hcx
      cases hcx
      obtain ⟨-, hmem⟩ := (h.mirror s x c e hx hc he q d hd).1 hclause
      exact ⟨rfl, hmem, s, hx⟩
    · rintro ⟨hdeclaring, hmem, s, hx⟩
      refine ⟨s, hx, ?_⟩
      rw [satisfies_inbound, ← hname, ← hdeclaring]
      rw [← hdeclaring] at hc
      exact (h.mirror s x c e hx hc he q d hd).2 ⟨hcol, hmem⟩

/-! ## Inside a transaction -/

/-- The condition on a change: where it inserts a document, no document that is there names that
document already. -/
def InsertsUnnamed (t : TenantId) (o : Objects Record) (op : DocumentWrite) (s : Staged) : Prop :=
  ∀ collection id data expiry seq, op.inserts = some (collection, id, data, expiry, seq) →
    (∀ q x, currentNamed t o s.pending collection id ≠ some (q, some x)) →
    ∀ q d c e, curr t o s.pending q = some d → loadCollection t o d.collection = some c →
      e ∈ c.edges → e.collection = collection → id ∉ edgeIds d.data e.path

/-- What an id at an edge's path is resolved to: the document itself, or the one it names. -/
def ResolvesTo (t : TenantId) (o : Objects Record) (p : PendingDocs) (doc : Document) (seq : Seq)
    (e : EdgeDefinition) (id : Utf16) (target : Seq) : Prop :=
  if e.collection = doc.collection ∧ id = doc.id then target = seq
  else ∃ x, currentNamed t o p e.collection id = some (target, some x)

lemma mem_edgeIds {data : JsonObject} {path id : Utf16} :
    id ∈ edgeIds data path ↔ ∃ v ∈ edgeValues data path, v.asString? = some id := by
  unfold edgeIds
  rw [mem_filterMap]

section

variable {host : Host} {t : TenantId} {o : Objects Record} {now : Utf16} {p : PendingDocs}
  {doc : Document} {seq : Seq} {c : StoredCollection} {edges : List (Utf16 × Seq)}

lemma edgesAt_eq_ok {l : List (Utf16 × Seq)} (h : edgesAt t o p doc seq e = .ok l) :
    (∀ g ∈ l, g.1 = edgeTypeFor doc.collection e.name ∧
      ∃ id ∈ edgeIds doc.data e.path, ResolvesTo t o p doc seq e id g.2) ∧
    ∀ id ∈ edgeIds doc.data e.path, ∃ target, ResolvesTo t o p doc seq e id target ∧
      (edgeTypeFor doc.collection e.name, target) ∈ l := by
  have hall : List.Forall₂ (fun v g => ∃ id, Json.asString? v = some id ∧
      g.1 = edgeTypeFor doc.collection e.name ∧ ResolvesTo t o p doc seq e id g.2)
      (edgeValues doc.data e.path) l := by
    refine (mapM_eq_ok_iff.1 h).imp fun v g hg => ?_
    unfold ResolvesTo
    cases hv : v.asString? with
    | none =>
      rw [hv] at hg
      cases hg
    | some id =>
      rw [hv] at hg
      dsimp only at hg
      refine ⟨id, rfl, ?_⟩
      split_ifs at hg with hself
      · cases hg
        rw [if_pos hself]
        exact ⟨rfl, rfl⟩
      · rw [if_neg hself]
        split at hg
        next target x hnamed =>
          cases hg
          exact ⟨rfl, x, hnamed⟩
        next => cases hg
  constructor
  · intro g hg
    obtain ⟨v, hv, id, hid, htype, htarget⟩ := exists_left_of_forall₂ hall hg
    exact ⟨htype, id, mem_edgeIds.2 ⟨v, hv, hid⟩, htarget⟩
  · intro id hmem
    obtain ⟨v, hv, hid⟩ := mem_edgeIds.1 hmem
    obtain ⟨g, hg, id', hid', htype, htarget⟩ := exists_right_of_forall₂ hall hv
    rw [hid] at hid'
    cases hid'
    exact ⟨g.2, htarget, by rw [← htype]; exact hg⟩

lemma enforceConstraints_eq_ok (h : enforceConstraints t o (some c) doc seq p = .ok edges) :
    (∀ g ∈ edges, ∃ e ∈ c.edges, g.1 = edgeTypeFor doc.collection e.name ∧
      ∃ id ∈ edgeIds doc.data e.path, ResolvesTo t o p doc seq e id g.2) ∧
    ∀ e ∈ c.edges, ∀ id ∈ edgeIds doc.data e.path, ∃ target, ResolvesTo t o p doc seq e id target ∧
      (edgeTypeFor doc.collection e.name, target) ∈ edges := by
  unfold enforceConstraints at h
  dsimp only at h
  split at h
  · cases h
  next =>
    cases hlists : c.edges.mapM (edgesAt t o p doc seq) with
    | error fault =>
      rw [hlists] at h
      cases h
    | ok lists =>
      rw [hlists] at h
      cases h
      have hall := mapM_eq_ok_iff.1 hlists
      constructor
      · intro g hg
        obtain ⟨l, hl, hmem⟩ := mem_flatten.1 hg
        obtain ⟨e, he, hedge⟩ := exists_left_of_forall₂ hall hl
        exact ⟨e, he, (edgesAt_eq_ok hedge).1 g hmem⟩
      · intro e he id hid
        obtain ⟨l, hl, hedge⟩ := exists_right_of_forall₂ hall he
        obtain ⟨target, htarget, hmem⟩ := (edgesAt_eq_ok hedge).2 id hid
        exact ⟨target, htarget, mem_flatten.2 ⟨l, hl, hmem⟩⟩

end

/-- What a transaction keeps to for its documents' edges, where some identifiers were allocated before
it. -/
structure Linking (t : TenantId) (o : Objects Record) (reserved : List Seq) (s : Staged) : Prop where
  mirror : ∀ q d c e, curr t o s.pending q = some d → loadCollection t o d.collection = some c →
    e ∈ c.edges → ∀ q' x, curr t o s.pending q' = some x →
      ((edgeTypeFor d.collection e.name, q') ∈ targetsOf (o.commit s.writes) q ↔
        x.collection = e.collection ∧ x.id ∈ edgeIds d.data e.path)
  typed : ∀ q d, curr t o s.pending q = some d → ∀ g ∈ targetsOf (o.commit s.writes) q, ∀ c,
    loadCollection t o d.collection = some c → ∃ e ∈ c.edges, g.1 = edgeTypeFor d.collection e.name
  settled : ∀ q d, curr t o s.pending q = some d → ∀ g ∈ targetsOf (o.commit s.writes) q,
    g.2 ≤ o.lastSeq ∧ (g.2 ∉ reserved ∨ (s.pending.bySeq g.2).isSome)

variable {d : Document} {q : Seq} {op : DocumentWrite} {rest' : List Seq}

namespace Linking

variable {host : Host} {t : TenantId} {o : Objects Record} {now : Utf16} {ops : List DocumentWrite}
  {reserved rest : List Seq} {due : List (Seq × Document)} {s s' : Staged}

lemma start (h : Linked t o reserved) : Linking t o reserved {} where
  mirror := h.mirror
  typed := h.typed
  settled q d hd g hg := by
    obtain ⟨hle, hnot⟩ := h.settled q d hd g hg
    exact ⟨hle, .inl hnot⟩

lemma of_fewer (h : Linking t o reserved s)
    (hcurr : ∀ q d, curr t o s'.pending q = some d → curr t o s.pending q = some d ∧
      targetsOf (o.commit s'.writes) q = targetsOf (o.commit s.writes) q)
    (hused : ∀ q, (s.pending.bySeq q).isSome → (s'.pending.bySeq q).isSome) : Linking t o reserved s' where
  mirror q d c e hd hc he q' x hx := by
    obtain ⟨hq, htargets⟩ := hcurr q d hd
    rw [htargets]
    exact h.mirror q d c e hq hc he q' x (hcurr q' x hx).1
  typed q d hd := by
    obtain ⟨hq, htargets⟩ := hcurr q d hd
    rw [htargets]
    exact h.typed q d hq
  settled q d hd := by
    obtain ⟨hq, htargets⟩ := hcurr q d hd
    rw [htargets]
    intro g hg
    obtain ⟨hle, hor⟩ := h.settled q d hq g hg
    exact ⟨hle, hor.imp_right (hused g.2)⟩

lemma forget (h : Linking t o reserved s) (q : Seq) (d : Document) :
    Linking t o reserved { s with pending := Db.forget s.pending d q } := by
  have hbySeq : ∀ q', (Db.forget s.pending d q).bySeq q' =
      if q' = q then some none else s.pending.bySeq q' := fun _ => rfl
  refine h.of_fewer (fun q' d' hq' => ⟨?_, rfl⟩) fun q' hq' => ?_
  · unfold curr at hq' ⊢
    rw [hbySeq] at hq'
    split_ifs at hq' with heq
    exact hq'
  · rw [hbySeq]
    split_ifs
    · rfl
    · exact hq'

lemma retract (hw : Within host t o rest due s) (h : Linking t o reserved s) (hd : (q, d) ∈ due) :
    Linking t o reserved { s with writes := s.writes ++ [.retract q] } := by
  refine h.of_fewer (fun q' d' hq' => ⟨hq', ?_⟩) fun _ hq' => hq'
  have hne : q' ≠ q := by
    rintro rfl
    rw [curr_of_some (hw.forgotten _ hd).1] at hq'
    cases hq'
  unfold targetsOf
  rw [Objects.commit_append, Objects.commit_cons, Objects.commit_nil, Objects.held_retract,
    OrderedMap.get_erase, if_neg hne]

lemma used_of_curr (ho : Kept o) (hw : Within host t o rest due s)
    (hreserved : ∀ q ∈ reserved, o.held.get q = none) (hq : curr t o s.pending q = some d) :
    q ≤ o.lastSeq ∧ (q ∉ reserved ∨ (s.pending.bySeq q).isSome) := by
  refine ⟨(hw.own_of_curr ho hq).1, ?_⟩
  cases hby : s.pending.bySeq q with
  | some doc => exact .inr rfl
  | none =>
    rw [curr_of_none hby] at hq
    obtain ⟨held, hheld, -⟩ := docAt_eq_some.1 hq
    refine .inl fun hmem => ?_
    rw [hreserved q hmem] at hheld
    cases hheld

variable {doc : Document} {seq : Seq}

lemma resolvesTo_iff (ho : Kept o) (hw : Within host t o rest due s) {due' : List (Seq × Document)}
    (hw' : Within host t o rest' due' s') (hself : curr t o s'.pending seq = some doc)
    (hother : ∀ q, q ≠ seq → curr t o s'.pending q = curr t o s.pending q)
    (hold : ∀ old, curr t o s.pending seq = some old → doc.collection = old.collection ∧ doc.id = old.id)
    (hname : isName e.collection = true) (id : Utf16) (hx : curr t o s'.pending q = some x)
    (hsome : ∃ target, ResolvesTo t o s.pending doc seq e id target) :
    ResolvesTo t o s.pending doc seq e id q ↔ x.collection = e.collection ∧ x.id = id := by
  have hdoc := (hw'.held_of_curr ho hself).1
  unfold ResolvesTo at hsome ⊢
  by_cases hsame : e.collection = doc.collection ∧ id = doc.id
  · rw [if_pos hsame]
    constructor
    · rintro rfl
      rw [hself] at hx
      cases hx
      exact ⟨hsame.1.symm, hsame.2.symm⟩
    · rintro ⟨hc, hid⟩
      exact hw'.curr_inj hdoc hself hx (hc.trans hsame.1) (hid.trans hsame.2)
  · simp only [if_neg hsame] at hsome ⊢
    -- the id is another document's, which is not written
    obtain ⟨target, y, hy⟩ := hsome
    obtain ⟨hcurr, hc, hid⟩ := (hw.names e.collection id hname target y).1 hy
    have hne : target ≠ seq := by
      rintro rfl
      obtain ⟨hc', hid'⟩ := hold y hcurr
      exact hsame ⟨hc.symm.trans hc'.symm, hid.symm.trans hid'.symm⟩
    have hcurr' : curr t o s'.pending target = some y := (hother target hne).trans hcurr
    have hyname := (hw.held_of_curr ho hcurr).1
    constructor
    · rintro ⟨z, hz⟩
      rw [hy] at hz
      cases hz
      rw [hcurr'] at hx
      cases hx
      exact ⟨hc, hid⟩
    · rintro ⟨hxc, hxid⟩
      rw [hw'.curr_inj hyname hcurr' hx (hxc.trans hc.symm) (hxid.trans hid.symm)]
      exact ⟨y, hy⟩

lemma resolvesTo_unique {p : PendingDocs}
    {id : Utf16} {target target' : Seq} (h : ResolvesTo t o p doc seq e id target)
    (h' : ResolvesTo t o p doc seq e id target') : target = target' := by
  unfold ResolvesTo at h h'
  split_ifs at h h'
  · rw [h, h']
  · obtain ⟨x, hx⟩ := h
    obtain ⟨x', hx'⟩ := h'
    rw [hx] at hx'
    exact (Prod.mk.inj (some.inj hx')).1

section

variable (ho : Kept o) (ht : TenantOk t) (hreserved : ∀ q ∈ reserved, q ≤ o.lastSeq ∧ o.held.get q = none)
  (hseqs : ∀ q ∈ seqsOf ops, q ∈ reserved) (hedgesOk : ∀ n c, loadCollection t o n = some c → EdgesOk c)
include ho ht hreserved hseqs hedgesOk

lemma put
    (hop : op ∈ ops) (hw : Within host t o rest due s)
    {loaded : Option StoredCollection} (hplaced : Placed host t o now op s.pending doc seq loaded)
    (hor : (∃ old, curr t o s.pending seq = some old ∧ doc.collection = old.collection ∧
      doc.id = old.id) ∨ (seq ∈ rest ∧ InsertsUnnamed t o op s))
    (hput : documentPut host t o doc seq loaded s = .ok s')
    (hw' : Within host t o rest' due s') (h : Linking t o reserved s) : Linking t o reserved s' := by
  have hnone : ∀ q ∈ reserved, o.held.get q = none := fun q hq => (hreserved q hq).2
  -- written over a document of its name, or under an identifier not used, with no one naming it
  have hcase : (∃ old, curr t o s.pending seq = some old ∧ doc.collection = old.collection ∧
      doc.id = old.id) ∨
      (curr t o s.pending seq = none ∧ seq ∈ reserved ∧ s.pending.bySeq seq = none ∧
        ∀ q d c e, curr t o s.pending q = some d → loadCollection t o d.collection = some c →
          e ∈ c.edges → e.collection = doc.collection → doc.id ∉ edgeIds d.data e.path) := by
    rcases hor with hold | ⟨hrest, hunnamed⟩
    · exact .inl hold
    · cases hplaced with
      | @inserted collection id data expiry seq expiresAt record hinserts hrecord hvalid hschema hfree
          hexpiry =>
        have hmem : seq ∈ reserved := by
          refine hseqs seq (mem_filterMap.2 ⟨op, hop, ?_⟩)
          rw [hinserts]
          rfl
        have hby := hw.unused seq hrest
        refine .inr ⟨?_, hmem, hby, hunnamed collection id data expiry seq hinserts hfree⟩
        rw [curr_of_none hby]
        unfold docAt
        rw [hnone seq hmem, bind_none]
      | updated _ hcurr | cleared hcurr => exact .inl ⟨_, hcurr, rfl, rfl⟩
  have hold : ∀ old, curr t o s.pending seq = some old →
      doc.collection = old.collection ∧ doc.id = old.id := by
    intro old hcurr
    rcases hcase with ⟨old', hcurr', hnames⟩ | ⟨hcurr', -⟩
    · rw [hcurr] at hcurr'
      cases hcurr'
      exact hnames
    · rw [hcurr] at hcurr'
      cases hcurr'
  obtain ⟨edges, manifest, hedges, hmanifest, heq⟩ := documentPut_eq_ok hplaced.record_eq hput
  have hbySeq : ∀ q, s'.pending.bySeq q = if q = seq then some (some doc) else s.pending.bySeq q := by
    intro q
    rw [heq]
    rfl
  have hself : curr t o s'.pending seq = some doc := curr_of_some (by rw [hbySeq, if_pos rfl])
  have hother : ∀ q, q ≠ seq → curr t o s'.pending q = curr t o s.pending q := by
    intro q hq
    unfold curr
    rw [hbySeq, if_neg hq]
  have htargets : ∀ q, targetsOf (o.commit s'.writes) q =
      if q = seq then edges else targetsOf (o.commit s.writes) q := by
    intro q
    rw [heq]
    unfold targetsOf
    rw [Objects.commit_append, Objects.commit_cons, Objects.commit_nil, Objects.held_put,
      OrderedMap.get_insert]
    split_ifs
    · exact edges_of_manifestFor hmanifest
    · rfl
  have hused : ∀ q, (s.pending.bySeq q).isSome → (s'.pending.bySeq q).isSome := by
    intro q hq
    rw [hbySeq]
    split_ifs
    · rfl
    · exact hq
  -- what the document's own edges come to
  have hown : ∀ c, loadCollection t o doc.collection = some c →
      (∀ g ∈ edges, ∃ e ∈ c.edges, g.1 = edgeTypeFor doc.collection e.name ∧
        ∃ id ∈ edgeIds doc.data e.path, ResolvesTo t o s.pending doc seq e id g.2) ∧
      ∀ e ∈ c.edges, ∀ id ∈ edgeIds doc.data e.path, ∃ target, ResolvesTo t o s.pending doc seq e id target ∧
          (edgeTypeFor doc.collection e.name, target) ∈ edges := by
    intro c hc
    rw [hc] at hedges
    exact enforceConstraints_eq_ok hedges
  constructor
  case mirror =>
    intro q d c e hd hc he q' x hx
    have hname := ((hedgesOk _ c hc).named e he).2
    rw [htargets]
    by_cases hq : q = seq
    · subst hq
      rw [hself] at hd
      cases hd
      rw [if_pos rfl]
      obtain ⟨hmem, hall⟩ := hown c hc
      have hresolves := fun id hid => resolvesTo_iff ho hw hw' hself hother hold hname id hx
        ((hall e he id hid).imp fun _ htarget => htarget.1)
      constructor
      · intro hg
        obtain ⟨e', he', htype, id, hid, htarget⟩ := hmem _ hg
        have hdoc := (hw'.held_of_curr ho hself).1
        have hsame := (edgeTypeFor_inj hdoc hdoc htype).2
        rw [← (hedgesOk _ c hc).eq_of_name he he' hsame] at hid htarget
        obtain ⟨hcol, hxid⟩ := (hresolves id hid).1 htarget
        rw [hxid]
        exact ⟨hcol, hid⟩
      · rintro ⟨hcol, hid⟩
        obtain ⟨target, htarget, hg⟩ := hall e he x.id hid
        rw [resolvesTo_unique ((hresolves x.id hid).2 ⟨hcol, rfl⟩) htarget]
        exact hg
    · rw [if_neg hq]
      rw [hother q hq] at hd
      by_cases hq' : q' = seq
      · subst hq'
        rw [hself] at hx
        cases hx
        rcases hcase with ⟨old, hcurr, hcol, hid⟩ | ⟨-, hmem, hby, hunnamed⟩
        · rw [hcol, hid]
          exact h.mirror q d c e hd hc he q' old hcurr
        · constructor
          · intro hg
            obtain ⟨-, hnot | hsome⟩ := h.settled q d hd _ hg
            · exact absurd hmem hnot
            · rw [hby] at hsome
              cases hsome
          · rintro ⟨hcol, hid⟩
            exact absurd hid (hunnamed q d c e hd hc he hcol.symm)
      · rw [hother q' hq'] at hx
        exact h.mirror q d c e hd hc he q' x hx
  case typed =>
    intro q d hd g hg c hc
    rw [htargets] at hg
    by_cases hq : q = seq
    · subst hq
      rw [hself] at hd
      cases hd
      rw [if_pos rfl] at hg
      obtain ⟨e, he, htype, -⟩ := (hown c hc).1 g hg
      exact ⟨e, he, htype⟩
    · rw [if_neg hq] at hg
      rw [hother q hq] at hd
      exact h.typed q d hd g hg c hc
  case settled =>
    intro q d hd g hg
    rw [htargets] at hg
    by_cases hq : q = seq
    · rw [if_pos hq] at hg
      cases hc : loadCollection t o doc.collection with
      | none =>
        rw [hc] at hedges
        cases hedges
        exact absurd hg not_mem_nil
      | some c =>
        obtain ⟨e, he, -, id, hid, htarget⟩ := (hown c hc).1 g hg
        unfold ResolvesTo at htarget
        split_ifs at htarget with hsame
        · rw [htarget, hbySeq, if_pos rfl]
          refine ⟨?_, .inr rfl⟩
          rcases hcase with ⟨old, hcurr, -⟩ | ⟨-, hmem, -⟩
          · exact (hw.own_of_curr ho hcurr).1
          · exact (hreserved seq hmem).1
        · obtain ⟨x, hx⟩ := htarget
          obtain ⟨hle, hor⟩ := used_of_curr ho hw hnone (hw.curr_of_named ho ht hx)
          exact ⟨hle, hor.imp_right (hused g.2)⟩
    · rw [if_neg hq] at hg
      rw [hother q hq] at hd
      obtain ⟨hle, hor⟩ := h.settled q d hd g hg
      exact ⟨hle, hor.imp_right (hused g.2)⟩

lemma keeps :
    Keeps host t o now ops (InsertsUnnamed t o) fun _ s => Linking t o reserved s where
  put hop hw hplaced hor hput hw' h :=
    h.put ho ht hreserved hseqs hedgesOk hop hw hplaced hor hput hw'
  forget _ _ _ h := h.forget _ _
  forgetAgain _ h := h.forget _ _
  retract hw h := h.retract hw mem_cons_self

end

end Linking

/-! ## Every run -/

/-- Every tenant's documents have the edges they hold, and collections' edges are well formed. -/
structure AllLinked (o : Objects Record) (reserved : List Seq) : Prop where
  edges : ∀ t n c, loadCollection t o n = some c → EdgesOk c
  links : ∀ t, TenantOk t → Linked t o reserved

lemma Linked.of_same {reserved' : List Seq}
    (h : Linked t o reserved) (hdocs : ∀ q, docAt t o' q = docAt t o q)
    (htargets : ∀ q d, docAt t o q = some d → targetsOf o' q = targetsOf o q)
    (hload : ∀ q d c', docAt t o q = some d → loadCollection t o' d.collection = some c' →
      ∃ c, loadCollection t o d.collection = some c ∧ c'.edges = c.edges)
    (hsettled : ∀ q ≤ o.lastSeq, q ∉ reserved → q ≤ o'.lastSeq ∧ q ∉ reserved') : Linked t o' reserved' where
  mirror q d c' e hd hc' he s x hx := by
    rw [hdocs] at hd hx
    obtain ⟨c, hc, hedges⟩ := hload q d c' hd hc'
    rw [htargets q d hd]
    exact h.mirror q d c e hd hc (hedges ▸ he) s x hx
  typed q d hd g hg c' hc' := by
    rw [hdocs] at hd
    rw [htargets q d hd] at hg
    obtain ⟨c, hc, hedges⟩ := hload q d c' hd hc'
    rw [hedges]
    exact h.typed q d hd g hg c hc
  settled q d hd g hg := by
    rw [hdocs] at hd
    rw [htargets q d hd] at hg
    obtain ⟨hle, hnot⟩ := h.settled q d hd g hg
    exact hsettled g.2 hle hnot

lemma AllLinked.of_records
    (h : AllLinked o reserved) (hdocs : SameDocuments o o') (hlater : o.lastSeq ≤ o'.lastSeq)
    (hload : ∀ t n c', loadCollection t o' n = some c' →
      (∃ c, loadCollection t o n = some c ∧ c'.edges = c.edges) ∨
        (EdgesOk c' ∧ (TenantOk t → ∀ q d, docAt t o q = some d → d.collection ≠ n))) :
    AllLinked o' reserved where
  edges t n c' hc' := by
    rcases hload t n c' hc' with ⟨c, hc, hedges⟩ | ⟨hok, -⟩
    · obtain ⟨named, nodup⟩ := h.edges t n c hc
      exact ⟨by rw [hedges]; exact named, by rw [hedges]; exact nodup⟩
    · exact hok
  links t ht := by
    refine (h.links t ht).of_same (hdocs.docAt t) (fun q d hd => ?_) (fun q d c' hd hc' => ?_)
      fun q hle hnot => ⟨hle.trans hlater, hnot⟩
    · unfold targetsOf
      rw [hdocs.held t q d hd]
    · exact (hload t _ c' hc').resolve_right fun hnew => hnew.2 ht q d hd rfl

lemma AllLinked.collectionPut
    (h : AllLinked o reserved) (ho : Kept o) {n : Utf16} {seq : Seq} {c c' : StoredCollection}
    (hseq : o.named ⟨collectionNs t, n⟩ = some seq) (hc : loadCollection t o n = some c)
    (hname : c'.name = c.name) (hedges : c'.edges = c.edges) :
    AllLinked (o.commit [Db.collectionPut t seq c']) reserved := by
  have hn := (ho.name_of_load hc).1
  have htakes : o.Takes seq ⟨collectionNs t, c'.name⟩ := by
    refine ho.named.takes_of_named ?_
    rw [← hseq, hname, hn]
  rw [Objects.commit_cons, Objects.commit_nil]
  refine h.of_records (sameDocuments_put htakes fun _ _ hns => documentNs_ne_collectionNs hns.symm)
    (by rw [lastSeq_write]) fun t' n' c'' hc'' => .inl ?_
  rw [loadCollection_collectionPut ho.named htakes] at hc''
  split_ifs at hc'' with heq
  · obtain ⟨rfl, rfl⟩ := heq
    cases hc''
    rw [hname, hn]
    exact ⟨c, hc, hedges⟩
  · exact ⟨c'', hc'', rfl⟩

lemma AllLinked.putsIndexes
    (h : AllLinked o reserved) (ho : Kept o) {n : Utf16} {seq : Seq}
    (hseq : o.named ⟨collectionNs t, n⟩ = some seq) (hputs : PutsIndexes t o seq n o') :
    AllLinked o' reserved := by
  obtain rfl | ⟨c, indexes, hc, rfl⟩ := hputs
  · exact h
  · exact h.collectionPut ho hseq hc rfl rfl

lemma Linking.linked_commit {host : Host} {s : Staged}
    {ops : List DocumentWrite} (ho : Kept o)
    (hw : Within host t o [] [] s) (h : Linking t o reserved s)
    (hreserved : ∀ q ∈ reserved, o.held.get q = none)
    (hused : ∀ q doc, s.pending.bySeq q = some doc → q ∈ seqsOf ops ∨ ∃ d, docAt t o q = some d) :
    Linked t (o.commit s.writes) (reserved.filter fun q => q ∉ seqsOf ops) where
  mirror q d c e hd hc he q' x hx := by
    rw [hw.docAt_commit] at hd hx
    rw [hw.load_commit ho] at hc
    exact h.mirror q d c e hd hc he q' x hx
  typed q d hd g hg c hc := by
    rw [hw.docAt_commit] at hd
    rw [hw.load_commit ho] at hc
    exact h.typed q d hd g hg c hc
  settled q d hd g hg := by
    rw [hw.docAt_commit] at hd
    rw [lastSeq_commit]
    obtain ⟨hle, hor⟩ := h.settled q d hd g hg
    refine ⟨hle, fun hmem => ?_⟩
    obtain ⟨hmem, hnot⟩ := mem_filter.1 hmem
    rcases hor with hnotMem | hsome
    · exact hnotMem hmem
    · obtain ⟨doc, hdoc⟩ := isSome_iff_exists.1 hsome
      rcases hused g.2 doc hdoc with hseq | ⟨d', hd'⟩
      · exact absurd hseq (by simpa using hnot)
      · obtain ⟨held, hheld, -⟩ := docAt_eq_some.1 hd'
        rw [hreserved g.2 hmem] at hheld
        cases hheld

lemma mem_linksAt (ho : Kept o) (ht : TenantOk t)
    (hd : docAt t o q = some d) {g : Utf16 × Seq} :
    g ∈ linksAt t o d q e ↔ g.1 = edgeTypeFor d.collection e.name ∧
      ∃ x, docAt t o g.2 = some x ∧ x.collection = e.collection ∧ x.id ∈ edgeIds d.data e.path := by
  have hlinks : linksAt t o d q e = (edgeValues d.data e.path).filterMap fun value =>
      value.asString?.bind fun id =>
        if e.collection = d.collection ∧ id = d.id then some (edgeTypeFor d.collection e.name, q)
        else (o.lookup (documentNs t e.collection) id).map fun target =>
          (edgeTypeFor d.collection e.name, target) := by
    refine filterMap_congr fun value _ => ?_
    cases value.asString? with
    | none | some => rfl
  rw [hlinks, mem_filterMap]
  constructor
  · rintro ⟨v, hv, hg⟩
    obtain ⟨id, hid, hg⟩ := bind_eq_some_iff.1 hg
    have hmem := mem_edgeIds.2 ⟨v, hv, hid⟩
    split_ifs at hg with hself
    · cases hg
      exact ⟨rfl, d, hd, hself.1.symm, hself.2 ▸ hmem⟩
    · obtain ⟨target, htarget, rfl⟩ := map_eq_some_iff.1 hg
      obtain ⟨x, hx, hcol, hxid⟩ := (ho.named_iff ht).1 htarget
      exact ⟨rfl, x, hx, hcol, hxid ▸ hmem⟩
  · rintro ⟨htype, x, hx, hcol, hmem⟩
    obtain ⟨v, hv, hid⟩ := mem_edgeIds.1 hmem
    refine ⟨v, hv, bind_eq_some_iff.2 ⟨x.id, hid, ?_⟩⟩
    split_ifs with hself
    · rw [← htype, ho.docAt_inj ht hd hx (hself.1.symm.trans hcol.symm) hself.2.symm]
    · have hnamed : o.lookup (documentNs t e.collection) x.id = some g.2 :=
        (ho.named_iff ht).2 ⟨x, hx, hcol, rfl⟩
      rw [hnamed, map_some, ← htype]

/-- The condition on a batch: every change of it meets the condition on a change, as the changes
before it leave the transaction. -/
def BatchInsertsUnnamed (host : Host) (w : World) (t : TenantId) (now : Utf16)
    (ops : List DocumentWrite) : Prop :=
  ∀ before op after s, ops = before ++ op :: after →
    before.foldlM (applyWrite host t w.store now) {} = .ok s → InsertsUnnamed t w.store op s

namespace AllLinked

variable {host : Host} {w : World} {t : TenantId} {now : Utf16}

lemma changes (h : AllLinked w.store w.reserved) (hw : w.Sound)
    {ops : List DocumentWrite} {s : Staged} (ht : TenantOk t)
    (hreserved : ∀ q ∈ seqsOf ops, q ∈ w.reserved) (hnodup : (seqsOf ops).Nodup)
    (hC : BatchInsertsUnnamed host w t now ops) (hs : ops.foldlM (applyWrite host t w.store now) {} = .ok s) :
    AllLinked (w.store.commit s.writes) (w.reserved.filter fun q => q ∉ seqsOf ops) := by
  have hfresh : ∀ q ∈ seqsOf ops, w.store.held.get q = none := fun q hq =>
    (hw.reserved q (hreserved q hq)).2
  have hbound : ∀ q ∈ seqsOf ops, q ≤ w.store.lastSeq := fun q hq =>
    (hw.reserved q (hreserved q hq)).1
  obtain ⟨hwithin, hapart⟩ := foldlM_induct hw.kept ht (Apart.keeps hw.kept (hw.respects t ht)) hfresh
    hbound hnodup (fun _ _ _ _ _ _ => trivial) (Apart.start (hw.respects t ht)) hs
  obtain ⟨-, hlinking⟩ := foldlM_induct hw.kept ht
    (Linking.keeps hw.kept ht hw.reserved hreserved (h.edges t)) hfresh hbound hnodup hC
    (Linking.start (h.links t ht)) hs
  have hload := hwithin.load_commit hw.kept
  refine ⟨fun t' n c hc => h.edges t' n c ((hload t' n).symm.trans hc), fun t' ht' => ?_⟩
  by_cases heq : t' = t
  · rw [heq]
    exact hlinking.linked_commit hw.kept hwithin (fun q hq => (hw.reserved q hq).2) hapart.used
  · refine (h.links t' ht').of_same (hwithin.docAt_commit_of_ne ht ht' heq) (fun q d hd => ?_)
      (fun q d c' hd hc' => ⟨c', (hload t' _).symm.trans hc', rfl⟩) fun q hle hnot => ?_
    · unfold targetsOf
      rw [hwithin.held_commit_of_ne ht ht' heq hd]
    · exact ⟨by rwa [lastSeq_commit], fun hmem => hnot (mem_of_mem_filter hmem)⟩

lemma putBack (h : AllLinked w.store w.reserved) (hw : w.Sound) (ht : TenantOk t)
    {l : List (Seq × Document × IndexManifest)}
    (hl : ∀ e ∈ l, PutBack host t w.store (linksFor t w.store) e) :
    AllLinked (w.store.commit (l.map (Db.putBack t))) w.reserved := by
  obtain ⟨-, hdocs, hloads, hheld, -, hputs⟩ := PutBack.commit hw.kept ht hl
  refine ⟨fun t' n c hc => h.edges t' n c ((hloads t' n).symm.trans hc), fun t' ht' => ?_⟩
  have hsame : ∀ q, (∀ e ∈ l, e.1 ≠ q) →
      targetsOf (w.store.commit (l.map (Db.putBack t))) q = targetsOf w.store q := by
    intro q hq
    unfold targetsOf
    rw [hheld q hq]
  by_cases heq : t' = t
  · subst heq
    -- a document put back is linked to the documents its ids name
    have hlinks : ∀ q d, docAt t' w.store q = some d → (∃ e ∈ l, e.1 = q) →
        targetsOf (w.store.commit (l.map (Db.putBack t'))) q = linksFor t' w.store d q := by
      rintro q d hd ⟨e, he, rfl⟩
      obtain ⟨held, hheld', hmanifest⟩ := hputs e he
      have hd' := (hl e he).1
      rw [hd] at hd'
      cases hd'
      unfold targetsOf
      rw [hheld']
      exact edges_of_manifestFor hmanifest
    have hmem : ∀ {q d c}, docAt t' w.store q = some d →
        loadCollection t' w.store d.collection = some c → ∀ {g}, g ∈ linksFor t' w.store d q ↔
          ∃ e ∈ c.edges, g.1 = edgeTypeFor d.collection e.name ∧ ∃ x, docAt t' w.store g.2 = some x ∧
            x.collection = e.collection ∧ x.id ∈ edgeIds d.data e.path := by
      intro q d c hd hc g
      unfold linksFor
      rw [hc, elim_some, mem_flatMap]
      exact exists_congr fun e => and_congr_right fun _ => mem_linksAt hw.kept ht' hd
    constructor
    case mirror =>
      intro q d c e hd hc he q' x hx
      rw [hdocs] at hd hx
      rw [hloads] at hc
      by_cases hq : ∃ e ∈ l, e.1 = q
      · rw [hlinks q d hd hq, hmem hd hc]
        have hname := hw.kept.isName_of_docAt hd
        constructor
        · rintro ⟨e', he', htype, x', hx', htarget⟩
          have hsame := (edgeTypeFor_inj hname hname htype).2
          rw [(h.edges _ _ c hc).eq_of_name he he' hsame]
          rw [hx] at hx'
          cases hx'
          exact htarget
        · intro htarget
          exact ⟨e, he, rfl, x, hx, htarget⟩
      · rw [hsame q fun e he heq => hq ⟨e, he, heq⟩]
        exact (h.links t' ht').mirror q d c e hd hc he q' x hx
    case typed =>
      intro q d hd g hg c hc
      rw [hdocs] at hd
      rw [hloads] at hc
      by_cases hq : ∃ e ∈ l, e.1 = q
      · rw [hlinks q d hd hq, hmem hd hc] at hg
        obtain ⟨e, he, htype, -⟩ := hg
        exact ⟨e, he, htype⟩
      · rw [hsame q fun e he heq => hq ⟨e, he, heq⟩] at hg
        exact (h.links t' ht').typed q d hd g hg c hc
    case settled =>
      intro q d hd g hg
      rw [hdocs] at hd
      rw [lastSeq_commit]
      by_cases hq : ∃ e ∈ l, e.1 = q
      · rw [hlinks q d hd hq] at hg
        cases hc : loadCollection t' w.store d.collection with
        | none =>
          unfold linksFor at hg
          rw [hc] at hg
          exact absurd hg not_mem_nil
        | some c =>
          obtain ⟨e, -, -, x, hx, -⟩ := (hmem hd hc).1 hg
          obtain ⟨held, hheld', -⟩ := docAt_eq_some.1 hx
          refine ⟨hw.kept.bounded _ held hheld', fun hreserved => ?_⟩
          rw [(hw.reserved _ hreserved).2] at hheld'
          cases hheld'
      · rw [hsame q fun e he heq => hq ⟨e, he, heq⟩] at hg
        exact (h.links t' ht').settled q d hd g hg
  · refine (h.links t' ht').of_same (hdocs t') (fun q d hd => hsame q fun e he hq => ?_)
      (fun q d c' hd hc' => ⟨c', (hloads t' _).symm.trans hc', rfl⟩)
      fun q hle hnot => ⟨by rwa [lastSeq_commit], hnot⟩
    subst hq
    exact heq (tenant_of_docAt ht' ht hd (hl e he).1)

lemma alike (h : AllLinked o reserved)
    (hr : RecordsOnly o.lastSeq o o' ∧ SameRecords o o') : AllLinked o' reserved := by
  refine h.of_records hr.1.documents hr.1.later fun t n c' hc' => ?_
  obtain ⟨c, hc, halike⟩ := hr.2.back t n c' hc'
  exact .inl ⟨c, hc, halike.edges⟩

section

variable (h : AllLinked w.store w.reserved) (hw : w.Sound)
include h hw

lemma create
    {salt : Utf16 → Utf16} {input : CollectionInput} :
    AllLinked (createCollection t w.store now salt input).2 w.reserved := by
  obtain ⟨hr, hkeep, hnew⟩ := createCollection_recordsOnly hw.kept t now salt input
  refine h.of_records hr.documents hr.later fun t' n c' hc' => ?_
  cases hc : loadCollection t' w.store n with
  | some c =>
    obtain ⟨b', hb', halike⟩ := hkeep t' n c hc
    rw [hb'] at hc'
    cases hc'
    exact .inl ⟨c, rfl, halike.edges⟩
  | none =>
    -- a collection that was not there has no documents
    refine .inr ⟨(hnew t' n c' hc' hc).2.2.1, fun ht' q d hd hcol => ?_⟩
    obtain ⟨c, hc'⟩ := (hw.respects t' ht').homed q d hd
    rw [hcol, hc] at hc'
    cases hc'

lemma dropCollection {now name : Utf16} (ht : TenantOk t)
    (hquiet : ∀ b ∈ w.builds, ¬(b.tenant = t ∧ b.collection = name)) :
    AllLinked (Db.dropCollection host t w.store now name).2 w.reserved := by
  refine (dropCollection_induct (P := fun o => World.Sound { w with store := o } ∧
    AllLinked o w.reserved) ht (fun h => h.1.kept) ?_ ?_ ?_ ⟨hw, h⟩).2
  · rintro o ops s hinserts hs ⟨hw', h'⟩
    have hseqs := seqsOf_eq_nil hinserts
    refine ⟨hw'.changesOnly ht hinserts hs, ?_⟩
    have hlinked := h'.changes (w := { w with store := o }) hw' ht (by rw [hseqs]; simp)
      (by rw [hseqs]; simp) (fun before op after s' hops _ => ?_) hs
    · simpa only [hseqs, not_mem_nil, not_false_eq_true, decide_true, filter_true]
        using hlinked
    · intro collection id data expiry seq hop
      rw [hinserts op (by rw [hops]; simp)] at hop
      cases hop
  · rintro o o' hr ⟨hw', h'⟩
    exact ⟨hw'.alike hr, h'.alike hr⟩
  · rintro o seq hseq hempty ⟨hw', h'⟩
    refine ⟨hw'.retractRecord hseq hempty hquiet, ?_⟩
    obtain ⟨held, hheld, hid⟩ := (hw'.kept.named _ _).1 hseq
    refine h'.of_records (sameDocuments_retract hheld hid fun _ _ hns =>
      documentNs_ne_collectionNs hns.symm) (by rw [lastSeq_write]) fun t' n c' hc' => .inl ?_
    rw [loadCollection_retract hw'.kept.named] at hc'
    split_ifs at hc'
    exact ⟨c', hc', rfl⟩

lemma step {w' : World}
    (hstep : w.Step host (BatchInsertsUnnamed host) w') : AllLinked w'.store w'.reserved := by
  cases hstep with
  | reserve =>
    refine ⟨h.edges, fun t ht => (h.links t ht).of_same (fun _ => rfl) (fun _ _ _ => rfl)
      (fun q d c' _ hc' => ⟨c', hc', rfl⟩) fun q hle hnot => ⟨hle.trans (Nat.le_succ _), ?_⟩⟩
    intro hmem
    rcases mem_cons.1 hmem with rfl | hmem
    · exact Nat.not_succ_le_self _ hle
    · exact hnot hmem
  | write ht hreserved hnodup hC hwrite =>
    obtain ⟨s, hs, rfl⟩ := writeDocuments_eq_ok hwrite
    exact h.changes hw ht hreserved hnodup hC hs
  | create hfresh => exact h.create hw
  | addReference => exact h.alike (addReference_recordsOnly hw.kept _ _)
  | dropReference => exact h.alike (dropReference_recordsOnly hw.kept _ _)
  | dropCollection ht hquiet => exact h.dropCollection hw ht hquiet
  | start ht hvalid hseq => exact h
  | record hbuilds hphase hfresh hrecord hsame hbuilding =>
    have hseq := (hw.builds _ (World.Sound.mem_of_builds hbuilds)).seq
    exact h.putsIndexes hw.kept hseq (recordIndex_puts hrecord)
  | scan hbuilds hphase => exact h
  | rewrite hbuilds hphase hrewrite =>
    have hb := hw.builds _ (World.Sound.mem_of_builds hbuilds)
    obtain ⟨l, rfl, hl, -⟩ := rewriteChunk_eq_ok (hb.docAt_of_todo hphase) hrewrite
    exact h.putBack hw hb.tenant fun e he => (hl e he).2
  | finish hbuilds hphase hfinish =>
    have hseq := (hw.builds _ (World.Sound.mem_of_builds hbuilds)).seq
    exact h.putsIndexes hw.kept hseq (finishIndex_puts hfinish)
  | abandon hbuilds => exact h
  | configure ht hseq => exact h.alike (recordSettings_recordsOnly hw.kept hseq _)
  | reindex ht hseq => exact h
  | drop ht hseq => exact h.putsIndexes hw.kept hseq (dropIndex_puts _)

end

end AllLinked

lemma Reached.allLinked {host : Host} {w : World} (h : Reached host (BatchInsertsUnnamed host) w) :
    AllLinked w.store w.reserved := by
  induction h with
  | start =>
    refine ⟨fun t n c hc => ?_, fun t _ => ⟨fun q d c e hd => ?_, fun q d hd => ?_, fun q d hd => ?_⟩⟩
    · cases hc
    · cases hd
    · cases hd
    · cases hd
  | step h hstep ih => exact ih.step h.sound hstep

/-! ## Writing a document again -/

def Document.contents (d : Document) : Utf16 × Utf16 × JsonObject := (d.collection, d.id, d.data)

/-- The changes that write a document again with the data it has. -/
inductive WritesAgain (d : Document) : DocumentWrite → Prop where
  | update {data : JsonObject} {mode : UpdateMode} {expectedVersion : Option ℕ}
      {precondition : List DocumentFilter} (h : updatedData mode d.data data = d.data) :
      WritesAgain d (.update d.collection d.id data mode expectedVersion precondition)
  | upsert {expectedVersion : Option ℕ} {expiry : Expiry} {seq : Seq} :
      WritesAgain d (.upsert d.collection d.id d.data expectedVersion expiry seq)

/-- Writing a document again with the data it has changes no answer along an edge. -/
def RewritesKeepAnswers (host : Host) (t : TenantId) (w : World) : Prop :=
  ∀ now q d op store, docAt t w.store q = some d → WritesAgain d op →
    (∀ q ∈ seqsOf [op], q ∈ w.reserved) → writeDocuments host t w.store now [op] = .ok store →
    ∀ collection filter docs docs', findLinked t w.store collection filter = .ok docs →
      findLinked t store collection filter = .ok docs' →
      ∀ id, id ∈ docs'.map Document.id ↔ id ∈ docs.map Document.id

section

variable {host : Host} {t : TenantId} {o : Objects Record} {now : Utf16}

lemma contents_of_writesAgain (ho : Kept o) (ht : TenantOk t)
    (hd : docAt t o q = some d) (hop : WritesAgain d op) {s : Staged}
    (h : applyWrite host t o now {} op = .ok s) (q' : Seq) :
    (curr t o s.pending q').map Document.contents = (docAt t o q').map Document.contents := by
  have hnamed : currentNamed t o ({} : Staged).pending d.collection d.id = some (q, some d) :=
    ((Within.start ho ht [] : Within host t o [] [] {}).names _ _ (ho.isName_of_docAt hd) q d).2
      ⟨hd, rfl, rfl⟩
  obtain ⟨d', hcontents, hput⟩ : ∃ d', d'.contents = d.contents ∧
      documentPut host t o d' q none {} = .ok s := by
    cases hop with
    | update hdata =>
      obtain ⟨expiresAt, hput⟩ := applyUpdate_eq_ok hnamed h
      refine ⟨_, ?_, hput⟩
      unfold Document.contents
      rw [hdata]
    | upsert =>
      unfold applyWrite at h
      dsimp only at h hnamed
      rw [hnamed] at h
      obtain ⟨expiresAt, hput⟩ := applyUpdate_eq_ok hnamed h
      refine ⟨_, ?_, hput⟩
      rfl
  obtain ⟨edges, manifest, -, -, rfl⟩ := documentPut_eq_ok rfl hput
  by_cases heq : q' = q
  · have hby : (remember {} (loadCollection t o d'.collection) d' q).bySeq q' = some (some d') :=
      if_pos heq
    rw [curr_of_some hby, heq, hd, map_some, map_some, hcontents]
  · have hby : (remember {} (loadCollection t o d'.collection) d' q).bySeq q' = none := if_neg heq
    rw [curr_of_none hby]

end

/-- Two stores that answer along edges what their documents hold, with the same contents, answer with
the same documents. -/
theorem EdgesMirrored.ids_iff (ho : Kept o) (ho' : Kept o')
    (ht : TenantOk t) (h : EdgesMirrored t o) (h' : EdgesMirrored t o')
    (hload : ∀ n, loadCollection t o' n = loadCollection t o n)
    (hcontents : ∀ q, (docAt t o' q).map Document.contents = (docAt t o q).map Document.contents)
    {docs docs' : List Document} (hdocs : findLinked t o collection filter = .ok docs)
    (hdocs' : findLinked t o' collection filter = .ok docs') (id : Utf16) :
    id ∈ docs'.map Document.id ↔ id ∈ docs.map Document.id := by
  have hdeclared : declaredEdge t o' collection filter = declaredEdge t o collection filter := by
    unfold declaredEdge edgesOf
    simp only [hload]
  -- a document of one store is one of the other
  have hback : ∀ q x, docAt t o' q = some x → ∃ y, docAt t o q = some y ∧
      y.collection = x.collection ∧ y.id = x.id ∧ y.data = x.data := by
    intro q x hx
    have hq := hcontents q
    rw [hx, map_some] at hq
    obtain ⟨y, hy, heq⟩ := map_eq_some_iff.1 hq.symm
    simp only [Document.contents, Prod.mk.injEq] at heq
    exact ⟨y, hy, heq⟩
  have hforth : ∀ q x, docAt t o q = some x → ∃ y, docAt t o' q = some y ∧
      y.collection = x.collection ∧ y.id = x.id ∧ y.data = x.data := by
    intro q x hx
    have hq := hcontents q
    rw [hx, map_some] at hq
    obtain ⟨y, hy, heq⟩ := map_eq_some_iff.1 hq
    simp only [Document.contents, Prod.mk.injEq] at heq
    exact ⟨y, hy, heq⟩
  cases hedge : declaredEdge t o collection filter with
  | error fault =>
    unfold findLinked withLink at hdocs
    rw [hedge] at hdocs
    cases hdocs
  | ok edge =>
    obtain ⟨declaring, e⟩ := edge
    have hedge' := hdeclared.trans hedge
    -- the document the filter starts from, in either store
    obtain ⟨holding, hholding⟩ : ∃ holding, holding = match filter.direction with
      | .inbound => e.collection
      | .outbound => declaring := ⟨_, rfl⟩
    by_cases hsome : ∃ q d, docAt t o q = some d ∧ d.collection = holding ∧ d.id = filter.id
    · obtain ⟨q, d, hd, hcol, hid⟩ := hsome
      obtain ⟨d', hd', hcol', hid', hdata⟩ := hforth q d hd
      obtain ⟨hout, hin⟩ := h collection filter declaring e hedge docs hdocs q d hd hid
      obtain ⟨hout', hin'⟩ := h' collection filter declaring e hedge' docs' hdocs' q d' hd'
        (hid'.trans hid)
      rw [List.mem_map, List.mem_map]
      cases hdirection : filter.direction with
      | outbound =>
        rw [hdirection] at hholding
        have hiff := hout hdirection (hcol.trans hholding)
        have hiff' := hout' hdirection (hcol'.trans (hcol.trans hholding))
        simp only [hiff, hiff', hdata]
        constructor
        · rintro ⟨x, ⟨hc, htarget, hmem, s, hx⟩, rfl⟩
          obtain ⟨y, hy, hyc, hyid, -⟩ := hback s x hx
          exact ⟨y, ⟨hyc.trans hc, hyc.trans htarget, hyid ▸ hmem, s, hy⟩, hyid⟩
        · rintro ⟨x, ⟨hc, htarget, hmem, s, hx⟩, rfl⟩
          obtain ⟨y, hy, hyc, hyid, -⟩ := hforth s x hx
          exact ⟨y, ⟨hyc.trans hc, hyc.trans htarget, hyid ▸ hmem, s, hy⟩, hyid⟩
      | inbound =>
        rw [hdirection] at hholding
        have hiff := hin hdirection (hcol.trans hholding)
        have hiff' := hin' hdirection (hcol'.trans (hcol.trans hholding))
        simp only [hiff, hiff', hid']
        constructor
        · rintro ⟨x, ⟨hc, htarget, hmem, s, hx⟩, rfl⟩
          obtain ⟨y, hy, hyc, hyid, hydata⟩ := hback s x hx
          exact ⟨y, ⟨hyc.trans hc, hyc.trans htarget, hydata ▸ hmem, s, hy⟩, hyid⟩
        · rintro ⟨x, ⟨hc, htarget, hmem, s, hx⟩, rfl⟩
          obtain ⟨y, hy, hyc, hyid, hydata⟩ := hforth s x hx
          exact ⟨y, ⟨hyc.trans hc, hyc.trans htarget, hydata ▸ hmem, s, hy⟩, hyid⟩
    · -- nothing to start from, in either store
      have hnil : ∀ {o docs}, Kept o → declaredEdge t o collection filter = .ok (declaring, e) →
          (¬∃ q d, docAt t o q = some d ∧ d.collection = holding ∧ d.id = filter.id) →
          findLinked t o collection filter = .ok docs → docs = [] := by
        intro o docs ho hedge hnone hdocs
        have hlookup : o.lookup (documentNs t holding) filter.id = none := by
          cases hseq : o.lookup (documentNs t holding) filter.id with
          | none => rfl
          | some q =>
            obtain ⟨d, hd, hcol, hid⟩ := (ho.named_iff ht).1 hseq
            exact absurd ⟨q, d, hd, hcol, hid⟩ hnone
        unfold findLinked withLink at hdocs
        rw [hedge] at hdocs
        dsimp only at hdocs
        rw [← hholding, hlookup] at hdocs
        cases hdocs
        rfl
      rw [hnil ho hedge hsome hdocs, hnil ho' hedge' (fun hsome' => hsome ?_) hdocs']
      obtain ⟨q, x, hx, hcol, hid⟩ := hsome'
      obtain ⟨y, hy, hyc, hyid, -⟩ := hback q x hx
      exact ⟨q, y, hy, hyc.trans hcol, hyid.trans hid⟩

/-- In every state reached by a run whose changes insert no document that another names already,
reads along edges answer what the documents hold, and writing a document again changes none. -/
theorem reached_edgesMirrored {host : Host} {w : World}
    (h : Reached host (BatchInsertsUnnamed host) w) {t : TenantId} (ht : TenantOk t) :
    EdgesMirrored t w.store ∧ RewritesKeepAnswers host t w := by
  have hmirrored : ∀ {w'}, Reached host (BatchInsertsUnnamed host) w' → EdgesMirrored t w'.store :=
    fun h' => (h'.allLinked.links t ht).edgesMirrored h'.sound.kept ht (h'.sound.respects t ht).homed
  refine ⟨hmirrored h, ?_⟩
  intro now q d op store hd hop hreserved hwrite collection filter docs docs' hdocs hdocs' id
  have hkept := h.sound.kept
  have hnamed : currentNamed t w.store ({} : Staged).pending d.collection d.id = some (q, some d) :=
    ((Within.start hkept ht [] : Within host t w.store [] [] {}).names _ _
      (hkept.isName_of_docAt hd) q d).2 ⟨hd, rfl, rfl⟩
  -- a change of a document that is there inserts nothing
  have hC : BatchInsertsUnnamed host w t now [op] := by
    intro before op' after s hops hs collection id data expiry seq hinserts hfree
    cases before with
    | nil =>
      obtain ⟨rfl, rfl⟩ := List.cons.inj hops
      cases hs
      cases hop with
      | update hdata => cases hinserts
      | upsert =>
        cases hinserts
        exact absurd hnamed (hfree q d)
    | cons op'' before => simp at hops
  obtain ⟨s, hs, rfl⟩ := writeDocuments_eq_ok hwrite
  have hnodup : (seqsOf [op]).Nodup := by
    cases hop with
    | update hdata => exact List.nodup_nil
    | upsert => exact List.nodup_singleton _
  have hreached := h.step (.write ht hreserved hnodup hC hwrite)
  obtain ⟨hw, -⟩ := foldlM_induct hkept ht (Apart.keeps hkept (h.sound.respects t ht))
    (fun q hq => (h.sound.reserved q (hreserved q hq)).2)
    (fun q hq => (h.sound.reserved q (hreserved q hq)).1) hnodup (fun _ _ _ _ _ _ => trivial)
    (Apart.start (h.sound.respects t ht)) hs
  have happly : applyWrite host t w.store now {} op = .ok s := by
    obtain ⟨s', hs', hrest⟩ := bind_eq_ok_iff.1 hs
    cases hrest
    exact hs'
  refine (hmirrored h).ids_iff hkept hreached.sound.kept ht (hmirrored hreached)
    (hw.load_commit hkept t) (fun q' => ?_) hdocs hdocs' id
  rw [hw.docAt_commit]
  exact contents_of_writesAgain hkept ht hd hop happly q'

def linkInput : CollectionInput where
  name := utf16 "a"
  edges := [{ name := utf16 "r", path := utf16 "e", collection := utf16 "a" }]

def linkWorld : World where
  store := (createCollection (utf16 "t") .empty [] (fun _ => utf16 "s") linkInput).2

def linkInsert (id target : Utf16) (seq : Seq) : DocumentWrite :=
  .insert (utf16 "a") id [(utf16 "e", .string target)] .keep seq

def linkStore (o : Objects Record) (ops : List DocumentWrite) : Objects Record :=
  match writeDocuments plainHost (utf16 "t") o [] ops with
  | .ok store => store
  | .error _ => o

def linkFilter (id : Utf16) : LinkFilter := { id, edge := utf16 "r" }

lemma writeDocuments_linkStore (o : Objects Record) (ops : List DocumentWrite)
    (h : (writeDocuments plainHost (utf16 "t") o [] ops).toOption.isSome = true) :
    writeDocuments plainHost (utf16 "t") o [] ops = .ok (linkStore o ops) := by
  unfold linkStore
  cases hresult : writeDocuments plainHost (utf16 "t") o [] ops with
  | ok store => rfl
  | error fault =>
    rw [hresult] at h
    cases h

lemma reached_linkWorld (C : World → TenantId → Utf16 → List DocumentWrite → Prop) :
    Reached plainHost C linkWorld :=
  .step .start (@World.Step.create plainHost C {} (utf16 "t") [] (fun _ => utf16 "s") linkInput
    (by simp))

/-- A run of inserts that name each other, in which a document is deleted and inserted again. -/
def relinkedStore : Objects Record :=
  linkStore (linkStore linkWorld.store.nextSeq.2.nextSeq.2.nextSeq.2
    [linkInsert (utf16 "x") (utf16 "x") 3, linkInsert (utf16 "y") (utf16 "x") 4])
    [.delete (utf16 "a") (utf16 "x") none [], linkInsert (utf16 "x") (utf16 "x") 5]

/-- A run after which the read from a document answers without one whose id it holds. -/
theorem not_reached_edgesMirrored : ¬∀ w, Reached plainHost (fun _ _ _ _ => True) w →
    EdgesMirrored (utf16 "t") w.store := by
  intro hall
  have hreserved : Reached plainHost (fun _ _ _ _ => True) { linkWorld with
      store := linkWorld.store.nextSeq.2.nextSeq.2.nextSeq.2, reserved := [5, 4, 3] } :=
    .step (.step (.step (reached_linkWorld _) .reserve) .reserve) .reserve
  have hreached := Reached.step (.step hreserved (.write ⟨by decide, by decide⟩ (by decide) (by decide)
    trivial (writeDocuments_linkStore _ [linkInsert (utf16 "x") (utf16 "x") 3,
      linkInsert (utf16 "y") (utf16 "x") 4] (by decide +kernel)))) (.write ⟨by decide, by decide⟩
    (by decide) (by decide) trivial (writeDocuments_linkStore _
      [.delete (utf16 "a") (utf16 "x") none [], linkInsert (utf16 "x") (utf16 "x") 5]
      (by decide +kernel)))
  have hmirrored : EdgesMirrored (utf16 "t") relinkedStore := hall _ hreached
  have hedge : ((declaredEdge (utf16 "t") relinkedStore (utf16 "a") (linkFilter (utf16 "y"))).toOption.map
      fun edge => (edge.1, edge.2.collection, edge.2.path)) =
      some (utf16 "a", utf16 "a", utf16 "e") := by decide +kernel
  have hdocs : ((findLinked (utf16 "t") relinkedStore (utf16 "a") (linkFilter (utf16 "y"))).toOption.map
      List.length) = some 0 := by decide +kernel
  have hy : ((docAt (utf16 "t") relinkedStore 4).map fun d =>
      (d.collection, d.id, edgeIds d.data (utf16 "e"))) =
      some (utf16 "a", utf16 "y", [utf16 "x"]) := by decide +kernel
  have hx : ((docAt (utf16 "t") relinkedStore 5).map fun d => (d.collection, d.id)) =
      some (utf16 "a", utf16 "x") := by decide +kernel
  obtain ⟨y, hy, hyeq⟩ := Option.map_eq_some_iff.1 hy
  obtain ⟨x, hx, hxeq⟩ := Option.map_eq_some_iff.1 hx
  simp only [Prod.mk.injEq] at hyeq hxeq
  cases hfound : findLinked (utf16 "t") relinkedStore (utf16 "a") (linkFilter (utf16 "y")) with
  | error fault =>
    rw [hfound] at hdocs
    cases hdocs
  | ok docs =>
    rw [hfound] at hdocs
    have hnil : docs = [] := List.length_eq_zero_iff.1 (Option.some.inj hdocs)
    cases hdeclared : declaredEdge (utf16 "t") relinkedStore (utf16 "a")
        (linkFilter (utf16 "y")) with
    | error fault =>
      rw [hdeclared] at hedge
      cases hedge
    | ok edge =>
      obtain ⟨declaring, e⟩ := edge
      rw [hdeclared] at hedge
      have hedge : (declaring, e.collection, e.path) = (utf16 "a", utf16 "a", utf16 "e") :=
        Option.some.inj hedge
      simp only [Prod.mk.injEq] at hedge
      have hmem := (((hmirrored _ _ declaring e hdeclared docs hfound 4 y hy hyeq.2.1).1 rfl
        (hyeq.1.trans hedge.1.symm)) x).2 ⟨hxeq.1, hxeq.1.trans hedge.2.1.symm, by
          rw [hedge.2.2, hyeq.2.2, hxeq.2]
          exact List.mem_singleton_self _, 5, hx⟩
      rw [hnil] at hmem
      exact List.not_mem_nil hmem

def isDocument : Record → Bool
  | .document _ => true
  | _ => false

/-- A document that names itself, inserted where there is none. -/
theorem reached_edgesMirrored_insert : ((findLinked (utf16 "t") (linkStore linkWorld.store.nextSeq.2
      [linkInsert (utf16 "x") (utf16 "x") 3]) (utf16 "a") (linkFilter (utf16 "x"))).toOption.map
      fun docs => docs.map Document.id) = some [utf16 "x"] ∧
    EdgesMirrored (utf16 "t") (linkStore linkWorld.store.nextSeq.2
      [linkInsert (utf16 "x") (utf16 "x") 3]) := by
  refine ⟨by decide +kernel, ?_⟩
  have hnone : ∀ q d, docAt (utf16 "t") linkWorld.store.nextSeq.2 q ≠ some d := by
    intro q d hd
    obtain ⟨held, hheld, hbody, -⟩ := docAt_eq_some.1 hd
    have hall : ∀ e ∈ linkWorld.store.nextSeq.2.held.entries, isDocument e.2.body = false := by
      decide +kernel
    have := hall _ (OrderedMap.mem_entries.2 hheld)
    rw [hbody] at this
    cases this
  have hC : BatchInsertsUnnamed plainHost { linkWorld with
      store := linkWorld.store.nextSeq.2, reserved := [3] } (utf16 "t") []
      [linkInsert (utf16 "x") (utf16 "x") 3] := by
    intro before op after s hops hs collection id data expiry seq _ _ q d c e hd
    cases before with
    | nil =>
      cases hs
      exact absurd hd (hnone q d)
    | cons op'' before => simp at hops
  exact (reached_edgesMirrored (.step (.step (reached_linkWorld _) .reserve) (.write
    ⟨by decide, by decide⟩ (by decide) (by decide) hC (writeDocuments_linkStore _ _ (by decide +kernel))))
    ⟨by decide, by decide⟩).1

end Zelavis.Db
