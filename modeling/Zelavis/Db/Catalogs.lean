import Zelavis.Db.References

/-!
# The collections of a tenant, by name

What the transactions of `References` and `Indexes` do to the records of a store, whatever else it
holds.
-/

namespace Zelavis.Db

open Lib List

/-- The collections of a tenant, by name. -/
abbrev Catalog := Utf16 → Option StoredCollection

/-- The catalog with one more collection, and the back-references its targets carry. -/
def Catalog.created (K : Catalog) (c : StoredCollection) : Catalog := fun n =>
  if n = c.name then
    some (linked c.name (c.references.filter fun r => r.collection = c.name) c)
  else (K n).map (linked c.name (c.references.filter fun r => r.collection = n))

/-- A store that finds its collections by the names they are recorded under. -/
structure Listed (o : Objects Record) : Prop where
  named : o.Named
  names : ∀ t n c, loadCollection t o n = some c → c.name = n

variable {c : StoredCollection} {n : Utf16}

lemma exists_named_of_load {o : Objects Record} {t : TenantId}
    (h : loadCollection t o n = some c) : ∃ s, o.named ⟨collectionNs t, n⟩ = some s := by
  obtain ⟨held, hunder, -⟩ := loadCollection_eq_some.1 h
  obtain ⟨s, hs, -⟩ := Option.bind_eq_some_iff.1 hunder
  exact ⟨s, hs⟩

/-! ## A transaction of records -/

variable {seq : Seq}

lemma loadCollection_collectionPut {t : TenantId} {o : Objects Record} (ho : o.Named)
    (h : o.Takes seq ⟨collectionNs t, c.name⟩) (t' : TenantId) (n : Utf16) :
    loadCollection t' (o.write (collectionPut t seq c)) n =
      if t' = t ∧ n = c.name then some c else loadCollection t' o n := by
  have hunder : (o.write (collectionPut t seq c)).under ⟨collectionNs t', n⟩ = _ := ho.under_put h _
  split_ifs with heq
  · obtain ⟨rfl, rfl⟩ := heq
    rw [if_pos rfl] at hunder
    exact loadCollection_eq_some.2 ⟨_, hunder, rfl⟩
  · refine loadCollection_congr ?_
    rw [if_neg] at hunder
    · exact hunder
    · intro hid
      obtain ⟨hns, hn⟩ := ObjectIdentity.mk.inj hid
      exact heq ⟨collectionNs_inj hns, hn⟩

lemma named_collectionPut {o : Objects Record} (ho : o.Named) {t : TenantId}
    (h : o.named ⟨collectionNs t, c.name⟩ = some seq) :
    (o.write (collectionPut t seq c)).named = o.named := by
  funext i
  rw [collectionPut, Objects.named_put (ho.takes_of_named h)]
  split_ifs with hi
  · rw [hi, h]
  · rfl

section

variable {o : Objects Record} {t : TenantId} {l : List (Seq × StoredCollection)}

/-- What every record of a transaction preserves, the transaction preserves, where each name has its
identifier already. -/
theorem commit_puts_induct {P : Objects Record → Prop} (ho : o.Named)
    (hl : ∀ e ∈ l, o.named ⟨collectionNs t, e.2.name⟩ = some e.1)
    (hstep : ∀ e ∈ l, ∀ o' : Objects Record, P o' → o'.named = o.named →
      P (o'.write (collectionPut t e.1 e.2))) (h : P o) :
    P (o.commit (l.map fun e => collectionPut t e.1 e.2)) := by
  induction l generalizing o with
  | nil => exact h
  | cons e l ih =>
    have he := hl e mem_cons_self
    have hnamed := named_collectionPut ho he
    refine ih (ho.put (ho.takes_of_named he)) (fun e' he' => ?_) (fun e' he' o' ho' hsame => ?_)
      (hstep e mem_cons_self o h rfl)
    · rw [hnamed]
      exact hl e' (mem_cons_of_mem _ he')
    · exact hstep e' (mem_cons_of_mem _ he') o' ho' (hsame.trans hnamed)

/-- The catalogs a transaction of records leaves, where each name has its identifier already: each
name the last record it was given, and everything else as it was. -/
theorem puts_catalog (ho : o.Named) (hl : ∀ e ∈ l, o.named ⟨collectionNs t, e.2.name⟩ = some e.1) :
    (o.commit (l.map fun e => collectionPut t e.1 e.2)).Named ∧
      (o.commit (l.map fun e => collectionPut t e.1 e.2)).named = o.named ∧
      (∀ n, loadCollection t (o.commit (l.map fun e => collectionPut t e.1 e.2)) n =
        l.foldl (fun K e => changed K e.2.name (some e.2)) (loadCollection t o) n) ∧
      ∀ t' ≠ t, ∀ n, loadCollection t' (o.commit (l.map fun e => collectionPut t e.1 e.2)) n =
        loadCollection t' o n := by
  induction l generalizing o with
  | nil => exact ⟨ho, rfl, fun _ => rfl, fun _ _ _ => rfl⟩
  | cons e l ih =>
    have he := hl e mem_cons_self
    have htakes := ho.takes_of_named he
    have hnamed := named_collectionPut ho he
    have hload := loadCollection_collectionPut ho htakes
    have hput : (o.write (collectionPut t e.1 e.2)).Named := ho.put htakes
    obtain ⟨hnamed', hsame', hcatalog, hother⟩ := ih hput fun e' he' => by
      rw [hnamed]
      exact hl e' (mem_cons_of_mem _ he')
    refine ⟨hnamed', hsame'.trans hnamed, fun n => ?_, fun t' ht' n => ?_⟩
    · have hfirst : loadCollection t (o.write (collectionPut t e.1 e.2)) =
          changed (loadCollection t o) e.2.name (some e.2) := by
        funext n'
        rw [hload]
        simp [changed]
      refine (hcatalog n).trans ?_
      rw [foldl_cons, ← hfirst]
    · refine (hother t' ht' n).trans ?_
      exact (hload t' n).trans (if_neg fun h => ht' h.1)

end

lemma foldl_changed_eq {l : List (Seq × StoredCollection)} {K : Catalog}
    {found : Option StoredCollection} (h : ∀ e ∈ l, e.2.name = n → some e.2 = found)
    (hfound : (∀ e ∈ l, e.2.name ≠ n) → K n = found) :
    l.foldl (fun K e => changed K e.2.name (some e.2)) K n = found := by
  induction l generalizing K with
  | nil => exact hfound (by simp)
  | cons e l ih =>
    rw [foldl_cons]
    refine ih (fun e' he' => h e' (mem_cons_of_mem _ he')) fun hrest => ?_
    unfold changed
    split_ifs with hn
    · exact h e mem_cons_self hn.symm
    · exact hfound fun e' he' => by
        rcases mem_cons.1 he' with rfl | he'
        · exact Ne.symm hn
        · exact hrest e' he'

/-! ## Creating -/

variable {twice : Utf16 → DocError}

lemma normalizeAll_nodup {δ : Type} {normalize : δ → Except DocError δ} {name : δ → Utf16}
    {taken defs out : List δ} (htaken : (taken.map name).Nodup)
    (h : normalizeAll normalize name twice taken defs = .ok out) : (out.map name).Nodup := by
  induction defs generalizing taken with
  | nil =>
    cases h
    exact htaken
  | cons d defs ih =>
    unfold normalizeAll at h
    split at h
    · cases h
    next d' _ =>
      split_ifs at h with hany
      refine ih ?_ h
      rw [map_append, map_singleton]
      refine htaken.append (nodup_singleton _) ?_
      intro x hx hx'
      obtain ⟨other, hother, rfl⟩ := List.mem_map.1 hx
      exact hany (List.any_eq_true.2 ⟨other, hother, by simpa using mem_singleton.1 hx'⟩)

lemma normalizeAll_forall {δ : Type} {normalize : δ → Except DocError δ} {name : δ → Utf16}
    {P : δ → Prop} (hP : ∀ d d', normalize d = .ok d' → P d')
    {taken defs out : List δ} (htaken : ∀ d ∈ taken, P d)
    (h : normalizeAll normalize name twice taken defs = .ok out) : ∀ d ∈ out, P d := by
  induction defs generalizing taken with
  | nil =>
    cases h
    exact htaken
  | cons d defs ih =>
    unfold normalizeAll at h
    split at h
    · cases h
    next d' hd' =>
      split_ifs at h
      refine ih (fun x hx => ?_) h
      rcases mem_append.1 hx with hx | hx
      · exact htaken x hx
      · rw [mem_singleton.1 hx]
        exact hP d d' hd'

variable {collection : Utf16}

lemma isName_of_normalizeIndex {definition definition' : IndexDefinition}
    (h : normalizeIndex collection definition = .ok definition') :
    definition' = definition ∧ isName definition.name = true := by
  unfold normalizeIndex at h
  split_ifs at h with hname
  split at h
  · cases h
  · cases h
    exact ⟨rfl, by simpa using hname⟩

variable {input : CollectionInput} {salt : Utf16 → Utf16} {now : Utf16}

lemma collectionFor_eq_ok {tenant : TenantId}
    (h : collectionFor tenant now salt input = .ok c) : c.name = input.name ∧ c.referencedBy = [] ∧
      (c.references.map ReferenceConstraint.name).Nodup ∧ (c.indexes.map fun index => index.name).Nodup ∧
      ∀ index ∈ c.indexes, index.state = .ready ∧ isName index.name = true ∧
        index.column = indexColumnFor tenant c.name index.name (salt index.name) := by
  unfold collectionFor at h
  simp only [bind_eq_ok_iff] at h
  obtain ⟨indexes, hindexes, checks, -, references, hreferences, analyzer, -, spatial, -,
    embedding, -, measures, -, edges, -, h⟩ := h
  cases h
  have htaken : (([] : List ReferenceConstraint).map ReferenceConstraint.name).Nodup := nodup_nil
  have htaken' : (([] : List IndexDefinition).map IndexDefinition.name).Nodup := nodup_nil
  refine ⟨rfl, rfl, normalizeAll_nodup htaken hreferences, ?_, ?_⟩
  · rw [List.map_map]
    exact normalizeAll_nodup htaken' hindexes
  · intro index hindex
    obtain ⟨definition, hdefinition, rfl⟩ := List.mem_map.1 hindex
    refine ⟨rfl, ?_, rfl⟩
    refine normalizeAll_forall (P := fun d => isName d.name = true) ?_ (by simp) hindexes _ hdefinition
    intro d d' hd
    obtain ⟨rfl, hname⟩ := isName_of_normalizeIndex hd
    exact hname

/-- A collection's edges: each under a name of its own, to a collection with a name. -/
structure EdgesOk (c : StoredCollection) : Prop where
  named : ∀ e ∈ c.edges, isName e.name = true ∧ isName e.collection = true
  nodup : (c.edges.map EdgeDefinition.name).Nodup

lemma isName_of_normalizeEdge {e e' : EdgeDefinition}
    (h : normalizeEdge collection e = .ok e') : isName e'.name = true ∧ isName e'.collection = true := by
  unfold normalizeEdge normalized faultyLink at h
  split_ifs at h with hname hpath htarget
  cases h
  exact ⟨by simpa using hname, by simpa using htarget⟩

lemma edgesOk_of_collectionFor {tenant : TenantId}
    (h : collectionFor tenant now salt input = .ok c) : EdgesOk c := by
  unfold collectionFor at h
  simp only [bind_eq_ok_iff] at h
  obtain ⟨indexes, -, checks, -, references, -, analyzer, -, spatial, -, embedding, -, measures, -,
    edges, hedges, h⟩ := h
  cases h
  have htaken : (([] : List EdgeDefinition).map EdgeDefinition.name).Nodup := nodup_nil
  exact ⟨normalizeAll_forall (fun _ _ => isName_of_normalizeEdge) (by simp) hedges,
    normalizeAll_nodup htaken hedges⟩

variable {ws : List (Objects.Write Record)}

section

variable {tenant : TenantId} {o : Objects Record}

lemma linkTargets_eq_ok (ho : Listed o) {source : Utf16} {refs : List ReferenceConstraint}
    (h : linkTargets tenant o source refs = .ok ws) :
    ∃ l : List (Seq × StoredCollection), ws = l.map (fun e => collectionPut tenant e.1 e.2) ∧
      (∀ e ∈ l, o.named ⟨collectionNs tenant, e.2.name⟩ = some e.1 ∧
        ∃ b, loadCollection tenant o e.2.name = some b ∧
          e.2 = linked source (refs.filter fun r => r.collection = e.2.name) b) ∧
      (∀ e ∈ l, ∃ r ∈ refs, r.collection = e.2.name) ∧ ∀ r ∈ refs, ∃ e ∈ l, e.2.name = r.collection := by
  have hall := mapM_eq_ok_iff.1 h
  have hnames : ∀ n, n ∈ (refs.map ReferenceConstraint.collection).eraseDups ↔
      ∃ r ∈ refs, r.collection = n := by
    intro n
    rw [mem_eraseDups, List.mem_map]
  generalize (refs.map ReferenceConstraint.collection).eraseDups = names at h hall hnames
  have hlist : ∃ l : List (Seq × StoredCollection), ws = l.map (fun e => collectionPut tenant e.1 e.2) ∧
      List.Forall₂ (fun n (e : Seq × StoredCollection) => e.2.name = n ∧
        o.named ⟨collectionNs tenant, e.2.name⟩ = some e.1 ∧
        ∃ b, loadCollection tenant o e.2.name = some b ∧
          e.2 = linked source (refs.filter fun r => r.collection = e.2.name) b) names l := by
    clear h hnames
    induction hall with
    | nil => exact ⟨[], rfl, List.Forall₂.nil⟩
    | @cons n w names ws hw _ ih =>
      obtain ⟨l, rfl, hl⟩ := ih
      unfold linkTarget at hw
      split at hw
      next seq target hseq htarget =>
        have hname := ho.names _ _ _ htarget
        cases hw
        refine ⟨(seq, linked source (refs.filter fun r => r.collection = n) target) :: l, rfl,
          List.Forall₂.cons ⟨hname, ?_, target, ?_, ?_⟩ hl⟩
        · rw [linked_name, hname]
          exact hseq
        · rw [linked_name, hname]
          exact htarget
        · rw [linked_name, hname]
      next => cases hw
  obtain ⟨l, rfl, hl⟩ := hlist
  refine ⟨l, rfl, ?_, ?_, ?_⟩
  · intro e he
    obtain ⟨n, -, hn⟩ := exists_left_of_forall₂ hl he
    exact hn.2
  · intro e he
    obtain ⟨n, hmem, hn⟩ := exists_left_of_forall₂ hl he
    rw [hn.1]
    exact (hnames n).1 hmem
  · intro r hr
    obtain ⟨e, he, hn⟩ := exists_right_of_forall₂ hl ((hnames _).2 ⟨r, hr, rfl⟩)
    exact ⟨e, he, hn.1⟩

/-- What recording a new collection writes: itself, and each of its targets with the
back-references it makes to it. -/
theorem createWrites_eq_ok (ho : Listed o) (h : createWrites tenant o seq c = .ok ws) :
    ∃ l : List (Seq × StoredCollection), ws = collectionPut tenant seq
        (linked c.name (c.references.filter fun r => r.collection = c.name) c) ::
          l.map (fun e => collectionPut tenant e.1 e.2) ∧
      (∀ e ∈ l, e.2.name ≠ c.name ∧ o.named ⟨collectionNs tenant, e.2.name⟩ = some e.1 ∧
        ∃ b, loadCollection tenant o e.2.name = some b ∧
          e.2 = linked c.name (c.references.filter fun r => r.collection = e.2.name) b) ∧
      ∀ r ∈ c.references, r.collection ≠ c.name → ∃ e ∈ l, e.2.name = r.collection := by
  unfold createWrites at h
  dsimp only at h
  cases hlinks : linkTargets tenant o c.name
      (c.references.filter fun r => decide (r.collection ≠ c.name)) with
  | error fault =>
    rw [hlinks] at h
    cases h
  | ok links =>
    rw [hlinks] at h
    cases h
    obtain ⟨l, rfl, hl, hfrom, hcover⟩ := linkTargets_eq_ok ho hlinks
    refine ⟨l, rfl, fun e he => ?_, fun r hr hcol => ?_⟩
    · obtain ⟨hnamed, b, hb, heq⟩ := hl e he
      obtain ⟨r, hr, hcol⟩ := hfrom e he
      have hne : e.2.name ≠ c.name := by
        rw [← hcol]
        simpa using (mem_filter.1 hr).2
      refine ⟨hne, hnamed, b, hb, heq.trans ?_⟩
      rw [List.filter_filter]
      refine congrArg (fun rs => linked c.name rs b) (filter_congr fun r _ => ?_)
      by_cases hcol : r.collection = e.2.name
      · simp [hcol, hne]
      · simp [hcol]
    · exact hcover r (mem_filter.2 ⟨hr, by simpa using hcol⟩)

lemma created_catalog (ho : Listed o)
    (htakes : o.Takes seq ⟨collectionNs tenant, c.name⟩) {l : List (Seq × StoredCollection)}
    (hl : ∀ e ∈ l, e.2.name ≠ c.name ∧ o.named ⟨collectionNs tenant, e.2.name⟩ = some e.1 ∧
      ∃ b, loadCollection tenant o e.2.name = some b ∧
        e.2 = linked c.name (c.references.filter fun r => r.collection = e.2.name) b)
    (hcover : ∀ r ∈ c.references, r.collection ≠ c.name → ∃ e ∈ l, e.2.name = r.collection) :
    let own := linked c.name (c.references.filter fun r => r.collection = c.name) c
    let o' := o.commit (collectionPut tenant seq own :: l.map (fun e => collectionPut tenant e.1 e.2))
    (∀ n, loadCollection tenant o' n = Catalog.created (loadCollection tenant o) c n) ∧
      ∀ t ≠ tenant, ∀ n, loadCollection t o' n = loadCollection t o n := by
  intro own o'
  have htakes : o.Takes seq ⟨collectionNs tenant, own.name⟩ := htakes
  have hput : (o.write (collectionPut tenant seq own)).Named := ho.named.put htakes
  have hload := loadCollection_collectionPut ho.named htakes
  -- each target still has its identifier
  obtain ⟨-, -, hsame, hother⟩ := puts_catalog (t := tenant) (l := l) hput fun e he => by
    rw [collectionPut, Objects.named_put htakes, if_neg]
    · exact (hl e he).2.1
    · intro hid
      exact (hl e he).1 (ObjectIdentity.mk.inj hid).2
  refine ⟨fun n => (hsame n).trans (foldl_changed_eq ?_ ?_), fun t ht n => ?_⟩
  · intro e he hn
    obtain ⟨hne, -, b, hb, heq⟩ := hl e he
    subst hn
    unfold Catalog.created
    rw [if_neg hne, hb, Option.map_some]
    exact congrArg some heq
  · intro hnone
    rw [hload]
    unfold Catalog.created
    by_cases hn : n = c.name
    · rw [if_pos ⟨rfl, hn⟩, if_pos hn]
    · rw [if_neg (fun h => hn h.2), if_neg hn]
      have hfilter : (c.references.filter fun r => r.collection = n) = [] := by
        rw [filter_eq_nil_iff]
        intro r hr hcol
        have hcol : r.collection = n := by simpa using hcol
        obtain ⟨e, he, hname⟩ := hcover r hr (by rw [hcol]; exact hn)
        exact hnone e he (by rw [hname, hcol])
      rw [hfilter]
      cases loadCollection tenant o n with
      | none => rfl
      | some b => rw [Option.map_some, linked_nil]
  · refine (hother t ht n).trans ?_
    rw [hload, if_neg (fun h => ht h.1)]

end

end Zelavis.Db
