import Zelavis.Db.Batches
import Zelavis.Db.Unique

/-!
# Unique indexes, over every run

Batches, creations, builds and drops of indexes in any order, of any tenants: every transaction of
each is one step, and between the transactions of a build anything else goes on.
-/

namespace Zelavis.Db

open Lib List

variable {w : World} {w' : World} {t : TenantId}

/-! ## What is under way -/

/-- Where a call that goes through a collection's documents is. -/
inductive Phase where
  | started (definition : IndexDefinition)
  /-- The documents are put back, all of them or those that are left; then the index is made ready,
  if there is one to make ready. -/
  | rewriting (index : Option StoredIndex) (todo : Option (List Seq))

/-- A call that goes through a collection's documents: `createIndex`, or `dropIndex`. -/
structure Build where
  tenant : TenantId
  collection : Utf16
  seq : Seq
  phase : Phase

/-- A store and what is under way on it. -/
structure World where
  store : Objects Record := .empty
  reserved : List Seq := []
  columns : List Utf16 := []
  builds : List Build := []

def Build.after (b : Build) : BuildOutcome → List Build
  | .duplicate _ _ => [{ b with phase := .rewriting none none }]
  | .dropped => []
  | .ready => []

/-- One transaction, or one step between two, where each batch meets a condition. A column's salt is
random, and no column is given twice. -/
inductive World.Step (host : Host) (C : World → TenantId → Utf16 → List DocumentWrite → Prop) :
    World → World → Prop where
  | reserve {w : World} :
    Step host C w { w with store := w.store.nextSeq.2, reserved := w.store.nextSeq.1 :: w.reserved }
  | write {w : World} {t : TenantId} {now : Utf16} {ops : List DocumentWrite}
      {store : Objects Record} (ht : TenantOk t) (hreserved : ∀ q ∈ seqsOf ops, q ∈ w.reserved)
      (hnodup : (seqsOf ops).Nodup) (hC : C w t now ops)
      (h : writeDocuments host t w.store now ops = .ok store) :
    Step host C w { w with store, reserved := w.reserved.filter fun q => q ∉ seqsOf ops }
  | create {w : World} {t : TenantId} {now : Utf16} {salt : Utf16 → Utf16} {input : CollectionInput}
      (hfresh : ∀ name, indexColumnFor t input.name name (salt name) ∉ w.columns) :
    Step host C w { w with
      store := (createCollection t w.store now salt input).2
      columns := ((loadCollection t (createCollection t w.store now salt input).2 input.name).elim []
        StoredCollection.indexes).map StoredIndex.column ++ w.columns }
  | addReference {w : World} {t : TenantId} {source : Utf16} {reference : ReferenceConstraint} :
    Step host C w { w with store := (Db.addReference t w.store source reference).2 }
  | dropReference {w : World} {t : TenantId} {collection name : Utf16} :
    Step host C w { w with store := (Db.dropReference t w.store collection name).2 }
  | dropCollection {w : World} {t : TenantId} {now name : Utf16} (ht : TenantOk t)
      (hquiet : ∀ b ∈ w.builds, ¬(b.tenant = t ∧ b.collection = name)) :
    Step host C w { w with store := (Db.dropCollection host t w.store now name).2 }
  | start {w : World} {t : TenantId} {collection : Utf16} {asked definition : IndexDefinition}
      {seq : Seq} (ht : TenantOk t) (hvalid : normalizeIndex collection asked = .ok definition)
      (hseq : w.store.lookup (collectionNs t) collection = some seq) :
    Step host C w { w with builds := w.builds ++ [⟨t, collection, seq, .started definition⟩] }
  | record {w : World} {before after : List Build} {b : Build} {definition : IndexDefinition}
      {salt : Utf16} {recorded : StoredIndex} {store : Objects Record}
      (hbuilds : w.builds = before ++ b :: after) (hphase : b.phase = .started definition)
      (hfresh : indexColumnFor b.tenant b.collection definition.name salt ∉ w.columns)
      (h : recordIndex b.tenant w.store b.seq b.collection definition salt = .ok (recorded, store))
      (hsame : recorded.fields = definition.fields ∧ recorded.unique = definition.unique)
      (hbuilding : recorded.state = .building) :
    Step host C w { w with
      store, columns := recorded.column :: w.columns
      builds := before ++ { b with phase := .rewriting (some recorded) none } :: after }
  | scan {w : World} {before after : List Build} {b : Build} {index : Option StoredIndex}
      (hbuilds : w.builds = before ++ b :: after) (hphase : b.phase = .rewriting index none) :
    Step host C w { w with builds := before ++ { b with
      phase := .rewriting index (some (documentSeqs b.tenant w.store b.collection)) } :: after }
  | rewrite {w : World} {before after : List Build} {b : Build} {index : Option StoredIndex}
      {todo : List Seq} {store : Objects Record} (hbuilds : w.builds = before ++ b :: after)
      (hphase : b.phase = .rewriting index (some todo))
      (h : rewriteChunk host b.tenant w.store b.collection (todo.take REWRITE_CHUNK) = .ok store) :
    Step host C w { w with store, builds := before ++ { b with
      phase := .rewriting index (some (todo.drop REWRITE_CHUNK)) } :: after }
  | finish {w : World} {before after : List Build} {b : Build} {recorded : StoredIndex}
      {outcome : BuildOutcome} {store : Objects Record} (hbuilds : w.builds = before ++ b :: after)
      (hphase : b.phase = .rewriting (some recorded) (some []))
      (h : finishIndex b.tenant w.store b.seq b.collection recorded = (outcome, store)) :
    Step host C w { w with store, builds := before ++ b.after outcome ++ after }
  | abandon {w : World} {before after : List Build} {b : Build}
      (hbuilds : w.builds = before ++ b :: after) : Step host C w { w with builds := before ++ after }
  | configure {w : World} {t : TenantId} {collection : Utf16} {seq : Seq}
      {settings : StoredCollection → Settings} (ht : TenantOk t)
      (hseq : w.store.lookup (collectionNs t) collection = some seq) :
    Step host C w { w with
      store := recordSettings t w.store seq collection settings
      builds := w.builds ++ [⟨t, collection, seq, .rewriting none none⟩] }
  | reindex {w : World} {t : TenantId} {collection : Utf16} {seq : Seq} (ht : TenantOk t)
      (hseq : w.store.lookup (collectionNs t) collection = some seq) :
    Step host C w { w with builds := w.builds ++ [⟨t, collection, seq, .rewriting none none⟩] }
  | drop {w : World} {t : TenantId} {collection name : Utf16} {seq : Seq} (ht : TenantOk t)
      (hseq : w.store.lookup (collectionNs t) collection = some seq) :
    Step host C w { w with
      store := dropIndex t w.store seq collection name
      builds := w.builds ++ [⟨t, collection, seq, .rewriting none none⟩] }

/-- A state that a run reaches, from a store nothing was written to. -/
inductive Reached (host : Host) (C : World → TenantId → Utf16 → List DocumentWrite → Prop) :
    World → Prop where
  | start : Reached host C {}
  | step {w w' : World} (h : Reached host C w) (hstep : w.Step host C w') : Reached host C w'

/-! ## The invariant -/

def World.Settled (w : World) (t : TenantId) (q : Seq) : Prop :=
  q ≤ w.store.lastSeq ∧ q ∉ w.reserved ∧ (w.store.held.get q = none ∨ ∃ d, docAt t w.store q = some d)

/-- What holds of a call that is under way. -/
structure Build.Sound (w : World) (b : Build) : Prop where
  tenant : TenantOk b.tenant
  named : ∀ definition, b.phase = .started definition → isName definition.name = true
  seq : w.store.named ⟨collectionNs b.tenant, b.collection⟩ = some b.seq
  settled : ∀ index todo, b.phase = .rewriting index (some todo) → ∀ q ∈ todo, w.Settled b.tenant q
  column : ∀ index todo, b.phase = .rewriting (some index) todo → isName index.name = true ∧
    index.column ∈ w.columns ∧
    ∃ salt, index.column = indexColumnFor b.tenant b.collection index.name salt
  same : ∀ index todo, b.phase = .rewriting (some index) todo → ∀ c,
    loadCollection b.tenant w.store b.collection = some c → ∀ i ∈ c.indexes,
      i.column = index.column → ∃ state, i = { index with state }
  posted : ∀ index todo, b.phase = .rewriting (some index) (some todo) → ∀ c,
    loadCollection b.tenant w.store b.collection = some c →
    (∃ i ∈ c.indexes, i.column = index.column) → ∀ q d, docAt b.tenant w.store q = some d →
      d.collection = b.collection → q ∈ todo ∨ PostedIn w.store q d index

/-- What holds of every state a run reaches. -/
structure World.Sound (w : World) : Prop where
  kept : Kept w.store
  reserved : ∀ q ∈ w.reserved, q ≤ w.store.lastSeq ∧ w.store.held.get q = none
  respects : ∀ t, TenantOk t → Respects t w.store
  columns : ∀ t n c, loadCollection t w.store n = some c → ∀ i ∈ c.indexes, i.column ∈ w.columns
  builds : ∀ b ∈ w.builds, b.Sound w

/-- What a step keeps for the calls under way, but for collections that are gone. -/
structure AdvancesBut (gone : TenantId → Utf16 → Prop) (w w' : World) : Prop where
  kept : Kept w'.store
  reserved : ∀ q ∈ w'.reserved, q ≤ w'.store.lastSeq ∧ w'.store.held.get q = none
  names : ∀ t n q, ¬gone t n → w.store.named ⟨collectionNs t, n⟩ = some q →
    w'.store.named ⟨collectionNs t, n⟩ = some q
  columns : ∀ c ∈ w.columns, c ∈ w'.columns
  indexes : ∀ t n c', loadCollection t w'.store n = some c' → ∀ i ∈ c'.indexes,
    i.column ∈ w'.columns ∧ (i.column ∉ w.columns ∨
      ∃ c state, loadCollection t w.store n = some c ∧ { i with state } ∈ c.indexes)
  carried : ∀ t, TenantOk t → Carried t w.store w'.store
  settled : ∀ t, TenantOk t → ∀ q, w.Settled t q → w'.Settled t q

/-- What a step keeps that drops no collection. -/
abbrev Advances (w w' : World) : Prop := AdvancesBut (fun _ _ => False) w w'

variable {b : Build} {gone : TenantId → Utf16 → Prop}

lemma Build.Sound.advances
    (ha : AdvancesBut gone w w') (hb : ¬gone b.tenant b.collection) (h : b.Sound w) : b.Sound w' where
  tenant := h.tenant
  named := h.named
  seq := ha.names _ _ _ hb h.seq
  settled index todo hphase q hq := ha.settled _ h.tenant q (h.settled index todo hphase q hq)
  column index todo hphase := by
    obtain ⟨hname, hmem, hsalt⟩ := h.column index todo hphase
    exact ⟨hname, ha.columns _ hmem, hsalt⟩
  same index todo hphase c' hc' i hi hcolumn := by
    rcases (ha.indexes _ _ c' hc' i hi).2 with hnew | ⟨c, state, hc, hold⟩
    · exact absurd (hcolumn ▸ (h.column index todo hphase).2.1) hnew
    · obtain ⟨state', heq⟩ := h.same index todo hphase c hc _ hold hcolumn
      refine ⟨i.state, ?_⟩
      calc i = { { i with state } with state := i.state } := rfl
        _ = { { index with state := state' } with state := i.state } := by rw [heq]
        _ = { index with state := i.state } := rfl
  posted index todo hphase c' hc' hin := by
    obtain ⟨i, hi, hcolumn⟩ := hin
    rcases (ha.indexes _ _ c' hc' i hi).2 with hnew | ⟨c, state, hc, hold⟩
    · exact absurd (hcolumn ▸ (h.column index todo hphase).2.1) hnew
    · obtain ⟨state', heq⟩ := h.same index todo hphase c hc _ hold hcolumn
      have hposted := h.posted index todo hphase c hc ⟨_, hold, hcolumn⟩
      have hindex : { index with state := state' } ∈ c.indexes := heq ▸ hold
      exact (ha.carried _ h.tenant).posted hc hindex (E := fun q => q ∈ todo) hposted

variable {index : Option StoredIndex} {todo : List Seq}

lemma Build.Sound.docAt_of_todo (h : b.Sound w)
    (hphase : b.phase = .rewriting index (some todo)) {n : ℕ} :
    ∀ q ∈ todo.take n, ∀ d, readDocument w.store q = some d → docAt b.tenant w.store q = some d := by
  intro q hq d hd
  obtain ⟨-, -, hheld⟩ := h.settled index todo hphase q (mem_of_mem_take hq)
  rcases hheld with hnone | ⟨d', hd'⟩
  · unfold readDocument Objects.read at hd
    rw [hnone] at hd
    cases hd
  · rw [readDocument_of_docAt hd'] at hd
    cases hd
    exact hd'

/-- A step keeps the invariant where it advances, respects the unique indexes, and what it starts or
takes further is sound. -/
theorem World.Sound.advances (h : w.Sound)
    (ha : AdvancesBut gone w w') (hgone : ∀ b ∈ w.builds, ¬gone b.tenant b.collection)
    (hrespects : ∀ t, TenantOk t → Respects t w'.store)
    (hbuilds : ∀ b ∈ w'.builds, b ∈ w.builds ∨ b.Sound w') : w'.Sound where
  kept := ha.kept
  reserved := ha.reserved
  respects := hrespects
  columns t n c hc i hi := (ha.indexes t n c hc i hi).1
  builds b hb := (hbuilds b hb).elim (fun hb => (h.builds b hb).advances ha (hgone b hb)) id

/-! ## Steps that change records only -/

variable {seq : Seq} {c : StoredCollection} {n : Utf16} {l : List StoredIndex}

section

variable {t : TenantId} {o o' : Objects Record}

/-- A tenant's unique indexes are respected after a step that leaves its documents: of an index that
was not ready it has to be shown. -/
theorem Respects.of_same (h : Respects t o) (hdocs : ∀ q, docAt t o' q = docAt t o q)
    (hcarried : Carried t o o')
    (hload : ∀ n c, loadCollection t o n = some c → (∃ c', loadCollection t o' n = some c') ∨
      ∀ q d, docAt t o q = some d → d.collection ≠ n)
    (hready : ∀ n c' i, loadCollection t o' n = some c' → i ∈ c'.indexes → i.state = .ready →
      (∃ c, loadCollection t o n = some c ∧ i ∈ c.indexes) ∨
        (∀ q d, docAt t o' q = some d → d.collection = n → PostedIn o' q d i) ∧
          (i.unique = true → Distinct (docAt t o') n i)) : Respects t o' := by
  have hdocs' : docAt t o' = docAt t o := funext hdocs
  refine ⟨?_, ?_, ?_⟩
  · intro q d hd
    rw [hdocs] at hd
    obtain ⟨c, hc⟩ := h.homed q d hd
    exact (hload _ c hc).resolve_right fun hnone => hnone q d hd rfl
  · intro n c' i hc' hi hstate q d hd hcol
    rcases hready n c' i hc' hi hstate with ⟨c, hc, hmem⟩ | ⟨hposted, -⟩
    · exact (hcarried.posted hc hmem (E := fun _ => False) (fun q d hd hcol =>
        .inr (h.posted n c i hc hmem hstate q d hd hcol)) q d hd hcol).resolve_left id
    · exact hposted q d hd hcol
  · intro n c' i hc' hi hstate hunique
    rcases hready n c' i hc' hi hstate with ⟨c, hc, hmem⟩ | ⟨-, hdistinct⟩
    · rw [hdocs']
      exact h.distinct n c i hc hmem hstate hunique
    · exact hdistinct hunique

lemma IndexesOk.eq_of_column (h : IndexesOk t c)
    (hname : isName c.name = true) {i j : StoredIndex} (hi : i ∈ c.indexes) (hj : j ∈ c.indexes)
    (hcolumn : i.column = j.column) : i = j := by
  obtain ⟨salt, hsalt⟩ := h.column i hi
  obtain ⟨salt', hsalt'⟩ := h.column j hj
  rw [hsalt, hsalt'] at hcolumn
  exact inj_on_of_nodup_map h.nodup hi hj
    (indexColumnFor_inj hname hname (h.named i hi) (h.named j hj) hcolumn).2.1

lemma setIndexes_recordsOnly (ho : Kept o) (hseq : o.named ⟨collectionNs t, n⟩ = some seq)
    (hc : loadCollection t o n = some c) (hok : IndexesOk t { c with indexes := l }) :
    RecordsOnly o.lastSeq o (o.commit [collectionPut t seq { c with indexes := l }]) ∧
      ∀ t' n', loadCollection t' (o.commit [collectionPut t seq { c with indexes := l }]) n' =
        if t' = t ∧ n' = n then some { c with indexes := l } else loadCollection t' o n' := by
  obtain ⟨hname, hisName⟩ := ho.name_of_load hc
  have htakes : o.Takes seq ⟨collectionNs t, { c with indexes := l }.name⟩ := by
    refine ho.named.takes_of_named ?_
    rw [← hseq, ← hname]
  obtain ⟨held, hheld, -⟩ := (ho.named _ _).1 hseq
  rw [Objects.commit_cons, Objects.commit_nil]
  constructor
  · exact RecordsOnly.collectionPut ho htakes (ho.bounded _ _ hheld) (by rw [← hname] at hisName; exact hisName)
      hok (.inr ⟨held, hheld⟩)
  · intro t' n'
    rw [loadCollection_collectionPut ho.named htakes]
    exact if_congr (by rw [← hname]) rfl rfl

end

lemma Advances.of_records (h : w.Sound)
    (hr : RecordsOnly w.store.lastSeq w.store w'.store) (hreserved : w'.reserved = w.reserved)
    (hcolumns : ∀ c ∈ w.columns, c ∈ w'.columns)
    (hindexes : ∀ t n c', loadCollection t w'.store n = some c' → ∀ i ∈ c'.indexes,
      i.column ∈ w'.columns ∧ (i.column ∉ w.columns ∨
        ∃ c state, loadCollection t w.store n = some c ∧ { i with state } ∈ c.indexes)) : Advances w w' where
  kept := hr.kept
  reserved q hq := by
    rw [hreserved] at hq
    obtain ⟨hle, hnone⟩ := h.reserved q hq
    exact ⟨hle.trans hr.later, hr.free q hle hnone⟩
  names t n q _ hq := hr.names t n q hq
  columns := hcolumns
  indexes := hindexes
  carried t _ := hr.documents.carried t
  settled t _ q := by
    rintro ⟨hle, hnot, hheld⟩
    refine ⟨hle.trans hr.later, by rw [hreserved]; exact hnot, ?_⟩
    rcases hheld with hnone | ⟨d, hd⟩
    · exact .inl (hr.free q hle hnone)
    · exact .inr ⟨d, (hr.documents.docAt t q).trans hd⟩

lemma Advances.of_builds (h : w.Sound) (builds : List Build) : Advances w { w with builds } :=
  Advances.of_records h (RecordsOnly.refl h.kept) rfl (fun _ hc => hc) fun t n c' hc' i hi =>
    ⟨h.columns t n c' hc' i hi, .inr ⟨c', i.state, hc', hi⟩⟩

lemma World.Sound.of_builds (h : w.Sound) {builds : List Build}
    (hbuilds : ∀ b ∈ builds, b ∈ w.builds ∨ b.Sound w) : { w with builds := builds }.Sound := by
  refine h.advances (Advances.of_builds h builds) (fun _ _ => id) h.respects fun b hb => ?_
  exact (hbuilds b hb).imp_right fun hb => hb.advances (Advances.of_builds h builds) id

/-- A record's indexes changed: every one of them has a new column or was there, and is ready only
where it was, or where it is shown to be respected. -/
theorem World.Sound.setIndexes (h : w.Sound)
    (hstore : w'.store = w.store.commit [collectionPut t seq { c with indexes := l }])
    (hreserved : w'.reserved = w.reserved) (hseq : w.store.named ⟨collectionNs t, n⟩ = some seq)
    (hc : loadCollection t w.store n = some c) (hok : IndexesOk t { c with indexes := l })
    (hcolumns : ∀ c ∈ w.columns, c ∈ w'.columns) (hindexes : ∀ i ∈ l, i.column ∈ w'.columns ∧
      (i.column ∉ w.columns ∨ ∃ state, { i with state } ∈ c.indexes))
    (hready : ∀ i ∈ l, i.state = .ready → i ∈ c.indexes ∨
      (∀ q d, docAt t w.store q = some d → d.collection = n → PostedIn w.store q d i) ∧
        (i.unique = true → Distinct (docAt t w.store) n i)) :
    Advances w w' ∧ ∀ t, TenantOk t → Respects t w'.store := by
  obtain ⟨hr, hload⟩ := setIndexes_recordsOnly h.kept hseq hc hok
  rw [← hstore] at hr hload
  constructor
  · refine Advances.of_records h hr hreserved hcolumns fun t' n' c' hc' i hi => ?_
    rw [hload] at hc'
    split_ifs at hc' with heq
    · obtain ⟨rfl, rfl⟩ := heq
      cases hc'
      obtain ⟨hcolumn, hold⟩ := hindexes i hi
      exact ⟨hcolumn, hold.imp_right fun hstate => hstate.elim fun state hmem => ⟨c, state, hc, hmem⟩⟩
    · exact ⟨hcolumns _ (h.columns t' n' c' hc' i hi), .inr ⟨c', i.state, hc', hi⟩⟩
  · intro t' ht'
    refine (h.respects t' ht').of_same (hr.documents.docAt t') (hr.documents.carried t') ?_ ?_
    · intro n' c' hc'
      rw [hload]
      split_ifs
      · exact .inl ⟨_, rfl⟩
      · exact .inl ⟨c', hc'⟩
    · intro n' c' i hc' hi hstate
      rw [hload] at hc'
      split_ifs at hc' with heq
      · obtain ⟨rfl, rfl⟩ := heq
        cases hc'
        rcases hready i hi hstate with hmem | ⟨hposted, hdistinct⟩
        · exact .inl ⟨c, hc, hmem⟩
        · refine .inr ⟨fun q d hd hcol => ?_, fun hunique => ?_⟩
          · rw [hr.documents.docAt] at hd
            obtain ⟨held, tuple, hheld, htuple, hmem⟩ := hposted q d hd hcol
            exact ⟨held, tuple, (hr.documents.held t' q d hd).trans hheld, htuple, hmem⟩
          · rw [show docAt t' w'.store = docAt t' w.store from funext (hr.documents.docAt t')]
            exact hdistinct hunique
      · exact .inl ⟨c', hc', hi⟩

lemma IndexesOk.filter (h : IndexesOk t c)
    (p : StoredIndex → Bool) : IndexesOk t { c with indexes := c.indexes.filter p } where
  named i hi := h.named i (mem_of_mem_filter hi)
  nodup := h.nodup.sublist (filter_sublist.map _)
  column i hi := h.column i (mem_of_mem_filter hi)

lemma World.Sound.filterIndexes (h : w.Sound)
    {p : StoredIndex → Bool} (hstore : w'.store = w.store.commit
      [collectionPut t seq { c with indexes := c.indexes.filter p }])
    (hreserved : w'.reserved = w.reserved) (hcolumns : w'.columns = w.columns)
    (hseq : w.store.named ⟨collectionNs t, n⟩ = some seq) (hc : loadCollection t w.store n = some c) :
    Advances w w' ∧ ∀ t, TenantOk t → Respects t w'.store := by
  refine h.setIndexes hstore hreserved hseq hc ((h.kept.indexesOk hc).filter p)
    (fun _ hmem => by rwa [hcolumns]) (fun i hi => ?_) fun i hi _ => .inl (mem_of_mem_filter hi)
  have hmem := mem_of_mem_filter hi
  exact ⟨by rw [hcolumns]; exact h.columns t n c hc i hmem, .inr ⟨i.state, hmem⟩⟩

/-! ## Each step -/

variable {before after : List Build}

/-- Where the builds are as they were, or one of them is taken further, that one is to be shown. -/
theorem forall_builds {v : World} {l : List Build}
    (hbuilds : w.builds = before ++ b :: after) (hl : ∀ b' ∈ l, b'.Sound v) :
    ∀ b' ∈ before ++ l ++ after, b' ∈ w.builds ∨ b'.Sound v := by
  intro b' hb'
  rw [hbuilds]
  rcases mem_append.1 hb' with hb' | hb'
  · rcases mem_append.1 hb' with hb' | hb'
    · exact .inl (mem_append_left _ hb')
    · exact .inr (hl b' hb')
  · exact .inl (mem_append_right _ (mem_cons_of_mem _ hb'))

variable {store : Objects Record} {collection : Utf16} {ops : List DocumentWrite} {now : Utf16}
  {recorded : StoredIndex} {s : Staged}

namespace World.Sound

variable {host : Host} {w : World}

lemma mem_of_builds (hbuilds : w.builds = before ++ b :: after) : b ∈ w.builds := by
  rw [hbuilds]
  simp

lemma reserve (h : w.Sound) : World.Sound { w with
      store := w.store.nextSeq.2, reserved := w.store.nextSeq.1 :: w.reserved } := by
  have hr : RecordsOnly w.store.lastSeq w.store w.store.nextSeq.2 := RecordsOnly.nextSeq h.kept
  have hold : ∀ t n c', loadCollection t w.store.nextSeq.2 n = some c' →
      loadCollection t w.store n = some c' := fun _ _ _ hc' => hc'
  have ha : Advances w { w with
      store := w.store.nextSeq.2, reserved := w.store.nextSeq.1 :: w.reserved } := {
    kept := hr.kept
    reserved := by
      intro q hq
      rcases mem_cons.1 hq with rfl | hq
      · exact ⟨le_rfl, h.kept.held_nextSeq⟩
      · obtain ⟨hle, hnone⟩ := h.reserved q hq
        exact ⟨hle.trans hr.later, hr.free q hle hnone⟩
    names := fun _ _ _ _ hq => hq
    columns := fun _ hc => hc
    indexes := fun t n c' hc' i hi =>
      ⟨h.columns t n c' (hold t n c' hc') i hi, .inr ⟨c', i.state, hold t n c' hc', hi⟩⟩
    carried := fun t _ => hr.documents.carried t
    settled := by
      rintro t _ q ⟨hle, hnot, hheld⟩
      refine ⟨hle.trans hr.later, ?_, hheld⟩
      intro hmem
      rcases mem_cons.1 hmem with rfl | hmem
      · exact Nat.not_succ_le_self _ hle
      · exact hnot hmem }
  refine h.advances ha (fun _ _ => id) (fun t ht => ?_) fun b hb => .inl hb
  exact (h.respects t ht).of_same (fun _ => rfl) (hr.documents.carried t)
    (fun n c hc => .inl ⟨c, hc⟩)
    fun n c' i hc' hi _ => .inl ⟨c', hold t n c' hc', hi⟩

variable {t : TenantId}

section

variable (h : w.Sound) (ht : TenantOk t) (hreserved : ∀ q ∈ seqsOf ops, q ∈ w.reserved)
  (hnodup : (seqsOf ops).Nodup)
include h ht hreserved hnodup

lemma changes
    (hs : ops.foldlM (applyWrite host t w.store now) {} = .ok s) :
    World.Sound { w with
      store := w.store.commit s.writes
      reserved := w.reserved.filter fun q => q ∉ seqsOf ops } := by
  obtain ⟨hw, hapart⟩ := foldlM_induct h.kept ht (Apart.keeps h.kept (h.respects t ht))
    (fun q hq => (h.reserved q (hreserved q hq)).2)
    (fun q hq => (h.reserved q (hreserved q hq)).1) hnodup (fun _ _ _ _ _ _ => trivial)
    (Apart.start (h.respects t ht)) hs
  have hload := hw.load_commit h.kept
  -- what holds nothing and is not the batch's goes on holding nothing
  have hfree : ∀ q, w.store.held.get q = none → q ∉ seqsOf ops →
      (w.store.commit s.writes).held.get q = none := fun q => hw.free_commit hapart.used
  have hcarried : ∀ t', TenantOk t' → Carried t' w.store (w.store.commit s.writes) := by
    intro t' ht'
    by_cases heq : t' = t
    · rw [heq]
      exact hw.carried
    · exact hw.carried_of_ne ht ht' heq
  refine h.advances (show Advances w ⟨w.store.commit s.writes, _, _, _⟩ from {
    kept := hw.kept_commit h.kept ht
    reserved := ?_
    names := ?_
    columns := fun _ hc => hc
    indexes := ?_
    carried := hcarried
    settled := ?_ }) (fun _ _ => id) ?_ fun b hb => .inl hb
  · intro q hq
    obtain ⟨hmem, hnot⟩ := mem_filter.1 hq
    obtain ⟨hle, hnone⟩ := h.reserved q hmem
    exact ⟨by rwa [lastSeq_commit], hfree q hnone (by simpa using hnot)⟩
  · intro t' n q _ hq
    obtain ⟨held, hheld, hid⟩ := (h.kept.named _ _).1 hq
    exact (hw.named _ _).2 ⟨held, (hw.held_commit hid fun c hns => documentNs_ne_collectionNs hns.symm).2 hheld, hid⟩
  · intro t' n c' hc' i hi
    have hc : loadCollection t' w.store n = some c' := (hload t' n).symm.trans hc'
    exact ⟨h.columns t' n c' hc i hi, .inr ⟨c', i.state, hc, hi⟩⟩
  · rintro t' ht' q ⟨hle, hnot, hheld⟩
    refine ⟨by rwa [lastSeq_commit], fun hmem => hnot (mem_of_mem_filter hmem), ?_⟩
    rcases hheld with hnone | ⟨d, hd⟩
    · exact .inl (hfree q hnone fun hmem => hnot (hreserved q hmem))
    · by_cases heq : t' = t
      · subst heq
        rcases hw.held_cases q with heq | ⟨-, hnone | ⟨held, d', -, hheld, hbody, hid, -⟩⟩
        · refine .inr ⟨d, ?_⟩
          unfold docAt
          rw [heq]
          exact hd
        · exact .inl hnone
        · exact .inr ⟨d', docAt_eq_some.2 ⟨held, hheld, hbody, hid⟩⟩
      · exact .inr ⟨d, (hw.docAt_commit_of_ne ht ht' heq q).trans hd⟩
  · intro t' ht'
    by_cases heq : t' = t
    · rw [heq]
      exact hapart.respects_commit h.kept (h.respects t ht) hw
    · refine (h.respects t' ht').of_same (hw.docAt_commit_of_ne ht ht' heq) (hcarried t' ht')
        (fun n c hc => .inl ⟨c, (hload t' n).trans hc⟩) fun n c' i hc' hi _ =>
          .inl ⟨c', (hload t' n).symm.trans hc', hi⟩

lemma write (hwrite : writeDocuments host t w.store now ops = .ok store) :
    World.Sound { w with store, reserved := w.reserved.filter fun q => q ∉ seqsOf ops } := by
  obtain ⟨s, hs, rfl⟩ := writeDocuments_eq_ok hwrite
  exact h.changes ht hreserved hnodup hs

end

lemma create (h : w.Sound) {salt : Utf16 → Utf16}
    {input : CollectionInput}
    (hfresh : ∀ name, indexColumnFor t input.name name (salt name) ∉ w.columns) :
    World.Sound { w with
      store := (createCollection t w.store now salt input).2
      columns := ((loadCollection t (createCollection t w.store now salt input).2 input.name).elim []
        StoredCollection.indexes).map StoredIndex.column ++ w.columns } := by
  obtain ⟨hr, hkeep, hnew⟩ := createCollection_recordsOnly h.kept t now salt input
  -- a record's indexes are those it had, or the record is new
  have hcases : ∀ t' n c', loadCollection t' (createCollection t w.store now salt input).2 n = some c' →
      (∃ c, loadCollection t' w.store n = some c ∧ c'.indexes = c.indexes) ∨
        loadCollection t' w.store n = none := by
    intro t' n c' hc'
    cases hc : loadCollection t' w.store n with
    | none => exact .inr rfl
    | some c =>
      obtain ⟨b', hb', hindexes⟩ := hkeep t' n c hc
      rw [hb'] at hc'
      cases hc'
      exact .inl ⟨c, rfl, hindexes.indexes⟩
  refine h.advances (Advances.of_records h hr rfl (fun _ hc => mem_append_right _ hc) ?_)
    (fun _ _ => id) ?_ fun b hb => .inl hb
  · intro t' n c' hc' i hi
    rcases hcases t' n c' hc' with ⟨c, hc, hindexes⟩ | hnone
    · rw [hindexes] at hi
      exact ⟨mem_append_right _ (h.columns t' n c hc i hi), .inr ⟨c, i.state, hc, hi⟩⟩
    · obtain ⟨rfl, rfl, -, hall⟩ := hnew t' n c' hc' hnone
      have hcolumn := (hall i hi).2
      constructor
      · refine mem_append_left _ (List.mem_map.2 ⟨i, ?_, rfl⟩)
        rw [hc']
        exact hi
      · exact .inl (hcolumn ▸ hfresh i.name)
  · intro t' ht'
    refine (h.respects t' ht').of_same (hr.documents.docAt t') (hr.documents.carried t') ?_ ?_
    · intro n c hc
      obtain ⟨b', hb', -⟩ := hkeep t' n c hc
      exact .inl ⟨b', hb'⟩
    · intro n c' i hc' hi _
      rcases hcases t' n c' hc' with ⟨c, hc, hindexes⟩ | hnone
      · exact .inl ⟨c, hc, by rwa [hindexes] at hi⟩
      · -- a collection that was not there has no documents
        have hempty : ∀ q d, docAt t' (createCollection t w.store now salt input).2 q = some d →
            d.collection ≠ n := by
          rintro q d hd rfl
          rw [hr.documents.docAt] at hd
          obtain ⟨c, hc⟩ := (h.respects t' ht').homed q d hd
          rw [hnone] at hc
          cases hc
        exact .inr ⟨fun q d hd hcol => absurd hcol (hempty q d hd),
          fun _ q _ d _ _ hd _ hcol => absurd hcol (hempty q d hd)⟩

lemma start (h : w.Sound) {asked definition : IndexDefinition}
    (ht : TenantOk t) (hvalid : normalizeIndex collection asked = .ok definition)
    (hseq : w.store.lookup (collectionNs t) collection = some seq) :
    World.Sound { w with
      builds := w.builds ++ [⟨t, collection, seq, .started definition⟩] } := by
  refine h.of_builds fun b hb => ?_
  rcases mem_append.1 hb with hb | hb
  · exact .inl hb
  · rw [mem_singleton.1 hb]
    refine .inr ⟨ht, ?_, hseq, ?_, ?_, ?_, ?_⟩
    · intro definition' hphase
      cases hphase
      obtain ⟨rfl, hname⟩ := isName_of_normalizeIndex hvalid
      exact hname
    · intro index todo hphase
      cases hphase
    · intro index todo hphase
      cases hphase
    · intro index todo hphase
      cases hphase
    · intro index todo hphase
      cases hphase

lemma abandon (h : w.Sound) (hbuilds : w.builds = before ++ b :: after) :
    World.Sound { w with builds := before ++ after } := by
  refine h.of_builds fun b' hb' => ?_
  have := forall_builds (v := w) (l := []) hbuilds (by simp) b'
  rw [append_nil] at this
  exact this hb'

lemma sound_clearing (ht : TenantOk t)
    (hseq : w.store.named ⟨collectionNs t, collection⟩ = some seq) :
    Build.Sound w ⟨t, collection, seq, .rewriting none none⟩ := by
  refine ⟨ht, ?_, hseq, ?_, ?_, ?_, ?_⟩
  · intro definition hphase
    cases hphase
  · intro index todo hphase
    cases hphase
  · intro index todo hphase
    cases hphase
  · intro index todo hphase
    cases hphase
  · intro index todo hphase
    cases hphase

section

variable (h : w.Sound)
include h

lemma drop {collection name : Utf16} (ht : TenantOk t)
    (hseq : w.store.lookup (collectionNs t) collection = some seq) :
    World.Sound { w with
      store := dropIndex t w.store seq collection name
      builds := w.builds ++ [⟨t, collection, seq, .rewriting none none⟩] } := by
  have hnamed : w.store.named ⟨collectionNs t, collection⟩ = some seq := hseq
  have hadvances : ∀ w' : World, w'.store = dropIndex t w.store seq collection name →
      w'.reserved = w.reserved → w'.columns = w.columns →
      Advances w w' ∧ ∀ t, TenantOk t → Respects t w'.store := by
    intro w' hstore hreserved hcolumns
    have hsame : dropIndex t w.store seq collection name = w.store →
        Advances w w' ∧ ∀ t, TenantOk t → Respects t w'.store := by
      intro heq
      obtain ⟨store', reserved', columns', builds'⟩ := w'
      cases hstore.trans heq
      cases hreserved
      cases hcolumns
      exact ⟨Advances.of_builds h builds', h.respects⟩
    unfold dropIndex at hstore hsame
    split at hstore
    next hnone =>
      rw [hnone] at hsame
      exact hsame rfl
    next c hc =>
      rw [hc] at hsame
      dsimp only at hsame
      split_ifs at hstore hsame with hall
      · exact hsame rfl
      · exact h.filterIndexes hstore hreserved hcolumns hnamed hc
  obtain ⟨ha, hrespects⟩ := hadvances { w with
    store := dropIndex t w.store seq collection name
    builds := w.builds ++ [⟨t, collection, seq, .rewriting none none⟩] } rfl rfl rfl
  refine h.advances ha (fun _ _ => id) hrespects fun b hb => ?_
  rcases mem_append.1 hb with hb | hb
  · exact .inl hb
  · rw [mem_singleton.1 hb]
    exact .inr (sound_clearing ht (ha.names _ _ _ id hnamed))

section

variable (hbuilds : w.builds = before ++ b :: after)
include hbuilds

lemma record {definition : IndexDefinition}
    {salt : Utf16} (hphase : b.phase = .started definition)
    (hfresh : indexColumnFor b.tenant b.collection definition.name salt ∉ w.columns)
    (hrecord : recordIndex b.tenant w.store b.seq b.collection definition salt = .ok (recorded, store)) :
    World.Sound { w with
      store, columns := recorded.column :: w.columns
      builds := before ++ { b with phase := .rewriting (some recorded) none } :: after } := by
  have hb := h.builds b (mem_of_builds hbuilds)
  -- what the transaction leaves, and that the index is there
  suffices hadvances : ∃ c, loadCollection b.tenant store b.collection = some c ∧
      recorded ∈ c.indexes ∧ ∀ w' : World, w'.store = store → w'.reserved = w.reserved →
        w'.columns = recorded.column :: w.columns →
        Advances w w' ∧ ∀ t, TenantOk t → Respects t w'.store by
    obtain ⟨c, hc, hmem, hall⟩ := hadvances
    obtain ⟨ha, hrespects⟩ := hall { w with
      store, columns := recorded.column :: w.columns
      builds := before ++ { b with phase := .rewriting (some recorded) none } :: after } rfl rfl rfl
    refine h.advances ha (fun _ _ => id) hrespects ?_
    have hb' := hb.advances ha id
    obtain ⟨hname, hisName⟩ := ha.kept.name_of_load hc
    have hok := ha.kept.indexesOk hc
    have hsound : Build.Sound { w with
        store, columns := recorded.column :: w.columns
        builds := before ++ { b with phase := .rewriting (some recorded) none } :: after }
        { b with phase := .rewriting (some recorded) none } := by
      refine ⟨hb'.tenant, ?_, hb'.seq, ?_, ?_, ?_, ?_⟩
      · intro definition' hphase'
        cases hphase'
      · intro index todo hphase'
        cases hphase'
      · intro index todo hphase'
        cases hphase'
        obtain ⟨salt', hsalt'⟩ := hok.column recorded hmem
        rw [hname] at hsalt'
        exact ⟨hok.named recorded hmem, mem_cons_self, salt', hsalt'⟩
      · intro index todo hphase' c' hc' i hi hcolumn
        cases hphase'
        rw [hc] at hc'
        cases hc'
        have heq := hok.eq_of_column (by rw [hname]; exact hisName) hi hmem hcolumn
        exact ⟨recorded.state, heq⟩
      · intro index todo hphase'
        cases hphase'
    have := forall_builds hbuilds (l := [_]) (fun b' hb' => by
      rw [mem_singleton.1 hb']
      exact hsound)
    simpa using this
  unfold recordIndex at hrecord
  split at hrecord
  · cases hrecord
  next c hc =>
    obtain ⟨hname, hisName⟩ := h.kept.name_of_load hc
    split at hrecord
    next existing hexisting =>
      cases hrecord
      have hmem := mem_of_find?_eq_some hexisting
      refine ⟨c, hc, hmem, fun w' hstore hreserved hcolumns => ?_⟩
      have hsub : ∀ c ∈ w.columns, c ∈ w'.columns := by
        intro col hcol
        rw [hcolumns]
        exact mem_cons_of_mem _ hcol
      refine ⟨Advances.of_records h (by rw [hstore]; exact RecordsOnly.refl h.kept) hreserved hsub
        fun t n c' hc' i hi => ?_, by rw [hstore]; exact h.respects⟩
      rw [hstore] at hc'
      exact ⟨hsub _ (h.columns t n c' hc' i hi), .inr ⟨c', i.state, hc', hi⟩⟩
    next hnew =>
      have hnew : ∀ i ∈ c.indexes, i.name ≠ definition.name := by
        intro i hi heq
        have := List.find?_eq_none.1 hnew i hi
        simp [heq] at this
      cases hrecord
      have hok := h.kept.indexesOk hc
      have hok' : IndexesOk b.tenant { c with indexes := c.indexes ++ [{ definition with
          state := .building
          column := indexColumnFor b.tenant b.collection definition.name salt }] } := by
        constructor
        · intro i hi
          rcases mem_append.1 hi with hi | hi
          · exact hok.named i hi
          · rw [mem_singleton.1 hi]
            exact hb.named definition hphase
        · rw [map_append, nodup_append]
          refine ⟨hok.nodup, by simp, ?_⟩
          intro name hname name' hname'
          obtain ⟨i, hi, rfl⟩ := List.mem_map.1 hname
          simp only [map_cons, map_nil, mem_singleton] at hname'
          rw [hname']
          exact hnew i hi
        · intro i hi
          rcases mem_append.1 hi with hi | hi
          · exact hok.column i hi
          · rw [mem_singleton.1 hi]
            exact ⟨salt, by rw [← hname]⟩
      obtain ⟨hr, hload⟩ := setIndexes_recordsOnly h.kept hb.seq hc hok'
      refine ⟨_, (hload _ _).trans (if_pos ⟨rfl, rfl⟩), by simp, fun w' hstore hreserved hcolumns => ?_⟩
      refine h.setIndexes hstore hreserved hb.seq hc hok' (fun col hcol => by
        rw [hcolumns]
        exact mem_cons_of_mem _ hcol) ?_ ?_
      · intro i hi
        rw [hcolumns]
        rcases mem_append.1 hi with hi | hi
        · exact ⟨mem_cons_of_mem _ (h.columns _ _ c hc i hi), .inr ⟨i.state, hi⟩⟩
        · rw [mem_singleton.1 hi]
          exact ⟨mem_cons_self, .inl hfresh⟩
      · intro i hi hstate
        rcases mem_append.1 hi with hi | hi
        · exact .inl hi
        · rw [mem_singleton.1 hi] at hstate
          cases hstate

lemma scan (hphase : b.phase = .rewriting index none) :
    World.Sound { w with builds := before ++ { b with
      phase := .rewriting index (some (documentSeqs b.tenant w.store b.collection)) } :: after } := by
  have hb := h.builds b (mem_of_builds hbuilds)
  obtain ⟨c, hc⟩ := h.kept.load_of_named hb.seq
  have hdocs := fun q => mem_documentSeqs h.kept hb.tenant (h.kept.name_of_load hc).2 (q := q)
  have hsound : Build.Sound w { b with
      phase := .rewriting index (some (documentSeqs b.tenant w.store b.collection)) } := by
    refine ⟨hb.tenant, ?_, hb.seq, ?_, ?_, ?_, ?_⟩
    · intro definition hphase'
      cases hphase'
    · intro index' todo hphase' q hq
      cases hphase'
      obtain ⟨d, hd, -⟩ := (hdocs q).1 hq
      obtain ⟨held, hheld, -⟩ := docAt_eq_some.1 hd
      refine ⟨h.kept.bounded q held hheld, fun hmem => ?_, .inr ⟨d, hd⟩⟩
      rw [(h.reserved q hmem).2] at hheld
      cases hheld
    · intro index' todo hphase'
      cases hphase'
      exact hb.column index' none hphase
    · intro index' todo hphase'
      cases hphase'
      exact hb.same index' none hphase
    · intro index' todo hphase' _ _ _ q d hd hcol
      cases hphase'
      exact .inl ((hdocs q).2 ⟨d, hd, hcol⟩)
  refine h.of_builds fun b' hb' => ?_
  refine forall_builds (v := w) (l := [_]) hbuilds (fun b'' hb'' => ?_) b' (by simpa using hb')
  rw [mem_singleton.1 hb'']
  exact hsound

lemma rewrite
    (hphase : b.phase = .rewriting index (some todo))
    (hrewrite : rewriteChunk host b.tenant w.store b.collection (todo.take REWRITE_CHUNK) = .ok store) :
    World.Sound { w with store, builds := before ++ { b with
      phase := .rewriting index (some (todo.drop REWRITE_CHUNK)) } :: after } := by
  have hb := h.builds b (mem_of_builds hbuilds)
  obtain ⟨l, rfl, hl, hcover⟩ := rewriteChunk_eq_ok (hb.docAt_of_todo hphase) hrewrite
  obtain ⟨hkept, hdocs, hloads, hheld, hnames, hputs⟩ :=
    PutBack.commit h.kept hb.tenant fun e he => (hl e he).2
  have hlast : (w.store.commit (l.map (putBack b.tenant))).lastSeq = w.store.lastSeq :=
    lastSeq_commit _ _
  have hfree : ∀ q, w.store.held.get q = none →
      (w.store.commit (l.map (putBack b.tenant))).held.get q = none := by
    intro q hnone
    rw [hheld q ?_, hnone]
    rintro e he rfl
    obtain ⟨held, hheld', -⟩ := docAt_eq_some.1 (hl e he).2.1
    rw [hnone] at hheld'
    cases hheld'
  -- a document put back has its tuples
  have hposted : ∀ e ∈ l, ∀ c, loadCollection b.tenant w.store e.2.1.collection = some c → ∀ i ∈ c.indexes,
        PostedIn (w.store.commit (l.map (putBack b.tenant))) e.1 e.2.1 i := by
    intro e he c hc i hi
    obtain ⟨held, hheld', hmanifest⟩ := hputs e he
    rw [hc] at hmanifest
    obtain ⟨tuple, htuple, hmem⟩ := posted_of_manifestFor hmanifest hi
    exact ⟨held, tuple, hheld', htuple, hmem⟩
  have hcarried : ∀ t, TenantOk t → Carried t w.store (w.store.commit (l.map (putBack b.tenant))) := by
    intro t ht q d hd
    rw [hdocs] at hd
    by_cases hmem : ∃ e ∈ l, e.1 = q
    · obtain ⟨e, he, rfl⟩ := hmem
      have hd' := (hl e he).2.1
      cases tenant_of_docAt ht hb.tenant hd hd'
      rw [hd'] at hd
      cases hd
      exact .inr (hposted e he)
    · exact .inl ⟨hd, hheld q fun e he heq => hmem ⟨e, he, heq⟩⟩
  have ha : Advances w { w with
      store := w.store.commit (l.map (putBack b.tenant))
      builds := before ++ { b with
        phase := .rewriting index (some (todo.drop REWRITE_CHUNK)) } :: after } := {
    kept := hkept
    reserved := fun q hq => ⟨by rw [hlast]; exact (h.reserved q hq).1, hfree q (h.reserved q hq).2⟩
    names := fun _ _ _ _ hq => hnames _ _ hq
    columns := fun _ hc => hc
    indexes := fun t n c' hc' i hi => by
      have hc : loadCollection t w.store n = some c' := (hloads t n).symm.trans hc'
      exact ⟨h.columns t n c' hc i hi, .inr ⟨c', i.state, hc, hi⟩⟩
    carried := hcarried
    settled := by
      rintro t _ q ⟨hle, hnot, hq⟩
      refine ⟨by rw [hlast]; exact hle, hnot, ?_⟩
      rcases hq with hnone | ⟨d, hd⟩
      · exact .inl (hfree q hnone)
      · exact .inr ⟨d, (hdocs t q).trans hd⟩ }
  refine h.advances ha (fun _ _ => id) (fun t ht => ?_) ?_
  · exact (h.respects t ht).of_same (hdocs t) (hcarried t ht)
      (fun n c hc => .inl ⟨c, (hloads t n).trans hc⟩)
      fun n c' i hc' hi _ => .inl ⟨c', (hloads t n).symm.trans hc', hi⟩
  · have hb' := hb.advances ha id
    have hsound : Build.Sound { w with
        store := w.store.commit (l.map (putBack b.tenant))
        builds := before ++ { b with
          phase := .rewriting index (some (todo.drop REWRITE_CHUNK)) } :: after }
        { b with phase := .rewriting index (some (todo.drop REWRITE_CHUNK)) } := by
      refine ⟨hb'.tenant, ?_, hb'.seq, ?_, ?_, ?_, ?_⟩
      · intro definition hphase'
        cases hphase'
      · intro index' todo' hphase' q hq
        cases hphase'
        exact hb'.settled index todo hphase q (mem_of_mem_drop hq)
      · intro index' todo' hphase'
        cases hphase'
        exact hb'.column index' (some todo) hphase
      · intro index' todo' hphase'
        cases hphase'
        exact hb'.same index' (some todo) hphase
      · intro index' todo' hphase' c hc hin q d hd hcol
        cases hphase'
        rcases hb'.posted index' todo hphase c hc hin q d hd hcol with hmem | hposted'
        · rw [← take_append_drop REWRITE_CHUNK todo, mem_append] at hmem
          refine hmem.symm.imp_right fun hmem => ?_
          -- in this chunk: put back with the index's tuple
          have hd' : docAt b.tenant w.store q = some d := (hdocs _ _).symm.trans hd
          obtain ⟨e, he, rfl⟩ := hcover q hmem d hd' hcol
          have hed := (hl e he).2.1
          rw [hd'] at hed
          obtain ⟨i, hi, hcolumn⟩ := hin
          obtain ⟨state, heq⟩ := hb'.same index' (some todo) hphase c hc i hi hcolumn
          have hc' : loadCollection b.tenant w.store e.2.1.collection = some c := by
            rw [← Option.some.inj hed, hcol]
            exact (hloads _ _).symm.trans hc
          have hput := hposted e he c hc' i hi
          rw [heq, ← Option.some.inj hed] at hput
          exact hput
        · exact .inr hposted'
    have := forall_builds hbuilds (l := [_]) (fun b' hb' => by
      rw [mem_singleton.1 hb']
      exact hsound)
    simpa using this

lemma finish {outcome : BuildOutcome}
    (hphase : b.phase = .rewriting (some recorded) (some []))
    (hfinish : finishIndex b.tenant w.store b.seq b.collection recorded = (outcome, store)) :
    World.Sound { w with store, builds := before ++ b.after outcome ++ after } := by
  have hb := h.builds b (mem_of_builds hbuilds)
  obtain ⟨hrname, hrcolumn, salt, hsalt⟩ := hb.column recorded _ hphase
  suffices hadvances : ∀ w' : World, w'.store = store → w'.reserved = w.reserved →
      w'.columns = w.columns → Advances w w' ∧ ∀ t, TenantOk t → Respects t w'.store by
    obtain ⟨ha, hrespects⟩ := hadvances { w with
      store, builds := before ++ b.after outcome ++ after } rfl rfl rfl
    refine h.advances ha (fun _ _ => id) hrespects (forall_builds hbuilds fun b' hb' => ?_)
    cases outcome with
    | dropped | ready => exact absurd hb' not_mem_nil
    | duplicate first second =>
      rw [mem_singleton.1 hb']
      exact sound_clearing hb.tenant (ha.names _ _ _ id hb.seq)
  intro w' hstore hreserved hcolumns
  have hsame : store = w.store → Advances w w' ∧ ∀ t, TenantOk t → Respects t w'.store := by
    intro heq
    obtain ⟨store', reserved', columns', builds'⟩ := w'
    cases hstore.trans heq
    cases hreserved
    cases hcolumns
    exact ⟨Advances.of_builds h builds', h.respects⟩
  obtain ⟨c, hc⟩ := h.kept.load_of_named hb.seq
  obtain ⟨hname, hisName⟩ := h.kept.name_of_load hc
  have hok := h.kept.indexesOk hc
  unfold finishIndex at hfinish
  rw [hc] at hfinish
  dsimp only at hfinish
  by_cases hall : (c.indexes.all fun index => index.column ≠ recorded.column) = true
  · rw [if_pos hall] at hfinish
    cases hfinish
    exact hsame rfl
  rw [if_neg hall] at hfinish
  have hin : ∃ i ∈ c.indexes, i.column = recorded.column := by
    simpa using hall
  split at hfinish
  next first second hclash =>
    cases hfinish
    exact h.filterIndexes hstore hreserved hcolumns hb.seq hc
  next hclash =>
    cases hfinish
    -- an index of the record that is made ready is the one that was built
    have hready : ∀ i ∈ c.indexes, i.column = recorded.column →
        { i with state := .ready } = { recorded with state := .ready } := by
      intro i hi hcolumn
      obtain ⟨state, heq⟩ := hb.same recorded _ hphase c hc i hi hcolumn
      rw [heq]
    have hposted : ∀ q d, docAt b.tenant w.store q = some d → d.collection = b.collection →
        PostedIn w.store q d recorded := fun q d hd hcol =>
      (hb.posted recorded [] hphase c hc hin q d hd hcol).resolve_left not_mem_nil
    have hdistinct : recorded.unique = true → Distinct (docAt b.tenant w.store) b.collection recorded := by
      intro hunique
      rw [if_pos hunique] at hclash
      exact distinct_of_duplicateIn h.kept hb.tenant hisName hsalt hposted hclash
    refine h.setIndexes hstore hreserved hb.seq hc ?_ (fun col hcol => by rwa [hcolumns]) ?_ ?_
    · constructor
      · intro i hi
        obtain ⟨j, hj, rfl⟩ := List.mem_map.1 hi
        split_ifs
        · exact hok.named j hj
        · exact hok.named j hj
      · have hnames : (c.indexes.map fun index => if index.column = recorded.column then
            { index with state := .ready } else index).map (fun index => index.name) =
            c.indexes.map fun index => index.name := by
          rw [List.map_map]
          refine map_congr_left fun i _ => ?_
          simp only [Function.comp]
          split_ifs
          · rfl
          · rfl
        rw [hnames]
        exact hok.nodup
      · intro i hi
        obtain ⟨j, hj, rfl⟩ := List.mem_map.1 hi
        split_ifs
        · exact hok.column j hj
        · exact hok.column j hj
    · intro i hi
      obtain ⟨j, hj, rfl⟩ := List.mem_map.1 hi
      rw [hcolumns]
      have hcolumn := h.columns _ _ c hc j hj
      split_ifs
      · exact ⟨hcolumn, .inr ⟨j.state, hj⟩⟩
      · exact ⟨hcolumn, .inr ⟨j.state, hj⟩⟩
    · intro i hi hstate
      obtain ⟨j, hj, rfl⟩ := List.mem_map.1 hi
      by_cases hcolumn : j.column = recorded.column
      · right
        rw [if_pos hcolumn, hready j hj hcolumn]
        exact ⟨hposted, hdistinct⟩
      · left
        rw [if_neg hcolumn]
        exact hj

end

lemma alike (hr : RecordsOnly w.store.lastSeq w.store store ∧ SameRecords w.store store) :
    World.Sound { w with store } := by
  obtain ⟨hr, hsame⟩ := hr
  have ha : Advances w { w with store } := by
    refine Advances.of_records h hr rfl (fun _ hc => hc) fun t n c' hc' i hi => ?_
    obtain ⟨c, hc, halike⟩ := hsame.back t n c' hc'
    rw [halike.indexes] at hi
    exact ⟨h.columns t n c hc i hi, .inr ⟨c, i.state, hc, hi⟩⟩
  refine h.advances ha (fun _ _ => id) (fun t ht => ?_) fun b hb => .inl hb
  refine (h.respects t ht).of_same (hr.documents.docAt t) (hr.documents.carried t) ?_ ?_
  · intro n c hc
    obtain ⟨c', hc', -⟩ := hsame.forth t n c hc
    exact .inl ⟨c', hc'⟩
  · intro n c' i hc' hi _
    obtain ⟨c, hc, halike⟩ := hsame.back t n c' hc'
    exact .inl ⟨c, hc, by rwa [halike.indexes] at hi⟩

lemma retractRecord {name : Utf16} (hseq : w.store.named ⟨collectionNs t, name⟩ = some seq)
    (hempty : ∀ q d, docAt t w.store q = some d → d.collection ≠ name)
    (hquiet : ∀ b ∈ w.builds, ¬(b.tenant = t ∧ b.collection = name)) :
    World.Sound { w with store := w.store.write (.retract seq) } := by
  obtain ⟨held, hheld, hid⟩ := (h.kept.named _ _).1 hseq
  have hsame := sameDocuments_retract hheld hid fun _ _ hns => documentNs_ne_collectionNs hns.symm
  have hload := loadCollection_retract h.kept.named seq
  have hback : ∀ t' n c', loadCollection t' (w.store.write (.retract seq)) n = some c' →
      loadCollection t' w.store n = some c' := by
    intro t' n c' hc'
    rw [hload] at hc'
    split_ifs at hc'
    exact hc'
  have ha : AdvancesBut (fun t' n => t' = t ∧ n = name) w
      { w with store := w.store.write (.retract seq) } := {
    kept := h.kept.retract seq
    reserved := fun q hq => ⟨by rw [lastSeq_write]; exact (h.reserved q hq).1, Objects.free_retract (h.reserved q hq).2⟩
    names := by
      intro t' n q hgone hq
      rw [h.kept.named.named_retract, if_neg]
      · exact hq
      · intro hseq'
        obtain ⟨hns, hn⟩ := ObjectIdentity.mk.inj (h.kept.named.inj hseq hseq')
        exact hgone ⟨(collectionNs_inj hns).symm, hn.symm⟩
    columns := fun _ hc => hc
    indexes := fun t' n c' hc' i hi =>
      ⟨h.columns t' n c' (hback t' n c' hc') i hi, .inr ⟨c', i.state, hback t' n c' hc', hi⟩⟩
    carried := fun t' _ => hsame.carried t'
    settled := by
      rintro t' _ q ⟨hle, hnot, hq⟩
      refine ⟨by rw [lastSeq_write]; exact hle, hnot, ?_⟩
      rcases hq with hnone | ⟨d, hd⟩
      · exact .inl (Objects.free_retract hnone)
      · exact .inr ⟨d, (hsame.docAt t' q).trans hd⟩ }
  refine h.advances ha hquiet (fun t' ht' => ?_) fun b hb => .inl hb
  refine (h.respects t' ht').of_same (hsame.docAt t') (hsame.carried t') (fun n c hc => ?_)
    fun n c' i hc' hi _ => .inl ⟨c', hback t' n c' hc', hi⟩
  by_cases hgone : w.store.named ⟨collectionNs t', n⟩ = some seq
  · right
    obtain ⟨hns, rfl⟩ := ObjectIdentity.mk.inj (h.kept.named.inj hseq hgone)
    cases collectionNs_inj hns
    exact hempty
  · exact .inl ⟨c, by rw [hload, if_neg hgone]; exact hc⟩

section

variable (ht : TenantOk t) (hseq : w.store.lookup (collectionNs t) collection = some seq)
include ht hseq

lemma reindex :
    World.Sound { w with builds := w.builds ++ [⟨t, collection, seq, .rewriting none none⟩] } := by
  refine h.of_builds fun b hb => ?_
  rcases mem_append.1 hb with hb | hb
  · exact .inl hb
  · rw [mem_singleton.1 hb]
    exact .inr (sound_clearing ht hseq)

lemma configure
    {settings : StoredCollection → Settings} :
    World.Sound { w with
      store := recordSettings t w.store seq collection settings
      builds := w.builds ++ [⟨t, collection, seq, .rewriting none none⟩] } := by
  have hr := recordSettings_recordsOnly h.kept hseq settings
  exact (h.alike hr).reindex ht (hr.1.names _ _ _ hseq)

end

lemma changesOnly (ht : TenantOk t) (hinserts : ∀ op ∈ ops, op.inserts = none)
    (hs : ops.foldlM (applyWrite host t w.store now) {} = .ok s) :
    World.Sound { w with store := w.store.commit s.writes } := by
  have hseqs := seqsOf_eq_nil hinserts
  have hsound := h.changes ht (by rw [hseqs]; simp) (by rw [hseqs]; simp) hs
  simpa only [hseqs, not_mem_nil, not_false_eq_true, decide_true, filter_true] using hsound

lemma dropCollection {now name : Utf16} (ht : TenantOk t)
    (hquiet : ∀ b ∈ w.builds, ¬(b.tenant = t ∧ b.collection = name)) :
    World.Sound { w with store := (Db.dropCollection host t w.store now name).2 } :=
  dropCollection_induct (P := fun o => World.Sound { w with store := o }) ht (fun h => h.kept)
    (fun hinserts hs h => h.changesOnly ht hinserts hs) (fun hr h => h.alike hr)
    (fun hseq hempty h => h.retractRecord hseq hempty hquiet) h

end

end World.Sound

/-! ## Every run -/

lemma World.sound_start : World.Sound {} := by
  have hdocs : ∀ t q, docAt t (.empty : Objects Record) q = none := fun _ _ => rfl
  have hloads : ∀ t n, loadCollection t (.empty : Objects Record) n = none := fun _ _ => rfl
  refine ⟨⟨Objects.empty_named, ?_, ?_⟩, by simp, fun t _ => ⟨?_, ?_, ?_⟩, ?_, by simp⟩
  · intro q h hheld
    cases hheld
  · intro q h hheld
    cases hheld
  · intro q d hd
    cases hd
  · intro n c index hc
    cases hc
  · intro n c index hc
    cases hc
  · intro t n c hc
    cases hc

variable {C : World → TenantId → Utf16 → List DocumentWrite → Prop}

lemma World.Sound.step {host : Host} (h : w.Sound) (hstep : w.Step host C w') : w'.Sound := by
  cases hstep with
  | reserve => exact h.reserve
  | write ht hreserved hnodup _ hwrite => exact h.write ht hreserved hnodup hwrite
  | create hfresh => exact h.create hfresh
  | addReference => exact h.alike (addReference_recordsOnly h.kept _ _)
  | dropReference => exact h.alike (dropReference_recordsOnly h.kept _ _)
  | dropCollection ht hquiet => exact h.dropCollection ht hquiet
  | start ht hvalid hseq => exact h.start ht hvalid hseq
  | record hbuilds hphase hfresh hrecord hsame hbuilding =>
    exact h.record hbuilds hphase hfresh hrecord
  | scan hbuilds hphase => exact h.scan hbuilds hphase
  | rewrite hbuilds hphase hrewrite => exact h.rewrite hbuilds hphase hrewrite
  | finish hbuilds hphase hfinish => exact h.finish hbuilds hphase hfinish
  | abandon hbuilds => exact h.abandon hbuilds
  | configure ht hseq => exact h.configure ht hseq
  | reindex ht hseq => exact h.reindex ht hseq
  | drop ht hseq => exact h.drop ht hseq

lemma Reached.sound {host : Host} (h : Reached host C w) : w.Sound := by
  induction h with
  | start => exact World.sound_start
  | step _ hstep ih => exact ih.step hstep

/-- In every state a run reaches, no two documents hold the same values in a unique index that is
ready. -/
theorem reached_uniqueIn {host : Host} {C : World → TenantId → Utf16 → List DocumentWrite → Prop}
    {w : World} (h : Reached host C w) {t : TenantId} (ht : TenantOk t) : UniqueIn t w.store :=
  (h.sound.respects t ht).uniqueIn

def uniqueInput : CollectionInput where
  name := utf16 "a"
  indexes := [{ name := utf16 "u", fields := [{ path := utf16 "e" }], unique := true }]

/-- A store with such a collection, and an identifier allocated for a document of it. -/
def uniqueWorld : World where
  store := (createCollection (utf16 "t") .empty [] (fun _ => utf16 "s") uniqueInput).2.nextSeq.2
  reserved := [3]
  columns := [indexColumnFor (utf16 "t") (utf16 "a") (utf16 "u") (utf16 "s")]

def uniqueInsert : DocumentWrite :=
  .insert (utf16 "a") (utf16 "d") [(utf16 "e", .string (utf16 "x"))] .keep 3

def uniqueStore : Objects Record :=
  match writeDocuments plainHost (utf16 "t") uniqueWorld.store [] [uniqueInsert] with
  | .ok store => store
  | .error _ => .empty

lemma reached_uniqueInsert :
    Reached plainHost (fun _ _ _ _ => True) { uniqueWorld with store := uniqueStore, reserved := [] } := by
  have hcreated : Reached plainHost (fun _ _ _ _ => True) uniqueWorld := by
    refine .step (.step .start (@World.Step.create plainHost _ {} (utf16 "t") []
      (fun _ => utf16 "s") uniqueInput (by simp))) ?_
    exact .reserve
  have hwrite : writeDocuments plainHost (utf16 "t") uniqueWorld.store [] [uniqueInsert] =
      .ok uniqueStore := by
    have hok : (writeDocuments plainHost (utf16 "t") uniqueWorld.store [] [uniqueInsert]).toOption.isSome =
        true := by decide +kernel
    unfold uniqueStore
    cases hresult : writeDocuments plainHost (utf16 "t") uniqueWorld.store [] [uniqueInsert] with
    | ok store => rfl
    | error fault =>
      rw [hresult] at hok
      cases hok
  exact .step hcreated (.write ⟨by decide, by decide⟩ (by decide) (by decide) trivial hwrite)

/-- A run that inserts a document under a unique index. -/
theorem reached_uniqueIn_insert : (docAt (utf16 "t") uniqueStore 3).map Document.id = some (utf16 "d") ∧
      UniqueIn (utf16 "t") uniqueStore :=
  ⟨by decide +kernel, reached_uniqueIn reached_uniqueInsert ⟨by decide, by decide⟩⟩

end Zelavis.Db
