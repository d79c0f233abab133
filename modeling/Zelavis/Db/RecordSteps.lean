import Zelavis.Db.DocumentSteps
import Zelavis.Db.Catalogs

/-!
# What writing records keeps
-/

namespace Zelavis.Db

open Lib List

variable {o : Objects Record} {t : TenantId}

/-! ## Records -/

/-- The documents of a store, and all they contribute, are those of another. -/
structure SameDocuments (o o' : Objects Record) : Prop where
  docAt : ∀ t q, Db.docAt t o' q = Db.docAt t o q
  held : ∀ t q d, Db.docAt t o q = some d → o'.held.get q = o.held.get q

lemma SameDocuments.refl (o : Objects Record) : SameDocuments o o :=
  ⟨fun _ _ => rfl, fun _ _ _ _ => rfl⟩

lemma SameDocuments.trans {o' o'' : Objects Record} (h : SameDocuments o o')
    (h' : SameDocuments o' o'') : SameDocuments o o'' where
  docAt t q := (h'.docAt t q).trans (h.docAt t q)
  held t q d hd := (h'.held t q d ((h.docAt t q).trans hd)).trans (h.held t q d hd)

variable {i : ObjectIdentity} {m : IndexManifest} {body : Record}

lemma sameDocuments_put {seq : Seq}
    (h : o.Takes seq i) (hi : ∀ t c, i.ns ≠ documentNs t c) :
    SameDocuments o (o.write (.put seq body m (some i))) := by
  have hold : ∀ t, docAt t o seq = none := by
    intro t
    cases hd : docAt t o seq with
    | none => rfl
    | some d =>
      obtain ⟨held, hheld, -, hid⟩ := docAt_eq_some.1 hd
      rw [h.1 held hheld] at hid
      exact absurd (by rw [Option.some.inj hid]) (hi t d.collection)
  have hnew : ∀ t, docAt t (o.write (.put seq body m (some i))) seq = none := by
    intro t
    cases hd : docAt t (o.write (.put seq body m (some i))) seq with
    | none => rfl
    | some d =>
      obtain ⟨held, hheld, -, hid⟩ := docAt_eq_some.1 hd
      rw [Objects.held_put, OrderedMap.get_insert, if_pos rfl] at hheld
      cases hheld
      exact absurd (by rw [Option.some.inj hid]) (hi t d.collection)
  have hother : ∀ q, q ≠ seq → (o.write (.put seq body m (some i))).held.get q = o.held.get q := by
    intro q hq
    rw [Objects.held_put, OrderedMap.get_insert, if_neg hq]
  constructor
  · intro t q
    by_cases hq : q = seq
    · rw [hq, hold, hnew]
    · unfold docAt
      rw [hother q hq]
  · intro t q d hd
    refine hother q ?_
    rintro rfl
    rw [hold] at hd
    cases hd

lemma Kept.put_of_shape (ho : Kept o) {seq : Seq}
    (h : o.Takes seq i) (hseq : seq ≤ o.lastSeq) (hshape : ∀ version, Shape ⟨some i, version, body, m⟩) :
    Kept (o.write (.put seq body m (some i))) := by
  refine ⟨ho.named.put h, ?_, ?_⟩
  · intro s held hs
    obtain ⟨rfl, -⟩ | hs := Objects.held_of_put hs
    · exact hseq
    · exact ho.bounded s held hs
  · intro s held hs
    obtain ⟨-, rfl⟩ | hs := Objects.held_of_put hs
    · exact hshape _
    · exact ho.shapes s held hs

variable {n : Utf16}

section

variable {o : Objects Record} {t : TenantId} {seq : Seq} {c : StoredCollection}

lemma Kept.collectionPut (ho : Kept o) (h : o.Takes seq ⟨collectionNs t, c.name⟩)
    (hseq : seq ≤ o.lastSeq) (hname : isName c.name = true) (hindexes : IndexesOk t c) :
    Kept (o.write (collectionPut t seq c)) := by
  refine ho.put_of_shape h hseq fun version => .collection t c rfl rfl hname hindexes ?_
  intro col hcol
  rw [mem_singleton.1 hcol]
  exact ⟨rfl, rfl⟩

lemma sameDocuments_collectionPut (h : o.Takes seq ⟨collectionNs t, c.name⟩) :
    SameDocuments o (o.write (collectionPut t seq c)) :=
  sameDocuments_put h fun _ _ hns => documentNs_ne_collectionNs hns.symm

lemma Kept.load_of_named (ho : Kept o)
    (h : o.named ⟨collectionNs t, n⟩ = some seq) : ∃ c, loadCollection t o n = some c := by
  obtain ⟨held, hheld, hid⟩ := (ho.named _ _).1 h
  cases ho.shapes seq held hheld with
  | collection t' c' body _ _ _ _ =>
    exact ⟨c', loadCollection_eq_some.2 ⟨held, (ho.named.under_of_held hheld hid).2, body⟩⟩
  | document t' d _ _ identity _ _ _ =>
    rw [identity] at hid
    exact absurd (ObjectIdentity.mk.inj (Option.some.inj hid)).1 documentNs_ne_collectionNs
  | other i identity _ ns _ =>
    rw [identity] at hid
    exact absurd (by rw [Option.some.inj hid]) (ns.1 t)

end

/-- A change of no document, that takes no identifier up to a bound. -/
structure RecordsOnly (bound : Seq) (o o' : Objects Record) : Prop where
  kept : Kept o'
  documents : SameDocuments o o'
  later : o.lastSeq ≤ o'.lastSeq
  free : ∀ q ≤ bound, o.held.get q = none → o'.held.get q = none
  names : ∀ t n q, o.named ⟨collectionNs t, n⟩ = some q → o'.named ⟨collectionNs t, n⟩ = some q

variable {l : List (Seq × StoredCollection)}

namespace RecordsOnly

variable {bound : Seq} {o o' o'' : Objects Record}

lemma refl (ho : Kept o) : RecordsOnly bound o o :=
  ⟨ho, SameDocuments.refl o, le_rfl, fun _ _ h => h, fun _ _ _ h => h⟩

lemma trans (h : RecordsOnly bound o o') (h' : RecordsOnly bound o' o'') : RecordsOnly bound o o'' :=
  ⟨h'.kept, h.documents.trans h'.documents, h.later.trans h'.later,
    fun q hq hnone => h'.free q hq (h.free q hq hnone),
    fun t n q hq => h'.names t n q (h.names t n q hq)⟩

lemma nextSeq (ho : Kept o) : RecordsOnly bound o o.nextSeq.2 :=
  ⟨⟨ho.named, fun s h hs => (ho.bounded s h hs).trans (Nat.le_succ _), ho.shapes⟩,
    ⟨fun _ _ => rfl, fun _ _ _ _ => rfl⟩, Nat.le_succ _, fun _ _ h => h, fun _ _ _ h => h⟩

variable {seq : Seq}

lemma put (ho : Kept o) (h : o.Takes seq i) (hseq : seq ≤ o.lastSeq) (hi : ∀ t c, i.ns ≠ documentNs t c)
    (hshape : ∀ version, Shape ⟨some i, version, body, m⟩)
    (hfree : bound < seq ∨ ∃ held, o.held.get seq = some held) :
    RecordsOnly bound o (o.write (.put seq body m (some i))) := by
  refine ⟨ho.put_of_shape h hseq hshape, sameDocuments_put h hi, by rw [lastSeq_write], ?_,
    fun _ _ _ hj => ho.named.named_put_of_named h hj⟩
  intro q hq hnone
  rw [Objects.held_put, OrderedMap.get_insert, if_neg]
  · exact hnone
  · rintro rfl
    rcases hfree with hlt | ⟨held, hheld⟩
    · exact absurd hq (Nat.not_le.2 hlt)
    · rw [hheld] at hnone
      cases hnone

variable {t : TenantId}

lemma collectionPut (ho : Kept o) {c : StoredCollection}
    (h : o.Takes seq ⟨collectionNs t, c.name⟩) (hseq : seq ≤ o.lastSeq)
    (hname : isName c.name = true) (hindexes : IndexesOk t c)
    (hfree : bound < seq ∨ ∃ held, o.held.get seq = some held) :
    RecordsOnly bound o (o.write (Db.collectionPut t seq c)) :=
  ⟨ho.collectionPut h hseq hname hindexes, sameDocuments_collectionPut h, by rw [lastSeq_write],
    (put ho h hseq (fun _ _ hns => documentNs_ne_collectionNs hns.symm) (fun version =>
      .collection t c rfl rfl hname hindexes fun col hcol => by
        rw [mem_singleton.1 hcol]
        exact ⟨rfl, rfl⟩) hfree).free, fun _ _ _ hj => ho.named.named_put_of_named h hj⟩

lemma puts (ho : Kept o) (hl : ∀ e ∈ l, o.named ⟨collectionNs t, e.2.name⟩ = some e.1)
    (hrecords : ∀ e ∈ l, isName e.2.name = true ∧ IndexesOk t e.2) :
    RecordsOnly bound o (o.commit (l.map fun e => Db.collectionPut t e.1 e.2)) := by
  refine commit_puts_induct (P := RecordsOnly bound o) ho.named hl ?_ (refl ho)
  intro e he o' ho' hnamed
  have he' : o'.named ⟨collectionNs t, e.2.name⟩ = some e.1 := by
    rw [hnamed]
    exact hl e he
  obtain ⟨held, hheld, -⟩ := (ho'.kept.named _ _).1 he'
  exact ho'.trans (collectionPut ho'.kept (ho'.kept.named.takes_of_named he')
    (ho'.kept.bounded _ _ hheld) (hrecords e he).1 (hrecords e he).2 (.inr ⟨held, hheld⟩))

end RecordsOnly

/-! ## References changed -/

/-- Two records that differ in their references only. -/
structure Alike (c c' : StoredCollection) : Prop where
  name : c'.name = c.name
  indexes : c'.indexes = c.indexes
  edges : c'.edges = c.edges

lemma Alike.refl (c : StoredCollection) : Alike c c := ⟨rfl, rfl, rfl⟩

lemma Alike.trans {c c' c'' : StoredCollection} (h : Alike c c') (h' : Alike c' c'') : Alike c c'' :=
  ⟨h'.name.trans h.name, h'.indexes.trans h.indexes, h'.edges.trans h.edges⟩

lemma alike_linked (s : Utf16) (rs : List ReferenceConstraint) (c : StoredCollection) :
    Alike c (linked s rs c) := ⟨rfl, rfl, rfl⟩

lemma alike_unlinked (s n : Utf16) (c : StoredCollection) : Alike c (unlinked s n c) :=
  ⟨rfl, rfl, rfl⟩

lemma alike_withoutReference (n : Utf16) (c : StoredCollection) :
    Alike c (withoutReference n c) := ⟨rfl, rfl, rfl⟩

lemma alike_on (settings : Settings) (c : StoredCollection) : Alike c (settings.on c) :=
  ⟨rfl, rfl, rfl⟩

lemma Alike.indexesOk {c c' : StoredCollection} (h : Alike c c')
    (hc : IndexesOk t c) : IndexesOk t c' where
  named := by
    rw [h.indexes]
    exact hc.named
  nodup := by
    rw [h.indexes]
    exact hc.nodup
  column := by
    rw [h.indexes, h.name]
    exact hc.column

/-- The collections of a store are those of another, alike. -/
structure SameRecords (o o' : Objects Record) : Prop where
  forth : ∀ t n c, loadCollection t o n = some c → ∃ c', loadCollection t o' n = some c' ∧ Alike c c'
  back : ∀ t n c', loadCollection t o' n = some c' → ∃ c, loadCollection t o n = some c ∧ Alike c c'

lemma SameRecords.of_eq {o' : Objects Record}
    (h : ∀ t n, loadCollection t o' n = loadCollection t o n) : SameRecords o o' :=
  ⟨fun t n c hc => ⟨c, (h t n).trans hc, .refl c⟩, fun t n c hc => ⟨c, (h t n).symm.trans hc, .refl c⟩⟩

lemma SameRecords.trans {o' o'' : Objects Record} (h : SameRecords o o')
    (h' : SameRecords o' o'') : SameRecords o o'' where
  forth t n c hc := by
    obtain ⟨c', hc', halike⟩ := h.forth t n c hc
    obtain ⟨c'', hc'', halike'⟩ := h'.forth t n c' hc'
    exact ⟨c'', hc'', halike.trans halike'⟩
  back t n c'' hc'' := by
    obtain ⟨c', hc', halike'⟩ := h'.back t n c'' hc''
    obtain ⟨c, hc, halike⟩ := h.back t n c' hc'
    exact ⟨c, hc, halike.trans halike'⟩

/-- What a transaction writes of records: over those there are, and alike. -/
def AlikeWrite (t : TenantId) (o : Objects Record) (e : Seq × StoredCollection) : Prop :=
  o.named ⟨collectionNs t, e.2.name⟩ = some e.1 ∧ ∃ b, loadCollection t o e.2.name = some b ∧ Alike b e.2

lemma RecordsOnly.puts_alike (bound : Seq) (ho : Kept o)
    (hl : ∀ e ∈ l, AlikeWrite t o e) :
    RecordsOnly bound o (o.commit (l.map fun e => Db.collectionPut t e.1 e.2)) ∧
      SameRecords o (o.commit (l.map fun e => Db.collectionPut t e.1 e.2)) := by
  refine ⟨RecordsOnly.puts ho (fun e he => (hl e he).1) fun e he => ?_, ?_⟩
  · obtain ⟨-, b, hb, halike⟩ := hl e he
    exact ⟨(ho.name_of_load hb).2, halike.indexesOk (ho.indexesOk hb)⟩
  · refine (commit_puts_induct
      (P := fun o' => o'.Named ∧ SameRecords o o') ho.named (fun e he => (hl e he).1) ?_
      ⟨ho.named, SameRecords.of_eq fun _ _ => rfl⟩).2
    rintro e he o' ⟨ho', hsame⟩ hnamed
    obtain ⟨hseq, b, hb, halike⟩ := hl e he
    have htakes : o'.Takes e.1 ⟨collectionNs t, e.2.name⟩ :=
      ho'.takes_of_named (by rw [hnamed, hseq])
    have hload := loadCollection_collectionPut ho' htakes
    refine ⟨ho'.put htakes, fun t' n c hc => ?_, fun t' n c' hc' => ?_⟩
    · rw [hload]
      split_ifs with heq
      · obtain ⟨rfl, rfl⟩ := heq
        rw [hb] at hc
        cases hc
        exact ⟨_, rfl, halike⟩
      · exact hsame.forth t' n c hc
    · rw [hload] at hc'
      split_ifs at hc' with heq
      · obtain ⟨rfl, rfl⟩ := heq
        cases hc'
        exact ⟨b, hb, halike⟩
      · exact hsame.back t' n c' hc'

lemma Kept.listed (ho : Kept o) : Listed o :=
  ⟨ho.named, fun _ _ _ h => (ho.name_of_load h).1⟩

lemma Kept.held_nextSeq (ho : Kept o) : o.nextSeq.2.held.get o.nextSeq.1 = none := by
  cases h : o.nextSeq.2.held.get o.nextSeq.1 with
  | none => rfl
  | some h' => exact absurd (ho.bounded _ h' h) (Nat.not_succ_le_self _)

lemma slash_notMem_tenantColumn : SLASH ∉ TENANT_COLUMN := by decide

lemma tenantNs_ne {c : Utf16} : TENANT_NAMESPACE ≠ documentNs t c := by
  intro h
  have hlt := congrArg (List.take 2) h
  unfold documentNs at hlt
  rw [append_assoc, append_assoc, take_append_of_le_length (by decide)] at hlt
  exact absurd hlt (by decide)

lemma markTenant_recordsOnly (ho : Kept o) (t : TenantId) {bound : Seq}
    (hbound : bound ≤ o.lastSeq) : RecordsOnly bound o (markTenant t o) ∧
      ∀ t' n, loadCollection t' (markTenant t o) n = loadCollection t' o n := by
  unfold markTenant
  cases hmarker : o.lookup TENANT_NAMESPACE t with
  | some s => exact ⟨RecordsOnly.refl ho, fun _ _ => rfl⟩
  | none =>
    have hnext : RecordsOnly bound o o.nextSeq.2 := RecordsOnly.nextSeq ho
    have htakes := hnext.kept.named.takes_of_fresh ho.held_nextSeq hmarker
    refine ⟨hnext.trans ?_, fun t' n => ?_⟩
    · rw [Objects.commit_cons, Objects.commit_nil]
      refine RecordsOnly.put hnext.kept htakes le_rfl (fun _ _ => tenantNs_ne) (fun version => ?_)
        (.inl (Nat.lt_succ_of_le hbound))
      refine .other _ rfl ⟨by simp, by simp⟩ ⟨?_, fun _ _ => tenantNs_ne⟩ ?_
      · exact fun t' => (collectionNs_ne_tenantNs).symm
      · intro col hcol
        rw [mem_singleton.1 hcol]
        exact slash_notMem_tenantColumn
    · refine loadCollection_congr ?_
      rw [Objects.commit_cons, Objects.commit_nil, hnext.kept.named.under_put htakes, if_neg]
      · rfl
      · intro hid
        exact collectionNs_ne_tenantNs (ObjectIdentity.mk.inj hid).1

/-- Creating a collection changes records only: none where it is refused, and otherwise its own, new,
and those of its targets, in their back-references. -/
theorem createCollection_cases (ho : Kept o) (t : TenantId) (now : Utf16)
    (salt : Utf16 → Utf16) (input : CollectionInput) :
    RecordsOnly o.lastSeq o (createCollection t o now salt input).2 ∧
      ((∀ t' n, loadCollection t' (createCollection t o now salt input).2 n = loadCollection t' o n) ∨
        ∃ c, collectionFor t now salt input = .ok c ∧ loadCollection t o c.name = none ∧
          (∀ r ∈ c.references, r.collection ≠ c.name → ∃ b, loadCollection t o r.collection = some b) ∧
          (∀ n, loadCollection t (createCollection t o now salt input).2 n =
            Catalog.created (loadCollection t o) c n) ∧
          ∀ t' ≠ t, ∀ n, loadCollection t' (createCollection t o now salt input).2 n =
            loadCollection t' o n) := by
  unfold Db.createCollection
  split
  · exact ⟨RecordsOnly.refl ho, .inl fun _ _ => rfl⟩
  · exact ⟨RecordsOnly.refl ho, .inl fun _ _ => rfl⟩
  next hvalid =>
    split_ifs with hexisting
    · exact ⟨RecordsOnly.refl ho, .inl fun _ _ => rfl⟩
    · split
      · exact ⟨RecordsOnly.refl ho, .inl fun _ _ => rfl⟩
      next c hc =>
        obtain ⟨hname, hempty, honce, hnodup, hindexes⟩ := collectionFor_eq_ok hc
        have hisName : isName c.name = true := by
          rw [hname]
          unfold validateName at hvalid
          split_ifs at hvalid with hname
          simpa using hname
        have hok : IndexesOk t c :=
          ⟨fun i hi => (hindexes i hi).2.1, hnodup, fun i hi => ⟨_, (hindexes i hi).2.2⟩⟩
        have hfresh : loadCollection t o c.name = none := by
          rw [hname]
          exact Option.not_isSome_iff_eq_none.1 hexisting
        have hnone : o.named ⟨collectionNs t, c.name⟩ = none := by
          cases hn : o.named ⟨collectionNs t, c.name⟩ with
          | none => rfl
          | some s =>
            obtain ⟨b, hb⟩ := ho.load_of_named hn
            rw [hfresh] at hb
            cases hb
        split
        · exact ⟨RecordsOnly.nextSeq ho, .inl fun _ _ => rfl⟩
        next ws hws =>
          obtain ⟨l, rfl, hl, hcover⟩ := createWrites_eq_ok ho.listed hws
          have hnext : RecordsOnly o.lastSeq o o.nextSeq.2 := RecordsOnly.nextSeq ho
          have htakes : o.nextSeq.2.Takes o.nextSeq.1 ⟨collectionNs t, c.name⟩ :=
            hnext.kept.named.takes_of_fresh ho.held_nextSeq hnone
          obtain ⟨hcatalog, hother⟩ := created_catalog hnext.kept.listed htakes hl hcover
          -- the new record, then its targets
          have hown := hnext.trans (RecordsOnly.collectionPut hnext.kept (t := t)
            (c := linked c.name (c.references.filter fun r => r.collection = c.name) c) htakes le_rfl
            hisName ⟨hok.named, hok.nodup, hok.column⟩ (.inl (Nat.lt_succ_self _)))
          have hputs := hown.trans (RecordsOnly.puts hown.kept (t := t) (l := l) (fun e he => by
            rw [collectionPut, linked_name, Objects.named_put htakes, if_neg]
            · exact (hl e he).2.1
            · intro hid
              exact (hl e he).1 (ObjectIdentity.mk.inj hid).2) fun e he => by
            obtain ⟨-, -, b, hb, heq⟩ := hl e he
            have hb' := ho.indexesOk hb
            have hbname := ho.name_of_load hb
            rw [heq]
            exact ⟨by rw [linked_name, hbname.1]; exact hbname.2, ⟨hb'.named, hb'.nodup, hb'.column⟩⟩)
          obtain ⟨hmarked, hmarkedLoad⟩ := markTenant_recordsOnly hputs.kept t hputs.later
          refine ⟨hputs.trans hmarked, .inr ⟨c, hc, hfresh, fun r hr hcol => ?_,
            fun n => (hmarkedLoad t n).trans (hcatalog n),
            fun t' ht' n => (hmarkedLoad t' n).trans (hother t' ht' n)⟩⟩
          obtain ⟨e, he, hn⟩ := hcover r hr hcol
          obtain ⟨-, -, b, hb, -⟩ := hl e he
          exact ⟨b, hn ▸ hb⟩

/-- The collections that were there are, alike, and one that was not is the one created, with indexes
that are ready. -/
theorem createCollection_recordsOnly (ho : Kept o) (t : TenantId)
    (now : Utf16) (salt : Utf16 → Utf16) (input : CollectionInput) :
    RecordsOnly o.lastSeq o (createCollection t o now salt input).2 ∧
      (∀ t' n b, loadCollection t' o n = some b → ∃ b',
        loadCollection t' (createCollection t o now salt input).2 n = some b' ∧ Alike b b') ∧
      ∀ t' n b', loadCollection t' (createCollection t o now salt input).2 n = some b' →
        loadCollection t' o n = none → t' = t ∧ n = input.name ∧ EdgesOk b' ∧ ∀ index ∈ b'.indexes,
          index.state = .ready ∧ index.column = indexColumnFor t n index.name (salt index.name) := by
  obtain ⟨hr, hsame | ⟨c, hc, hfresh, -, hcatalog, hother⟩⟩ :=
    createCollection_cases ho t now salt input
  · refine ⟨hr, fun t' n b hb => ⟨b, by rw [hsame]; exact hb, .refl b⟩, fun t' n b' hb' hnone => ?_⟩
    rw [hsame, hnone] at hb'
    cases hb'
  · obtain ⟨hname, -, -, -, hindexes⟩ := collectionFor_eq_ok hc
    refine ⟨hr, ?_, ?_⟩
    · intro t' n b hb
      by_cases ht' : t' = t
      · subst ht'
        have hne : n ≠ c.name := by
          rintro rfl
          rw [hfresh] at hb
          cases hb
        refine ⟨linked c.name (c.references.filter fun r => r.collection = n) b, ?_, alike_linked _ _ b⟩
        rw [hcatalog]
        unfold Catalog.created
        rw [if_neg hne, hb]
        rfl
      · exact ⟨b, (hother t' ht' n).trans hb, .refl b⟩
    · intro t' n b' hb' hnone
      by_cases ht' : t' = t
      · subst ht'
        rw [hcatalog] at hb'
        unfold Catalog.created at hb'
        split_ifs at hb' with hn
        · cases hb'
          rw [hn]
          have hedges := edgesOk_of_collectionFor hc
          exact ⟨rfl, hname, ⟨hedges.named, hedges.nodup⟩, fun index hindex =>
            ⟨(hindexes index hindex).1, (hindexes index hindex).2.2⟩⟩
        · rw [hnone] at hb'
          cases hb'
      · rw [hother t' ht', hnone] at hb'
        cases hb'

/-! ## Adding and dropping references -/

section

variable {o : Objects Record} {t : TenantId} {seq : Seq}

lemma Kept.alikeWrite (ho : Kept o) {c c' : StoredCollection}
    (hseq : o.lookup (collectionNs t) n = some seq) (hc : loadCollection t o n = some c)
    (halike : Alike c c') : AlikeWrite t o (seq, c') := by
  have hname : c'.name = n := halike.name.trans (ho.name_of_load hc).1
  exact ⟨by rw [hname]; exact hseq, c, by rw [hname]; exact hc, halike⟩

/-- What taking a reference off writes: records alike, with fewer references, and with every listing
but its own. -/
theorem unlinkReference_writes (ho : Kept o) (source name : Utf16) : ∃ l : List (Seq × StoredCollection),
      unlinkReference t o source name = l.map (fun e => collectionPut t e.1 e.2) ∧
      (∀ e ∈ l, AlikeWrite t o e ∧
        (∀ b, loadCollection t o e.2.name = some b → (∀ r ∈ e.2.references, r ∈ b.references) ∧
          ∀ back ∈ b.referencedBy, back ≠ ⟨source, name⟩ → back ∈ e.2.referencedBy) ∧
        (e.2.name = source → ∀ r ∈ e.2.references, r.name ≠ name)) ∧
      (l ≠ [] → ∃ e ∈ l, e.2.name = source) := by
  unfold unlinkReference
  split
  next seq record hseq hrecord =>
    have hname := (ho.name_of_load hrecord).1
    split
    · exact ⟨[], rfl, by simp, by simp⟩
    next reference _ =>
      split_ifs with hcol
      · refine ⟨[(seq, unlinked source name (withoutReference name record))], rfl, fun e he => ?_,
          fun _ => ⟨_, mem_singleton_self _, hname⟩⟩
        rw [mem_singleton.1 he]
        refine ⟨ho.alikeWrite hseq hrecord
          ((alike_withoutReference name record).trans (alike_unlinked source name _)),
          fun b hb => ?_, fun _ r hr => (mem_withoutReference.1 hr).2⟩
        rw [unlinked_name, withoutReference_name, hname, hrecord] at hb
        cases hb
        exact ⟨fun r hr => (mem_withoutReference.1 hr).1, fun back hback hne => mem_unlinked.2 ⟨hback, hne⟩⟩
      · have hown : AlikeWrite t o (seq, withoutReference name record) ∧
            (∀ b, loadCollection t o (withoutReference name record).name = some b →
              (∀ r ∈ (withoutReference name record).references, r ∈ b.references) ∧
              ∀ back ∈ b.referencedBy, back ≠ ⟨source, name⟩ →
                back ∈ (withoutReference name record).referencedBy) ∧
            ((withoutReference name record).name = source →
              ∀ r ∈ (withoutReference name record).references, r.name ≠ name) := by
          refine ⟨ho.alikeWrite hseq hrecord (alike_withoutReference name record), fun b hb => ?_,
            fun _ r hr => (mem_withoutReference.1 hr).2⟩
          rw [withoutReference_name, hname, hrecord] at hb
          cases hb
          exact ⟨fun r hr => (mem_withoutReference.1 hr).1, fun back hback _ => hback⟩
        split
        next target b htarget hb =>
          have hbname := (ho.name_of_load hb).1
          refine ⟨[(seq, withoutReference name record), (target, unlinked source name b)], rfl,
            fun e he => ?_, fun _ => ⟨_, mem_cons_self, hname⟩⟩
          rcases mem_cons.1 he with rfl | he
          · exact hown
          · rw [mem_singleton.1 he]
            refine ⟨ho.alikeWrite htarget hb (alike_unlinked source name b), fun b' hb' => ?_,
              fun heq => absurd (hbname.symm.trans heq) hcol⟩
            rw [unlinked_name, hbname, hb] at hb'
            cases hb'
            exact ⟨fun r hr => hr, fun back hback hne => mem_unlinked.2 ⟨hback, hne⟩⟩
        next =>
          refine ⟨[(seq, withoutReference name record)], rfl, fun e he => ?_,
            fun _ => ⟨_, mem_singleton_self _, hname⟩⟩
          rw [mem_singleton.1 he]
          exact hown
  next => exact ⟨[], rfl, by simp, by simp⟩

variable {bound : Seq}

lemma unlinkReference_recordsOnly (ho : Kept o) (source name : Utf16) :
    RecordsOnly bound o (o.commit (unlinkReference t o source name)) ∧
      SameRecords o (o.commit (unlinkReference t o source name)) := by
  obtain ⟨l, hl, hwrites, -⟩ := unlinkReference_writes (t := t) ho source name
  rw [hl]
  exact RecordsOnly.puts_alike _ ho fun e he => (hwrites e he).1

lemma recordsOnly_refl (ho : Kept o) : RecordsOnly bound o o ∧ SameRecords o o :=
  ⟨RecordsOnly.refl ho, SameRecords.of_eq fun _ _ => rfl⟩

lemma dropReference_recordsOnly (ho : Kept o) (collection name : Utf16) :
    RecordsOnly bound o (dropReference t o collection name).2 ∧
      SameRecords o (dropReference t o collection name).2 := by
  unfold dropReference
  split
  · exact recordsOnly_refl ho
  · exact recordsOnly_refl ho
  · exact unlinkReference_recordsOnly ho collection name

/-- What adding a reference writes: the record that declares it and the one that lists it, once where
they are one. -/
theorem addWrites_eq_ok (ho : Kept o) {source : Utf16} {record : StoredCollection}
    {reference : ReferenceConstraint} {writes : List (Objects.Write Record)}
    (hseq : o.lookup (collectionNs t) source = some seq) (hrecord : loadCollection t o source = some record)
    (h : addWrites t o source seq record reference = .ok writes) :
    ∃ l : List (Seq × StoredCollection), writes = l.map (fun e => collectionPut t e.1 e.2) ∧
      (∀ e ∈ l, AlikeWrite t o e ∧ (∀ b, loadCollection t o e.2.name = some b →
          (∀ r ∈ e.2.references, r ∈ b.references ∨ e.2.name = source ∧ r = reference) ∧
          ∀ back ∈ b.referencedBy, back ∈ e.2.referencedBy) ∧
        (e.2.name = reference.collection → reference.back source ∈ e.2.referencedBy)) ∧
      ∃ e ∈ l, e.2.name = reference.collection := by
  have hname := (ho.name_of_load hrecord).1
  have hdeclared : ∀ r ∈ record.references ++ [reference],
      r ∈ record.references ∨ record.name = source ∧ r = reference :=
    fun r hr => (mem_append.1 hr).imp_right fun hr => ⟨hname, mem_singleton.1 hr⟩
  unfold addWrites at h
  dsimp only at h
  split_ifs at h with hcol
  · cases h
    refine ⟨[(seq, linked source [reference] { record with
      references := record.references ++ [reference] })], rfl, fun e he => ?_,
      _, mem_singleton_self _, hname.trans hcol.symm⟩
    rw [mem_singleton.1 he]
    refine ⟨ho.alikeWrite hseq hrecord ⟨rfl, rfl, rfl⟩, fun b hb => ?_, fun _ =>
      mem_append_right _ (mem_singleton_self _)⟩
    rw [linked_name, hname, hrecord] at hb
    cases hb
    exact ⟨hdeclared, fun back hback => mem_append_left _ hback⟩
  · cases hlinks : linkTargets t o source [reference] with
    | error fault =>
      rw [hlinks] at h
      cases h
    | ok links =>
      rw [hlinks] at h
      cases h
      obtain ⟨l, rfl, hl, hfrom, hcover⟩ := linkTargets_eq_ok ho.listed hlinks
      obtain ⟨e, he, hn⟩ := hcover reference (mem_singleton_self _)
      refine ⟨(seq, { record with references := record.references ++ [reference] }) :: l, rfl,
        fun e he => ?_, e, mem_cons_of_mem _ he, hn⟩
      rcases mem_cons.1 he with rfl | he
      · refine ⟨ho.alikeWrite hseq hrecord ⟨rfl, rfl, rfl⟩, fun b hb => ?_, fun heq =>
          absurd (heq.symm.trans hname) hcol⟩
        rw [hname, hrecord] at hb
        cases hb
        exact ⟨hdeclared, fun back hback => hback⟩
      · obtain ⟨hnamed, b, hb, heq⟩ := hl e he
        have hlinked : e.2.references = b.references ∧ e.2.referencedBy = b.referencedBy ++
            ([reference].filter fun r => r.collection = e.2.name).map
              (ReferenceConstraint.back source) := by
          constructor <;> conv_lhs => rw [heq]
          · rfl
          · rfl
        refine ⟨⟨hnamed, b, hb, heq ▸ alike_linked _ _ b⟩, fun b' hb' => ?_, fun hcol => ?_⟩
        · rw [hb] at hb'
          cases hb'
          rw [hlinked.1, hlinked.2]
          exact ⟨fun r hr => .inl hr, fun back hback => mem_append_left _ hback⟩
        · rw [hlinked.2]
          refine mem_append_right _ (List.mem_map.2 ⟨reference, mem_filter.2
            ⟨mem_singleton_self _, by simpa using hcol.symm⟩, rfl⟩)

lemma addReference_recordsOnly (ho : Kept o) (source : Utf16) (reference : ReferenceConstraint) :
    RecordsOnly bound o (addReference t o source reference).2 ∧
      SameRecords o (addReference t o source reference).2 := by
  unfold addReference
  split
  · exact recordsOnly_refl ho
  · exact recordsOnly_refl ho
  · split
    next seq record hseq hrecord =>
      split_ifs
      · exact recordsOnly_refl ho
      · split
        · exact recordsOnly_refl ho
        next _ writes hwrites =>
          obtain ⟨l, rfl, hl, -⟩ := addWrites_eq_ok ho hseq hrecord hwrites
          have halike := fun e he => (hl e he).1
          obtain ⟨hr, hsame⟩ := RecordsOnly.puts_alike bound ho halike
          dsimp only
          split
          · exact ⟨hr, hsame⟩
          · obtain ⟨hr', hsame'⟩ := unlinkReference_recordsOnly (t := t) hr.kept
              source _
            exact ⟨hr.trans hr', hsame.trans hsame'⟩
    next => exact recordsOnly_refl ho

end

/-! ## Taking objects off -/

section

variable {o : Objects Record} {t : TenantId}

lemma Kept.retract (ho : Kept o) (seq : Seq) : Kept (o.write (.retract seq)) :=
  ⟨ho.named.retract seq, fun s held hs => ho.bounded s held (Objects.held_of_retract hs),
    fun s held hs => ho.shapes s held (Objects.held_of_retract hs)⟩

lemma sameDocuments_retract {seq : Seq} {held : Held Record}
    (hheld : o.held.get seq = some held) (hid : held.identity = some i)
    (hi : ∀ t c, i.ns ≠ documentNs t c) : SameDocuments o (o.write (.retract seq)) := by
  have hnone : ∀ t, docAt t o seq = none := by
    intro t
    cases hd : docAt t o seq with
    | none => rfl
    | some d =>
      have hsame := hid.symm.trans (identity_of_docAt hd hheld)
      exact absurd (by rw [Option.some.inj hsame]) (hi t d.collection)
  have hget : ∀ q, (o.write (.retract seq)).held.get q =
      if q = seq then none else o.held.get q := by
    intro q
    rw [Objects.held_retract, OrderedMap.get_erase]
  constructor
  · intro t q
    by_cases hq : q = seq
    · rw [hq, hnone]
      unfold docAt
      rw [hget, if_pos rfl]
      rfl
    · unfold docAt
      rw [hget, if_neg hq]
  · intro t q d hd
    rw [hget, if_neg]
    rintro rfl
    rw [hnone] at hd
    cases hd

lemma unmarkTenant_recordsOnly (bound : Seq) (ho : Kept o) : RecordsOnly bound o (unmarkTenant t o) ∧
      ∀ t' n, loadCollection t' (unmarkTenant t o) n = loadCollection t' o n := by
  unfold unmarkTenant
  split_ifs
  · cases hmarker : o.lookup TENANT_NAMESPACE t with
    | none => exact ⟨RecordsOnly.refl ho, fun _ _ => rfl⟩
    | some seq =>
      obtain ⟨held, hheld, hid⟩ := (ho.named _ _).1 hmarker
      have hnot : ∀ t' n, o.named ⟨collectionNs t', n⟩ ≠ some seq := by
        intro t' n hseq
        exact collectionNs_ne_tenantNs (ObjectIdentity.mk.inj (ho.named.inj hseq hmarker)).1
      dsimp only
      rw [Objects.commit_cons, Objects.commit_nil]
      refine ⟨⟨ho.retract seq, sameDocuments_retract hheld hid fun _ _ => tenantNs_ne,
        by rw [lastSeq_write], fun q _ hnone => Objects.free_retract hnone, fun t' n q hq => ?_⟩, ?_⟩
      · rw [ho.named.named_retract, if_neg (hnot t' n)]
        exact hq
      · intro t' n
        rw [loadCollection_retract ho.named, if_neg (hnot t' n)]
  · exact ⟨RecordsOnly.refl ho, fun _ _ => rfl⟩

/-- What taking a collection's references off writes: records alike, with fewer references, and with
every listing but its own. -/
theorem unlinkReferences_writes (ho : Kept o) (source : Utf16)
    (references : List ReferenceConstraint) : ∃ l : List (Seq × StoredCollection),
      references.flatMap (fun reference => unlinkReference t o source reference.name) =
        l.map (fun e => collectionPut t e.1 e.2) ∧ ∀ e ∈ l, AlikeWrite t o e ∧
        ∀ b, loadCollection t o e.2.name = some b → (∀ r ∈ e.2.references, r ∈ b.references) ∧
          ∀ back ∈ b.referencedBy, back.collection ≠ source → back ∈ e.2.referencedBy := by
  induction references with
  | nil => exact ⟨[], rfl, by simp⟩
  | cons reference references ih =>
    obtain ⟨l, hl, hwrites⟩ := ih
    obtain ⟨l', hl', hwrites', -⟩ := unlinkReference_writes (t := t) ho source reference.name
    refine ⟨l' ++ l, by rw [flatMap_cons, hl, hl', map_append], fun e he => ?_⟩
    rcases mem_append.1 he with he | he
    · obtain ⟨halike, hrecorded, -⟩ := hwrites' e he
      refine ⟨halike, fun b hb => ⟨(hrecorded b hb).1, fun back hback hne =>
        (hrecorded b hb).2 back hback ?_⟩⟩
      rintro rfl
      exact hne rfl
    · exact hwrites e he

lemma dropWrites_eq (ho : Kept o) (c : StoredCollection) : ∃ o₁, RecordsOnly o.lastSeq o o₁ ∧
    SameRecords o o₁ ∧ (o.commit (dropWrites t o c) = o₁ ∧ o.named ⟨collectionNs t, c.name⟩ = none ∨
      ∃ seq, o.named ⟨collectionNs t, c.name⟩ = some seq ∧
        o.commit (dropWrites t o c) = o₁.write (.retract seq)) := by
  obtain ⟨l, hl, hwrites⟩ := unlinkReferences_writes (t := t) ho c.name
    (c.references.filter fun reference => reference.collection ≠ c.name)
  obtain ⟨hr, hsame⟩ := RecordsOnly.puts_alike o.lastSeq ho fun e he => (hwrites e he).1
  refine ⟨_, hr, hsame, ?_⟩
  unfold dropWrites
  rw [Objects.commit_append, hl]
  cases hseq : o.lookup (collectionNs t) c.name with
  | none => exact .inl ⟨rfl, hseq⟩
  | some seq => exact .inr ⟨seq, hseq, rfl⟩

end

lemma recordSettings_recordsOnly (ho : Kept o)
    {seq : Seq} (hseq : o.named ⟨collectionNs t, n⟩ = some seq) (settings : StoredCollection → Settings) :
    RecordsOnly o.lastSeq o (recordSettings t o seq n settings) ∧
      SameRecords o (recordSettings t o seq n settings) := by
  unfold recordSettings
  split
  · exact recordsOnly_refl ho
  next c hc =>
    have hname := (ho.name_of_load hc).1
    have hwrite : AlikeWrite t o (seq, (settings c).on c) := by
      refine ⟨?_, c, ?_, alike_on _ c⟩
      · rw [← hseq, ← hname]
        rfl
      · rw [← hc, ← hname]
        rfl
    exact RecordsOnly.puts_alike _ (l := [(seq, (settings c).on c)]) ho fun e he => by
      rw [mem_singleton.1 he]
      exact hwrite

/-! ## Finding a collection's documents -/

variable {q : Seq}

lemma tenant_of_docAt {t' : TenantId} (ht : TenantOk t)
    (ht' : TenantOk t') {d d' : Document} (hd : docAt t o q = some d)
    (hd' : docAt t' o q = some d') : t = t' := by
  obtain ⟨held, hheld, -, hid⟩ := docAt_eq_some.1 hd
  have hsame := hid.symm.trans (identity_of_docAt hd' hheld)
  exact (documentNs_inj ht ht' (ObjectIdentity.mk.inj (Option.some.inj hsame)).1).1

/-- What is found in the column of all documents under a name is a document of the collection of that
name, or a collection's record. -/
theorem Kept.docAt_of_marked (ho : Kept o) {c : Utf16}
    (hq : (Query.equals (collectionColumn t) (.string c)).Satisfies o.manifests q) :
    (∃ d, docAt t o q = some d ∧ d.collection = c) ∨ c = COLLECTION_MARKER ∧ readDocument o q = none := by
  obtain ⟨man, hman, v, hmem, hv⟩ := hq
  obtain ⟨h, hheld, rfl⟩ := Option.map_eq_some_iff.1 hman
  subst hv
  cases ho.shapes q h hheld with
  | collection t' c' body _ _ _ columns =>
    refine .inr ⟨OrderedScalar.string.inj (columns _ hmem).2, ?_⟩
    unfold readDocument Objects.read
    rw [hheld, Option.map_some, body]
  | document t' d tenant body identity _ _ columns =>
    left
    rcases columns _ hmem with heq | ⟨path, heq⟩ | ⟨name, salt, bytes, heq⟩
    · obtain ⟨hcolumn, hvalue⟩ := Prod.mk.inj heq
      cases hvalue
      have htenant : t = t' := append_cancel_left hcolumn
      subst htenant
      exact ⟨d, docAt_eq_some.2 ⟨h, hheld, body, identity⟩, rfl⟩
    · exact absurd heq.symm (columnFor_ne_collectionColumn tenant)
    · exact absurd (Prod.mk.inj heq).1.symm (indexColumnFor_ne_collectionColumn tenant)
  | other i _ _ _ columns =>
    refine absurd ?_ (columns _ hmem)
    simp [collectionColumn, utf16, SLASH]

lemma Kept.satisfies_marked (ho : Kept o) (ht : TenantOk t)
    {d : Document} (hd : docAt t o q = some d) :
    (Query.equals (collectionColumn t) (.string d.collection)).Satisfies o.manifests q := by
  obtain ⟨h, hheld, hbody, hid⟩ := docAt_eq_some.1 hd
  refine ⟨h.manifest, by rw [Objects.manifests, hheld]; rfl, .string d.collection, ?_, rfl⟩
  cases ho.shapes q h hheld with
  | collection t' c' body _ _ _ _ =>
    rw [hbody] at body
    cases body
  | document t' d' tenant body identity _ marked _ =>
    rw [hbody] at body
    cases body
    rw [hid] at identity
    obtain ⟨rfl, -⟩ := documentNs_inj ht tenant (ObjectIdentity.mk.inj (Option.some.inj identity)).1
    exact marked
  | other i _ body _ _ => exact absurd hbody (body.2 d)

lemma mem_documentSeqs (ho : Kept o) (ht : TenantOk t)
    {c : Utf16} (hc : isName c = true) :
    q ∈ documentSeqs t o c ↔ ∃ d, docAt t o q = some d ∧ d.collection = c := by
  unfold documentSeqs
  rw [Objects.mem_resolve]
  constructor
  · rintro ⟨-, hq⟩
    refine (ho.docAt_of_marked hq).resolve_right ?_
    rintro ⟨rfl, -⟩
    exact absurd hc (by decide)
  · rintro ⟨d, hd, rfl⟩
    obtain ⟨h, hheld, -⟩ := docAt_eq_some.1 hd
    exact ⟨⟨h, hheld⟩, ho.satisfies_marked ht hd⟩

/-! ## Dropping a collection -/

section

variable {host : Host} {t : TenantId} {now name : Utf16} {P : Objects Record → Prop}

lemma seqsOf_eq_nil {ops : List DocumentWrite} (h : ∀ op ∈ ops, op.inserts = none) : seqsOf ops = [] := by
  unfold seqsOf
  rw [filterMap_eq_nil_iff]
  intro op hop
  rw [h op hop]
  rfl

variable {o : Objects Record}

variable (host now) in
/-- A collection is emptied a page at a time, by batches that insert nothing; at the end nothing is
left of it. -/
theorem emptied_induct (ht : TenantOk t) (hname : isName name = true) (hkept : ∀ {o}, P o → Kept o)
    (hbatch : ∀ {o : Objects Record} {ops : List DocumentWrite} {s : Staged},
      (∀ op ∈ ops, op.inserts = none) →
      ops.foldlM (applyWrite host t o now) {} = .ok s → P o → P (o.commit s.writes)) (h : P o) (fuel : ℕ) :
    P (Db.emptied host t now name fuel o).2 ∧ ((Db.emptied host t now name fuel o).1 = none →
      ∀ q d, docAt t (Db.emptied host t now name fuel o).2 q = some d → d.collection ≠ name) := by
  induction fuel generalizing o with
  | zero => exact ⟨h, fun hnone => by cases hnone⟩
  | succ fuel ih =>
    unfold Db.emptied
    split
    next hpage =>
      refine ⟨h, fun _ q d hd hcol => ?_⟩
      -- a document that is left would be on the page
      have hmem := (mem_documentSeqs (hkept h) ht hname).2 ⟨d, hd, hcol⟩
      have hdoc : d ∈ (documentSeqs t o name).filterMap (readDocument o) :=
        mem_filterMap.2 ⟨q, hmem, readDocument_of_docAt hd⟩
      unfold dropPage at hpage
      rcases take_eq_nil_iff.1 hpage with hzero | hnil
      · cases hzero
      · rw [hnil] at hdoc
        exact absurd hdoc not_mem_nil
    next doc rest hpage =>
      split
      · exact ⟨h, fun hnone => by cases hnone⟩
      next s hs =>
        have hops : ((doc :: rest).map fun d => DocumentWrite.delete name d.id none []).foldlM
            (applyWrite host t o now) {} = .ok s := by
          rw [foldlM_map]
          exact hs
        refine ih (hbatch (fun op hop => ?_) hops h)
        obtain ⟨d, -, rfl⟩ := List.mem_map.1 hop
        rfl

/-- A collection is dropped by batches that insert nothing, by writing records alike, and by taking
its own record off once none of its documents are left. -/
theorem dropCollection_induct (ht : TenantOk t) (hkept : ∀ {o}, P o → Kept o)
    (hbatch : ∀ {o : Objects Record} {ops : List DocumentWrite} {s : Staged},
      (∀ op ∈ ops, op.inserts = none) →
      ops.foldlM (applyWrite host t o now) {} = .ok s → P o → P (o.commit s.writes))
    (halike : ∀ {o o'}, RecordsOnly o.lastSeq o o' ∧ SameRecords o o' → P o → P o')
    (hretract : ∀ {o seq}, o.named ⟨collectionNs t, name⟩ = some seq →
      (∀ q d, docAt t o q = some d → d.collection ≠ name) → P o → P (o.write (.retract seq)))
    (h : P o) : P (Db.dropCollection host t o now name).2 := by
  unfold Db.dropCollection
  split
  · exact h
  · exact h
  next c _ hc =>
    split
    · exact h
    · obtain ⟨hname, hisName⟩ := (hkept h).name_of_load hc
      obtain ⟨hempty, hnone⟩ := emptied_induct host now ht hisName hkept hbatch h (o.held.entries.length + 1)
      split
      next fault o' hemptied =>
        rw [hemptied] at hempty
        exact hempty
      next o' hemptied =>
        rw [hemptied] at hempty hnone
        obtain ⟨o₁, hr, hsame, hdrop⟩ := dropWrites_eq (t := t) (hkept hempty) c
        have h₁ := halike ⟨hr, hsame⟩ hempty
        have hdropped : P (o'.commit (dropWrites t o' c)) := by
          rcases hdrop with ⟨heq, -⟩ | ⟨seq, hseq, heq⟩
          · rw [heq]
            exact h₁
          · rw [heq]
            refine hretract (hr.names _ _ _ (hname ▸ hseq)) (fun q d hd => ?_) h₁
            exact hnone rfl q d ((hr.documents.docAt t q).symm.trans hd)
        obtain ⟨hr', hload⟩ := unmarkTenant_recordsOnly (t := t) _ (hkept hdropped)
        exact halike ⟨hr', SameRecords.of_eq hload⟩ hdropped

end

end Zelavis.Db
