import Zelavis.Db.Batches
import Zelavis.Db.Creations

/-!
# Collections and the marker, over every run
-/

namespace Zelavis.Db

open Lib List Option

/-! ## What is posted -/

/-- An object posts what it is found by. -/
structure PostedHeld (t : TenantId) (h : Held Record) : Prop where
  collection : ∀ c, h.body = .collection c → h.identity = some ⟨collectionNs t, c.name⟩ ∧
    (collectionColumn t, .string COLLECTION_MARKER) ∈ h.manifest.columns
  marker : h.body = .tenant t ↔ h.identity = some ⟨TENANT_NAMESPACE, t⟩
  column : h.body = .tenant t → (TENANT_COLUMN, .string TENANT_MARKER) ∈ h.manifest.columns

def Posted (t : TenantId) (o : Objects Record) : Prop :=
  ∀ q h, o.held.get q = some h → PostedHeld t h

variable {seq : Seq} {s : Staged}

section

variable {t : TenantId} {o o' : Objects Record}

section

variable (ho : Posted t o)
include ho

lemma Posted.of_held
    (h : ∀ q held, o'.held.get q = some held → o.held.get q = some held ∨ PostedHeld t held) :
    Posted t o' := by
  intro q held hheld
  rcases h q held hheld with hold | hnew
  · exact ho q held hold
  · exact hnew

lemma Posted.put {body : Record} {m : IndexManifest}
    {i : Option ObjectIdentity} (h : ∀ version, PostedHeld t ⟨i, version, body, m⟩) :
    Posted t (o.write (.put seq body m i)) := by
  refine ho.of_held fun q held hheld => ?_
  obtain ⟨-, rfl⟩ | hheld := Objects.held_of_put hheld
  · exact .inr (h _)
  · exact .inl hheld

lemma Posted.retract (seq : Seq) : Posted t (o.write (.retract seq)) :=
  ho.of_held fun _ _ hheld => .inl (Objects.held_of_retract hheld)

lemma Posted.collectionPut (seq : Seq) (c : StoredCollection) :
    Posted t (o.write (Db.collectionPut t seq c)) := by
  refine ho.put fun version => ⟨fun c' hc' => ?_, ⟨fun hbody => ?_, fun hid => ?_⟩, fun hbody => ?_⟩
  · cases hc'
    exact ⟨rfl, mem_singleton.2 rfl⟩
  · cases hbody
  · exact absurd (ObjectIdentity.mk.inj (some.inj hid)).1 collectionNs_ne_tenantNs
  · cases hbody

lemma Posted.puts (l : List (Seq × StoredCollection)) :
    Posted t (o.commit (l.map fun e => Db.collectionPut t e.1 e.2)) := by
  induction l generalizing o with
  | nil => exact ho
  | cons e l ih => exact ih (ho.collectionPut e.1 e.2)

lemma Posted.markerPut (seq : Seq) : Posted t (o.write (Db.markerPut t seq)) := by
  refine ho.put fun version => ⟨fun c hc => ?_, ⟨fun _ => rfl, fun _ => rfl⟩,
    fun _ => mem_singleton.2 rfl⟩
  cases hc

lemma Posted.batch {host : Host} (hw : Within host t o [] [] s) :
    Posted t (o.commit s.writes) := by
  refine ho.of_held fun q held hheld => ?_
  rcases hw.held_cases q with heq | ⟨-, hnew | ⟨held', d, edges, hheld', hbody, hid, -⟩⟩
  · exact .inl (heq ▸ hheld)
  · rw [hnew] at hheld
    cases hheld
  · rw [hheld] at hheld'
    cases hheld'
    refine .inr ⟨fun c hc => ?_, ⟨fun ht => ?_, fun ht => ?_⟩, fun ht => ?_⟩
    · rw [hbody] at hc
      cases hc
    · rw [hbody] at ht
      cases ht
    · rw [hid] at ht
      exact absurd (ObjectIdentity.mk.inj (some.inj ht)).1.symm tenantNs_ne
    · rw [hbody] at ht
      cases ht

end

/-! ## The listing and the marker -/

lemma mem_collectionSeqs (hk : Kept o) (ho : Posted t o) {q : Seq} :
    q ∈ collectionSeqs t o ↔ ∃ c, o.read q = some (.collection c) ∧
      o.named ⟨collectionNs t, c.name⟩ = some q ∧ loadCollection t o c.name = some c := by
  unfold collectionSeqs
  rw [Objects.mem_resolve]
  constructor
  · rintro ⟨⟨h, hheld⟩, hq⟩
    obtain ⟨man, hman, v, hmem, hv⟩ := hq
    subst hv
    have hman : some h.manifest = some man := by
      rw [← hman, Objects.manifests, hheld]
      rfl
    cases hman
    cases hk.shapes q h hheld with
    | collection t' c body identity _ _ _ =>
      obtain ⟨hid, -⟩ := (ho q h hheld).collection c body
      refine ⟨c, ?_, (hk.named _ _).2 ⟨h, hheld, hid⟩, loadCollection_eq_some.2
        ⟨h, (hk.named.under_of_held hheld hid).2, body⟩⟩
      rw [Objects.read, hheld, map_some, body]
    | document t' d tenant body identity name _ columns =>
      exfalso
      rcases columns _ hmem with heq | ⟨path, heq⟩ | ⟨iname, salt, bytes, heq⟩
      · rw [← OrderedScalar.string.inj (Prod.mk.inj heq).2] at name
        exact absurd name (by decide)
      · exact columnFor_ne_collectionColumn tenant heq.symm
      · exact indexColumnFor_ne_collectionColumn tenant (Prod.mk.inj heq).1.symm
    | other i _ _ _ columns =>
      refine absurd ?_ (columns _ hmem)
      simp [collectionColumn, utf16, SLASH]
  · rintro ⟨c, hread, hnamed, -⟩
    obtain ⟨h, hheld, hbody⟩ := map_eq_some_iff.1 hread
    refine ⟨⟨h, hheld⟩, h.manifest, ?_, .string COLLECTION_MARKER, ((ho q h hheld).collection c hbody).2, rfl⟩
    rw [Objects.manifests, hheld]
    rfl

lemma exists_mapM_asCollection {seqs : List Seq} (hnodup : seqs.Nodup)
    (h : ∀ q ∈ seqs, ∃ c, o.read q = some (.collection c) ∧ o.named ⟨collectionNs t, c.name⟩ = some q) :
    ∃ out, (seqs.filterMap o.read).mapM asCollection = some out ∧ (out.map StoredCollection.name).Nodup ∧
      ∀ c, c ∈ out ↔ ∃ q ∈ seqs, o.read q = some (.collection c) := by
  induction seqs with
  | nil => exact ⟨[], rfl, nodup_nil, by simp⟩
  | cons q seqs ih =>
    obtain ⟨hq, hseqs⟩ := nodup_cons.1 hnodup
    obtain ⟨out, hout, hnames, hmem⟩ := ih hseqs fun q' hq' => h q' (mem_cons_of_mem _ hq')
    obtain ⟨c, hread, hnamed⟩ := h q mem_cons_self
    refine ⟨c :: out, ?_, ?_, fun c' => ?_⟩
    · rw [filterMap_cons, hread]
      rw [mapM_cons, hout]
      rfl
    · rw [map_cons, nodup_cons]
      refine ⟨fun hmem' => ?_, hnames⟩
      obtain ⟨c', hc', hname⟩ := List.mem_map.1 hmem'
      obtain ⟨q', hq', hread'⟩ := (hmem c').1 hc'
      obtain ⟨c'', hread'', hnamed'⟩ := h q' (mem_cons_of_mem _ hq')
      rw [hread'] at hread''
      cases hread''
      rw [hname, hnamed] at hnamed'
      exact hq (some.inj hnamed' ▸ hq')
    · rw [mem_cons, hmem]
      constructor
      · rintro (rfl | ⟨q', hq', hread'⟩)
        · exact ⟨q, mem_cons_self, hread⟩
        · exact ⟨q', mem_cons_of_mem _ hq', hread'⟩
      · rintro ⟨q', hq', hread'⟩
        rcases mem_cons.1 hq' with rfl | hq'
        · rw [hread] at hread'
          cases hread'
          exact .inl rfl
        · exact .inr ⟨q', hq', hread'⟩

lemma exists_listCollections (hk : Kept o) (ho : Posted t o)
    (localeCompare : Utf16 → Utf16 → ℤ) : ∃ out, listCollections t o localeCompare = some out ∧
      (out.map StoredCollection.name).Nodup ∧
      ∀ c, c ∈ out ↔ ∃ n b, loadCollection t o n = some b ∧ c = publicCollection b := by
  have hseqs : ∀ q ∈ collectionSeqs t o, ∃ c, o.read q = some (.collection c) ∧
      o.named ⟨collectionNs t, c.name⟩ = some q := by
    intro q hq
    obtain ⟨c, hread, hnamed, -⟩ := (mem_collectionSeqs hk ho).1 hq
    exact ⟨c, hread, hnamed⟩
  have hnodup : (collectionSeqs t o).Nodup := (o.resolve_ascending _).nodup
  obtain ⟨out, hout, hnames, hmem⟩ := exists_mapM_asCollection hnodup hseqs
  unfold listCollections
  rw [hout]
  refine ⟨_, rfl, ?_, fun c => ?_⟩
  · refine (((perm_insertionSort _ _).map StoredCollection.name).nodup_iff).2 ?_
    rw [List.map_map]
    exact hnames
  · rw [mem_insertionSort, List.mem_map]
    constructor
    · rintro ⟨b, hb, rfl⟩
      obtain ⟨q, hq, hread⟩ := (hmem b).1 hb
      obtain ⟨b', hread', -, hload⟩ := (mem_collectionSeqs hk ho).1 hq
      rw [hread] at hread'
      cases hread'
      exact ⟨b.name, b, hload, rfl⟩
    · rintro ⟨n, b, hload, rfl⟩
      obtain ⟨h, hunder, hbody⟩ := loadCollection_eq_some.1 hload
      obtain ⟨q, hq, hheld⟩ := bind_eq_some_iff.1 hunder
      have hread : o.read q = some (.collection b) := by
        rw [Objects.read, hheld, map_some, hbody]
      have hname := (hk.name_of_load hload).1
      refine ⟨b, (hmem b).2 ⟨q, (mem_collectionSeqs hk ho).2 ⟨b, hread, ?_, ?_⟩, hread⟩, rfl⟩
      · rw [hname]
        exact hq
      · rw [hname]
        exact hload

lemma marked_iff (hk : Kept o) (ho : Posted t o) :
    Marked t o ↔ ∃ m, o.named ⟨TENANT_NAMESPACE, t⟩ = some m := by
  constructor
  · rintro ⟨q, -, hread⟩
    obtain ⟨h, hheld, hbody⟩ := map_eq_some_iff.1 hread
    exact ⟨q, (hk.named _ _).2 ⟨h, hheld, (ho q h hheld).marker.1 hbody⟩⟩
  · rintro ⟨m, hm⟩
    obtain ⟨h, hheld, hid⟩ := (hk.named _ _).1 hm
    have hbody := (ho m h hheld).marker.2 hid
    refine ⟨m, ?_, by rw [Objects.read, hheld, map_some, hbody]⟩
    rw [Objects.mem_resolve]
    refine ⟨⟨h, hheld⟩, h.manifest, ?_, .string TENANT_MARKER, (ho m h hheld).column hbody, rfl⟩
    rw [Objects.manifests, hheld]
    rfl

end

/-! ## The transactions -/

variable {c : StoredCollection}
  {l : List (Seq × StoredCollection)} {ws : List (Objects.Write Record)} {n : Utf16}

section

variable {t : TenantId} {o : Objects Record}

/-- What a transaction of a call leaves alone: what held nothing and is not written goes on holding
nothing. -/
structure Leaves (t : TenantId) (written : List Seq) (o o' : Objects Record) : Prop where
  kept : Kept o'
  posted : Posted t o'
  later : o.lastSeq ≤ o'.lastSeq
  free : ∀ q, o.held.get q = none → q ∉ written → o'.held.get q = none

lemma Leaves.puts (ho : Kept o) (hp : Posted t o)
    (hl : ∀ e ∈ l, o.named ⟨collectionNs t, e.2.name⟩ = some e.1)
    (hrecords : ∀ e ∈ l, isName e.2.name = true ∧ IndexesOk t e.2) :
    Leaves t [] o (o.commit (l.map fun e => collectionPut t e.1 e.2)) := by
  have hputs : ∀ bound, RecordsOnly bound o (o.commit (l.map fun e => collectionPut t e.1 e.2)) :=
    fun _ => RecordsOnly.puts ho hl hrecords
  exact ⟨(hputs 0).kept, hp.puts l, (hputs 0).later, fun q hnone _ => (hputs q).free q le_rfl hnone⟩

lemma created_leaves (ho : Kept o) (hp : Posted t o)
    (hseq : seq ≤ o.lastSeq) (hheld : o.held.get seq = none)
    (hfresh : loadCollection t o c.name = none) (hname : isName c.name = true)
    (hindexes : IndexesOk t c) (h : createWrites t o seq c = .ok ws) : Leaves t [seq] o (o.commit ws) ∧
      (o.commit ws).named ⟨TENANT_NAMESPACE, t⟩ = o.named ⟨TENANT_NAMESPACE, t⟩ ∧
      ∀ n, (loadCollection t (o.commit ws) n).map bare =
        if c.name = n then some (bare c) else (loadCollection t o n).map bare := by
  obtain ⟨l, rfl, hl, hcover⟩ := createWrites_eq_ok ho.listed h
  have hnone : o.named ⟨collectionNs t, c.name⟩ = none := by
    cases hn : o.named ⟨collectionNs t, c.name⟩ with
    | none => rfl
    | some s =>
      obtain ⟨b, hb⟩ := ho.load_of_named hn
      rw [hfresh] at hb
      cases hb
  have htakes : o.Takes seq ⟨collectionNs t, c.name⟩ := ho.named.takes_of_fresh hheld hnone
  obtain ⟨hcatalog, -⟩ := created_catalog ho.listed htakes hl hcover
  -- the new record
  have hput := ho.collectionPut (t := t)
    (c := linked c.name (c.references.filter fun r => r.collection = c.name) c) htakes hseq hname
    ⟨hindexes.named, hindexes.nodup, hindexes.column⟩
  -- then its targets
  have hnamed : ∀ e ∈ l, (o.write (collectionPut t seq (linked c.name
      (c.references.filter fun r => r.collection = c.name) c))).named
        ⟨collectionNs t, e.2.name⟩ = some e.1 := by
    intro e he
    rw [collectionPut, linked_name, Objects.named_put htakes, if_neg]
    · exact (hl e he).2.1
    · intro hid
      exact (hl e he).1 (ObjectIdentity.mk.inj hid).2
  have hputs := Leaves.puts hput (hp.collectionPut seq _) hnamed fun e he => by
    obtain ⟨-, -, b, hb, heq⟩ := hl e he
    have hb' := ho.indexesOk hb
    have hbname := ho.name_of_load hb
    rw [heq]
    exact ⟨by rw [linked_name, hbname.1]; exact hbname.2, ⟨hb'.named, hb'.nodup, hb'.column⟩⟩
  refine ⟨⟨hputs.kept, hputs.posted, by rw [lastSeq_commit], fun q hq hne => ?_⟩, ?_, fun n => ?_⟩
  · refine hputs.free q ?_ not_mem_nil
    rw [collectionPut, Objects.held_put, OrderedMap.get_insert, if_neg]
    · exact hq
    · exact fun heq => hne (mem_singleton.2 heq)
  · rw [Objects.commit_cons, (puts_catalog hput.named hnamed).2.1, collectionPut, linked_name,
      Objects.named_put htakes, if_neg]
    intro hid
    exact collectionNs_ne_tenantNs (ObjectIdentity.mk.inj hid).1.symm
  · refine (congrArg (Option.map bare) (hcatalog n)).trans ?_
    unfold Catalog.created
    by_cases hn : n = c.name
    · rw [if_pos hn, if_pos hn.symm]
      rfl
    · rw [if_neg hn, if_neg (Ne.symm hn), Option.map_map]
      rfl

lemma unlinkReference_bare (ho : Kept o) (source name : Utf16) :
    ∀ e : Seq × StoredCollection, collectionPut t e.1 e.2 ∈ unlinkReference t o source name →
      e.2.name ≠ source → ∃ b, loadCollection t o e.2.name = some b ∧ bare e.2 = bare b := by
  intro e he hne
  unfold unlinkReference at he
  split at he
  next seq record hseq hrecord =>
    have hname := (ho.name_of_load hrecord).1
    have hown : ∀ seq' c', collectionPut t e.1 e.2 = collectionPut t seq' c' → e.2 = c' := by
      intro seq' c' heq
      exact Record.collection.inj (Objects.Write.put.inj heq).2.1
    split at he
    · exact absurd he not_mem_nil
    next reference _ =>
      split_ifs at he with hcol
      · have heq := hown _ _ (mem_singleton.1 he)
        rw [heq, unlinked_name, withoutReference_name, hname] at hne
        exact absurd rfl hne
      · rcases mem_cons.1 he with he | he
        · have heq := hown _ _ he
          rw [heq, withoutReference_name, hname] at hne
          exact absurd rfl hne
        · split at he
          next target b htarget hb =>
            have heq := hown _ _ (mem_singleton.1 he)
            have hbname := (ho.name_of_load hb).1
            rw [heq]
            exact ⟨b, by rw [unlinked_name, hbname]; exact hb, rfl⟩
          next => exact absurd he not_mem_nil
  next => exact absurd he not_mem_nil

lemma foldl_changed_bare {K : Catalog} (h : ∀ e ∈ l, e.2.name = n → ∃ b, K n = some b ∧ bare e.2 = bare b) :
    (l.foldl (fun K e => changed K e.2.name (some e.2)) K n).map bare = (K n).map bare := by
  induction l generalizing K with
  | nil => rfl
  | cons e l ih =>
    -- the first record, then those after it
    have hfirst : (changed K e.2.name (some e.2) n).map bare = (K n).map bare := by
      unfold changed
      split_ifs with hen
      · obtain ⟨b, hb, heq⟩ := h e mem_cons_self hen.symm
        rw [hb, map_some, map_some, heq]
      · rfl
    rw [foldl_cons, ih, hfirst]
    intro e' he' hname
    obtain ⟨b, hb, heq⟩ := h e' (mem_cons_of_mem _ he') hname
    rw [hb, map_some] at hfirst
    obtain ⟨b', hb', heq'⟩ := map_eq_some_iff.1 hfirst
    exact ⟨b', hb', heq.trans heq'.symm⟩

lemma dropped_leaves (ho : Kept o) (hp : Posted t o) (c : StoredCollection) :
    Leaves t [] o (o.commit (dropWrites t o c)) ∧
      (o.commit (dropWrites t o c)).named ⟨TENANT_NAMESPACE, t⟩ = o.named ⟨TENANT_NAMESPACE, t⟩ ∧
      ∀ n, (loadCollection t (o.commit (dropWrites t o c)) n).map bare =
        if c.name = n then none else (loadCollection t o n).map bare := by
  obtain ⟨l, hl, hwrites⟩ := unlinkReferences_writes (t := t) ho c.name
    (c.references.filter fun reference => reference.collection ≠ c.name)
  have halike := fun e he => (hwrites e he).1
  have hnamed : ∀ e ∈ l, o.named ⟨collectionNs t, e.2.name⟩ = some e.1 := fun e he => (halike e he).1
  have hputs := Leaves.puts ho hp hnamed fun e he => by
    obtain ⟨-, b, hb, hb'⟩ := halike e he
    exact ⟨(ho.name_of_load hb).2, hb'.indexesOk (ho.indexesOk hb)⟩
  obtain ⟨-, hsame, hcatalog, -⟩ := puts_catalog (t := t) ho.named hnamed
  -- what is written under another name is bare what was there
  have hbare : ∀ n ≠ c.name, (loadCollection t
      (o.commit (l.map fun e => collectionPut t e.1 e.2)) n).map bare = (loadCollection t o n).map bare := by
    intro n hn
    rw [hcatalog n]
    have hfrom : ∀ e ∈ l, e.2.name = n → ∃ b, loadCollection t o n = some b ∧ bare e.2 = bare b := by
      rintro e he rfl
      have hmem : collectionPut t e.1 e.2 ∈ l.map fun e => collectionPut t e.1 e.2 :=
        List.mem_map_of_mem he
      rw [← hl] at hmem
      obtain ⟨reference, -, hwrite⟩ := mem_flatMap.1 hmem
      exact unlinkReference_bare ho c.name reference.name e hwrite hn
    exact foldl_changed_bare hfrom
  unfold dropWrites
  rw [Objects.commit_append, hl]
  cases hseq : o.lookup (collectionNs t) c.name with
  | none =>
    rw [map_none, toList_none, Objects.commit_nil]
    refine ⟨hputs, by rw [hsame], fun n => ?_⟩
    split_ifs with hn
    · subst hn
      cases hload : loadCollection t (o.commit (l.map fun e => collectionPut t e.1 e.2)) c.name with
      | none => rfl
      | some b =>
        obtain ⟨s, hs⟩ := exists_named_of_load hload
        rw [hsame] at hs
        have hseq : o.named ⟨collectionNs t, c.name⟩ = none := hseq
        rw [hseq] at hs
        cases hs
    · exact hbare n (Ne.symm hn)
  | some seq =>
    have hseq : o.named ⟨collectionNs t, c.name⟩ = some seq := hseq
    have hseq' := hsame ▸ hseq
    have hother : ∀ i : ObjectIdentity, i ≠ ⟨collectionNs t, c.name⟩ →
        (o.commit (l.map fun e => collectionPut t e.1 e.2)).named i ≠ some seq :=
      fun i hi hseq'' => hi (hputs.kept.named.inj hseq'' hseq')
    refine ⟨⟨hputs.kept.retract seq, hputs.posted.retract seq, hputs.later,
      fun q hq hne => Objects.free_retract (hputs.free q hq hne)⟩, ?_, fun n => ?_⟩
    · show ((o.commit (l.map fun e => collectionPut t e.1 e.2)).write (.retract seq)).named _ = _
      rw [hputs.kept.named.named_retract, if_neg, hsame]
      refine hother _ fun heq => ?_
      exact collectionNs_ne_tenantNs (ObjectIdentity.mk.inj heq).1.symm
    · show (loadCollection t
        ((o.commit (l.map fun e => collectionPut t e.1 e.2)).write (.retract seq)) n).map bare = _
      rw [loadCollection_retract hputs.kept.named]
      by_cases hn : c.name = n
      · subst hn
        rw [if_pos hseq', if_pos rfl]
        rfl
      · rw [if_neg hn, if_neg]
        · exact hbare n (Ne.symm hn)
        · exact hother _ fun heq => hn (ObjectIdentity.mk.inj heq).2.symm

end

/-! ## What happened -/

lemma standing_append (history : List CollectionEvent) (event : CollectionEvent) (n : Utf16) :
    standing (history ++ [event]) n = event.standing n (standing history n) := by
  unfold standing
  rw [foldl_append, foldl_cons, foldl_nil]

lemma dropped_mem_of_foldl {between : List CollectionEvent} {d : StoredCollection}
    (h : between.foldl (fun before event => CollectionEvent.standing n before event) (some d) = none) :
    CollectionEvent.dropped n ∈ between := by
  induction between generalizing d with
  | nil => cases h
  | cons event between ih =>
    rw [foldl_cons] at h
    cases event with
    | created c =>
      have hsome : ∃ d', CollectionEvent.standing n (some d) (.created c) = some d' := by
        unfold CollectionEvent.standing
        dsimp only
        split_ifs
        · exact ⟨c, rfl⟩
        · exact ⟨d, rfl⟩
      obtain ⟨d', hd'⟩ := hsome
      rw [hd'] at h
      exact mem_cons_of_mem _ (ih h)
    | dropped gone =>
      by_cases hgone : gone = n
      · rw [hgone]
        exact mem_cons_self
      · rw [CollectionEvent.standing, if_neg hgone] at h
        exact mem_cons_of_mem _ (ih h)

def CreatedOnce (history : List CollectionEvent) : Prop :=
  ∀ before between after c c', history = before ++ .created c :: between ++ .created c' :: after →
    c.name = c'.name → CollectionEvent.dropped c.name ∈ between

lemma CreatedOnce.append {history : List CollectionEvent} (h : CreatedOnce history)
    {event : CollectionEvent} (hevent : ∀ c, event = .created c → standing history c.name = none) :
    CreatedOnce (history ++ [event]) := by
  intro before between after c c' heq hname
  rcases eq_nil_or_concat' after with rfl | ⟨after, last, rfl⟩
  · obtain ⟨rfl, hlast⟩ := append_inj' heq rfl
    obtain rfl := (List.cons.inj hlast).1
    have hnone := hevent c' rfl
    unfold standing at hnone
    rw [foldl_append, foldl_cons, ← hname] at hnone
    refine dropped_mem_of_foldl (d := c) ?_
    rw [CollectionEvent.standing, if_pos rfl] at hnone
    exact hnone
  · rw [← cons_append, ← append_assoc] at heq
    obtain ⟨rfl, -⟩ := append_inj' heq rfl
    exact h before between after c c' rfl hname

/-! ## The invariant -/

def CallPhase.allocated : CallPhase → List Seq
  | .recording _ seq => [seq]
  | .marking seq => [seq]
  | _ => []

/-- A create that has written its record and has still to see to the marker. -/
def CallPhase.Marks : CallPhase → Prop
  | .recorded => True
  | .unmarked => True
  | .marking _ => True
  | _ => False

/-- A drop that has taken its record off and may still take this marker off. -/
def CallPhase.Unmarks (m : Seq) : CallPhase → Prop
  | .dropped => True
  | .leaving => True
  | .unmarking seq => seq = m
  | _ => False

def CollectionRequest.Named : CollectionRequest → Prop
  | .create _ _ input => isName input.name = true
  | .drop _ _ => True

/-- A name that is looked up is one, and a definition that is to be written can be. -/
def CallPhase.Ready (t : TenantId) (request : CollectionRequest) : CallPhase → Prop
  | .seeking => request.Named
  | .loading _ => request.Named
  | .numbering c => isName c.name = true ∧ IndexesOk t c
  | .recording c _ => isName c.name = true ∧ IndexesOk t c
  | _ => True

def Tenancy.allocated (w : Tenancy) : List Seq :=
  w.reserved ++ w.calls.flatMap fun call => call.phase.allocated

def HasCollection (t : TenantId) (o : Objects Record) : Prop := ∃ n c, loadCollection t o n = some c

/-- What makes a call's step harmless: a record is written only under a name that has none, the
marker only where there is none and there is a collection, and the marker is taken off only where
there is no collection. -/
def Tidy (t : TenantId) (w : Tenancy) (call : CollectionCall) : Prop :=
  match call.phase with
  | .recording c seq =>
    (∃ ws, createWrites t w.store seq c = .ok ws) → loadCollection t w.store c.name = none
  | .marking _ => w.store.lookup TENANT_NAMESPACE t = none ∧ HasCollection t w.store
  | .unmarking seq =>
    w.store.lookup TENANT_NAMESPACE t = some seq → ¬HasCollection t w.store
  | _ => True

/-- What holds of every state that a run of harmless steps leads to. -/
structure Tenancy.Sound (t : TenantId) (w : Tenancy) : Prop where
  kept : Kept w.store
  posted : Posted t w.store
  free : ∀ q ∈ w.allocated, q ≤ w.store.lastSeq ∧ w.store.held.get q = none
  nodup : w.allocated.Nodup
  ready : ∀ call ∈ w.calls, call.phase.Ready t call.request
  settled : ∀ call ∈ w.calls, ∀ m, call.phase = .unmarking m → m ≤ w.store.lastSeq ∧
    m ∉ w.allocated ∧ ∀ h, w.store.held.get m = some h → h.identity = some ⟨TENANT_NAMESPACE, t⟩
  stands : ∀ n, (loadCollection t w.store n).map bare = (standing w.history n).map bare
  once : CreatedOnce w.history
  marks : HasCollection t w.store → (∃ m, w.store.named ⟨TENANT_NAMESPACE, t⟩ = some m) ∨
    ∃ call ∈ w.calls, call.phase.Marks
  unmarks : ∀ m, w.store.named ⟨TENANT_NAMESPACE, t⟩ = some m → HasCollection t w.store ∨
    ∃ call ∈ w.calls, call.phase.Unmarks m

variable {phase : CallPhase} {request : CollectionRequest} {now : Utf16} {ops : List DocumentWrite}

section

variable {t : TenantId} {w : Tenancy} {before after : List CollectionCall} {call : CollectionCall}
  {o : Objects Record}

lemma Leaves.refl (ho : Kept o) (hp : Posted t o) : Leaves t [] o o :=
  ⟨ho, hp, le_rfl, fun _ h _ => h⟩

lemma Leaves.marker {written : List Seq} {o o' : Objects Record} (h : Leaves t written o o')
    (ho : Kept o) {m : Seq} (hw : m ∉ written)
    (hid : ∀ held, o.held.get m = some held → held.identity = some ⟨TENANT_NAMESPACE, t⟩)
    (hmarker : o.named ⟨TENANT_NAMESPACE, t⟩ = some m →
      o'.named ⟨TENANT_NAMESPACE, t⟩ = some m ∨ o'.held.get m = none) :
    ∀ held, o'.held.get m = some held → held.identity = some ⟨TENANT_NAMESPACE, t⟩ := by
  intro held hheld
  cases hold : o.held.get m with
  | none =>
    rw [h.free m hold hw] at hheld
    cases hheld
  | some held' =>
    rcases hmarker ((ho.named _ _).2 ⟨held', hold, hid held' hold⟩) with hnamed | hgone
    · exact h.kept.named.identity hnamed hheld
    · rw [hgone] at hheld
      cases hheld

lemma allocated_of_calls (hcalls : w.calls = before ++ call :: after) :
    w.allocated = (w.reserved ++ before.flatMap fun call => call.phase.allocated) ++
      (call.phase.allocated ++ after.flatMap fun call => call.phase.allocated) := by
  unfold Tenancy.allocated
  rw [hcalls, flatMap_append, flatMap_cons, append_assoc]

lemma others_of_calls (hcalls : w.calls = before ++ call :: after) {P : CallPhase → Prop}
    (h : ∃ other ∈ w.calls, P other.phase) : P call.phase ∨ ∃ other ∈ before ++ after, P other.phase := by
  obtain ⟨other, hother, hP⟩ := h
  rw [hcalls] at hother
  rcases mem_append.1 hother with hmem | hmem
  · exact .inr ⟨other, mem_append_left _ hmem, hP⟩
  · rcases mem_cons.1 hmem with rfl | hmem
    · exact .inl hP
    · exact .inr ⟨other, mem_append_right _ hmem, hP⟩

variable {host : Host}

namespace Tenancy.Sound

section

variable (h : w.Sound t)
include h

section

variable (hcalls : w.calls = before ++ call :: after)
include hcalls

/-- A step of a call that allocates nothing: what it writes under was allocated for it, and whoever
is to see to the marker still is. -/
theorem made (written : List Seq)
    {made : Objects Record × CallPhase × List CollectionEvent} (hleaves : Leaves t written w.store made.1)
    (hwritten : ∀ q ∈ written, q ∈ call.phase.allocated) (hnone : made.2.1.allocated = [])
    (hready : made.2.1.Ready t call.request) (hsettled : ∀ m, made.2.1 = .unmarking m → made.1 = w.store ∧
      w.store.named ⟨TENANT_NAMESPACE, t⟩ = some m)
    (hmarker : ∀ m, w.store.named ⟨TENANT_NAMESPACE, t⟩ = some m →
      made.1.named ⟨TENANT_NAMESPACE, t⟩ = some m ∨ made.1.held.get m = none)
    (hstands : ∀ n, (loadCollection t made.1 n).map bare = (standing (w.history ++ made.2.2) n).map bare)
    (honce : CreatedOnce (w.history ++ made.2.2))
    (hmarks : HasCollection t made.1 → (∃ m, made.1.named ⟨TENANT_NAMESPACE, t⟩ = some m) ∨
      made.2.1.Marks ∨ ∃ other ∈ before ++ after, other.phase.Marks)
    (hunmarks : ∀ m, made.1.named ⟨TENANT_NAMESPACE, t⟩ = some m → HasCollection t made.1 ∨
      made.2.1.Unmarks m ∨ ∃ other ∈ before ++ after, other.phase.Unmarks m) :
    (w.advanced before after call.request made).Sound t := by
  have hsplit := allocated_of_calls hcalls
  have hafter : (w.advanced before after call.request made).allocated =
      (w.reserved ++ before.flatMap fun call => call.phase.allocated) ++
        after.flatMap fun call => call.phase.allocated := by
    refine (allocated_of_calls (w := w.advanced before after call.request made) rfl).trans ?_
    rw [hnone, nil_append]
    rfl
  have hsub : (w.advanced before after call.request made).allocated.Sublist w.allocated := by
    rw [hafter, hsplit]
    exact (List.Sublist.refl _).append (sublist_append_right _ _)
  have hnodup := h.nodup
  -- what others were given is not what this call writes under
  have hothers : ∀ q ∈ (w.advanced before after call.request made).allocated, q ∉ written := by
    intro q hq hw
    have hcall := hwritten q hw
    rw [hsplit] at hnodup
    obtain ⟨-, hright, hleft⟩ := nodup_append.1 hnodup
    rw [hafter] at hq
    rcases mem_append.1 hq with hq | hq
    · exact hleft q hq q (mem_append_left _ hcall) rfl
    · exact (nodup_append.1 hright).2.2 q hcall q hq rfl
  have hcall : ∀ {P : CollectionCall → Prop}, (∀ other ∈ w.calls, P other) →
      P ⟨call.request, made.2.1⟩ → ∀ other ∈ (w.advanced before after call.request made).calls, P other := by
    intro P hall hnew other hother
    rcases mem_append.1 hother with hmem | hmem
    · exact hall other (by rw [hcalls]; exact mem_append_left _ hmem)
    · rcases mem_cons.1 hmem with rfl | hmem
      · exact hnew
      · exact hall other (by rw [hcalls]; simp [hmem])
  have hexists : ∀ {P : CallPhase → Prop}, (P made.2.1 ∨ ∃ other ∈ before ++ after, P other.phase) →
        ∃ other ∈ (w.advanced before after call.request made).calls, P other.phase := by
    intro P hP
    rcases hP with hnew | ⟨other, hother, hP⟩
    · exact ⟨⟨call.request, made.2.1⟩, mem_append_right _ mem_cons_self, hnew⟩
    · refine ⟨other, ?_, hP⟩
      rcases mem_append.1 hother with hmem | hmem
      · exact mem_append_left _ hmem
      · exact mem_append_right _ (mem_cons_of_mem _ hmem)
  refine ⟨hleaves.kept, hleaves.posted, fun q hq => ?_, hnodup.sublist hsub,
    hcall h.ready hready, ?_, hstands, honce, fun hhas => ?_, fun m hm => ?_⟩
  · obtain ⟨hle, hheld⟩ := h.free q (hsub.subset hq)
    exact ⟨hle.trans hleaves.later, hleaves.free q hheld (hothers q hq)⟩
  · refine hcall (fun other hother m hm => ?_) fun m hm => ?_
    · obtain ⟨hle, hmem, hid⟩ := h.settled other hother m hm
      refine ⟨hle.trans hleaves.later, fun hq => hmem (hsub.subset hq),
        hleaves.marker h.kept (fun hw => hmem ?_) hid (hmarker m)⟩
      rw [hsplit]
      exact mem_append_right _ (mem_append_left _ (hwritten m hw))
    · obtain ⟨hstore, hnamed⟩ := hsettled m hm
      obtain ⟨held, hheld, hid⟩ := (h.kept.named _ _).1 hnamed
      refine ⟨(h.kept.bounded m held hheld).trans hleaves.later, fun hq => ?_, fun held' hheld' => ?_⟩
      · rw [(h.free m (hsub.subset hq)).2] at hheld
        cases hheld
      · have hnew : made.1.held.get m = some held' := hheld'
        rw [hstore, hheld] at hnew
        cases hnew
        exact hid
  · exact (hmarks hhas).imp_right hexists
  · exact (hunmarks m hm).imp_right hexists

lemma goes
    (hnone : phase.allocated = []) (hready : phase.Ready t call.request)
    (hsettled : ∀ m, phase = .unmarking m → w.store.named ⟨TENANT_NAMESPACE, t⟩ = some m)
    (hmarks : call.phase.Marks → (∃ m, w.store.named ⟨TENANT_NAMESPACE, t⟩ = some m) ∨ phase.Marks)
    (hunmarks : ∀ m, w.store.named ⟨TENANT_NAMESPACE, t⟩ = some m → call.phase.Unmarks m →
      HasCollection t w.store ∨ phase.Unmarks m) :
    (w.advanced before after call.request (w.store, phase, [])).Sound t := by
  have hhistory : w.history ++ [] = w.history := append_nil _
  refine h.made hcalls _ (Leaves.refl h.kept h.posted) (by simp) hnone hready
    (fun m hm => ⟨rfl, hsettled m hm⟩) (fun m hm => .inl hm) ?_ ?_ (fun hhas => ?_)
    (fun m hm => ?_)
  · rw [hhistory]
    exact h.stands
  · rw [hhistory]
    exact h.once
  · rcases h.marks hhas with hmarked | hcall
    · exact .inl hmarked
    · rcases others_of_calls hcalls hcall with hself | hother
      · exact (hmarks hself).imp_right .inl
      · exact .inr (.inr hother)
  · rcases h.unmarks m hm with hhas | hcall
    · exact .inl hhas
    · rcases others_of_calls (P := CallPhase.Unmarks m) hcalls hcall with hself | hother
      · exact (hunmarks m hm hself).imp_right .inl
      · exact .inr (.inr hother)

lemma reads
    (hnone : phase.allocated = []) (hready : phase.Ready t call.request) (hphase : ∀ m, phase ≠ .unmarking m)
    (hmarks : ¬call.phase.Marks) (hunmarks : ∀ m, ¬call.phase.Unmarks m) :
    (w.advanced before after call.request (w.store, phase, [])).Sound t :=
  h.goes hcalls hnone hready (fun m hm => absurd hm (hphase m)) (fun hm => absurd hm hmarks)
    fun m _ hm => absurd hm (hunmarks m)

end

lemma next (w' : Tenancy) (hstore : w'.store = w.store.nextSeq.2)
    (hhistory : w'.history = w.history) (hperm : w'.allocated.Perm (w.store.nextSeq.1 :: w.allocated))
    (hready : ∀ call ∈ w'.calls, call.phase.Ready t call.request)
    (hsettled : ∀ call ∈ w'.calls, ∀ m, call.phase = .unmarking m → call ∈ w.calls)
    (hmarks : (∃ call ∈ w.calls, call.phase.Marks) → ∃ call ∈ w'.calls, call.phase.Marks)
    (hunmarks : ∀ m, (∃ call ∈ w.calls, call.phase.Unmarks m) →
      ∃ call ∈ w'.calls, call.phase.Unmarks m) : w'.Sound t := by
  have hnext : RecordsOnly 0 w.store w.store.nextSeq.2 := RecordsOnly.nextSeq h.kept
  have hkept : Kept w.store.nextSeq.2 := hnext.kept
  have hheld : w.store.nextSeq.2.held = w.store.held := rfl
  have hnamed : w.store.nextSeq.2.named = w.store.named := rfl
  have hload : ∀ n, loadCollection t w'.store n = loadCollection t w.store n := by
    rw [hstore]
    exact fun _ => rfl
  have hhas : HasCollection t w'.store ↔ HasCollection t w.store := by
    unfold HasCollection
    simp only [hload]
  refine ⟨by rw [hstore]; exact hkept, by rw [hstore]; exact h.posted, fun q hq => ?_, ?_, hready,
    fun call hcall m hm => ?_, fun n => by rw [hload, hhistory]; exact h.stands n,
    by rw [hhistory]; exact h.once, fun hc => ?_, fun m hm => ?_⟩
  · rw [hstore, hheld]
    rcases mem_cons.1 (hperm.subset hq) with rfl | hq
    · exact ⟨le_rfl, h.kept.held_nextSeq⟩
    · obtain ⟨hle, hnone⟩ := h.free q hq
      exact ⟨hle.trans (Nat.le_succ _), hnone⟩
  · refine hperm.nodup_iff.2 (nodup_cons.2 ⟨fun hmem => ?_, h.nodup⟩)
    exact absurd (h.free _ hmem).1 (Nat.not_succ_le_self _)
  · obtain ⟨hle, hmem, hid⟩ := h.settled call (hsettled call hcall m hm) m hm
    rw [hstore, hheld]
    refine ⟨hle.trans (Nat.le_succ _), fun hq => ?_, hid⟩
    rcases mem_cons.1 (hperm.subset hq) with rfl | hq
    · exact absurd hle (Nat.not_succ_le_self _)
    · exact hmem hq
  · rw [hstore, hnamed]
    exact (h.marks (hhas.1 hc)).imp_right hmarks
  · rw [hstore, hnamed] at hm
    exact (h.unmarks m hm).imp hhas.2 (hunmarks m)

lemma numbers (hcalls : w.calls = before ++ call :: after)
    (hnone : call.phase.allocated = []) (hsome : phase.allocated = [w.store.nextSeq.1])
    (hready : phase.Ready t call.request) (hphase : ∀ m, phase ≠ .unmarking m)
    (hmarks : call.phase.Marks → phase.Marks) (hunmarks : ∀ m, call.phase.Unmarks m → phase.Unmarks m) :
    (w.advanced before after call.request (w.store.nextSeq.2, phase, [])).Sound t := by
  have hexists : ∀ {P : CallPhase → Prop}, (P call.phase → P phase) → (∃ other ∈ w.calls, P other.phase) →
        ∃ other ∈ before ++ (⟨call.request, phase⟩ : CollectionCall) :: after, P other.phase := by
    rintro P hP ⟨other, hother, hmem⟩
    rw [hcalls] at hother
    rcases mem_append.1 hother with hin | hin
    · exact ⟨other, mem_append_left _ hin, hmem⟩
    · rcases mem_cons.1 hin with rfl | hin
      · exact ⟨_, mem_append_right _ mem_cons_self, hP hmem⟩
      · exact ⟨other, mem_append_right _ (mem_cons_of_mem _ hin), hmem⟩
  refine h.next (w.advanced before after call.request (w.store.nextSeq.2, phase, [])) rfl
    (append_nil _) ?_ ?_ ?_ (hexists hmarks) fun m => hexists (hunmarks m)
  · rw [allocated_of_calls hcalls, hnone, nil_append]
    refine (List.Perm.of_eq (allocated_of_calls
      (w := w.advanced before after call.request (w.store.nextSeq.2, phase, [])) rfl)).trans ?_
    rw [hsome, singleton_append]
    exact perm_middle
  · intro other hother
    rcases mem_append.1 hother with hin | hin
    · exact h.ready other (by rw [hcalls]; exact mem_append_left _ hin)
    · rcases mem_cons.1 hin with rfl | hin
      · exact hready
      · exact h.ready other (by rw [hcalls]; simp [hin])
  · intro other hother m hm
    rw [hcalls]
    rcases mem_append.1 hother with hin | hin
    · exact mem_append_left _ hin
    · rcases mem_cons.1 hin with rfl | hin
      · exact absurd hm (hphase m)
      · exact mem_append_right _ (mem_cons_of_mem _ hin)

lemma reserve : Tenancy.Sound t { w with
    store := w.store.nextSeq.2, reserved := w.store.nextSeq.1 :: w.reserved } :=
  h.next _ rfl rfl (List.Perm.refl _) h.ready (fun _ hcall _ _ => hcall) id fun _ => id

lemma calling (request : CollectionRequest) :
    Tenancy.Sound t { w with calls := w.calls ++ [⟨request, .asked⟩] } := by
  have hallocated : Tenancy.allocated { w with calls := w.calls ++ [⟨request, .asked⟩] } = w.allocated := by
    unfold Tenancy.allocated
    rw [flatMap_append, flatMap_singleton]
    exact congrArg (w.reserved ++ ·) (append_nil _)
  have hmem : ∀ {P : CollectionCall → Prop}, (∀ other ∈ w.calls, P other) →
      P ⟨request, .asked⟩ → ∀ other ∈ w.calls ++ [⟨request, .asked⟩], P other := by
    intro P hall hnew other hother
    rcases mem_append.1 hother with hin | hin
    · exact hall other hin
    · rw [mem_singleton.1 hin]
      exact hnew
  refine ⟨h.kept, h.posted, by rw [hallocated]; exact h.free, by rw [hallocated]; exact h.nodup,
    hmem h.ready trivial, ?_, h.stands, h.once, fun hhas => ?_, fun m hm => ?_⟩
  · rw [hallocated]
    exact hmem h.settled fun m hm => by cases hm
  · rcases h.marks hhas with hmarked | ⟨other, hother, hmarks⟩
    · exact .inl hmarked
    · exact .inr ⟨other, mem_append_left _ hother, hmarks⟩
  · rcases h.unmarks m hm with hhas | ⟨other, hother, hmarks⟩
    · exact .inl hhas
    · exact .inr ⟨other, mem_append_left _ hother, hmarks⟩

lemma batch
    (ht : TenantOk t) (hreserved : ∀ q ∈ seqsOf ops, q ∈ w.allocated) (hnodup : (seqsOf ops).Nodup)
    (hs : ops.foldlM (applyWrite host t w.store now) {} = .ok s) :
    Leaves t (seqsOf ops) w.store (w.store.commit s.writes) ∧
      (w.store.commit s.writes).named ⟨TENANT_NAMESPACE, t⟩ = w.store.named ⟨TENANT_NAMESPACE, t⟩ ∧
      ∀ n, loadCollection t (w.store.commit s.writes) n = loadCollection t w.store n := by
  obtain ⟨hw, huses⟩ := foldlM_uses h.kept ht (fun q hq => h.free q (hreserved q hq)) hnodup hs
  exact ⟨⟨hw.kept_commit h.kept ht, h.posted.batch hw, by rw [lastSeq_commit],
    fun q hq hne => hw.free_commit huses hq hne⟩, hw.named_commit h.kept fun _ => tenantNs_ne,
    hw.load_commit h.kept t⟩

lemma write {store : Objects Record} (ht : TenantOk t) (hreserved : ∀ q ∈ seqsOf ops, q ∈ w.reserved)
    (hnodup : (seqsOf ops).Nodup) (hwrite : writeDocuments host t w.store now ops = .ok store) :
    Tenancy.Sound t { w with store, reserved := w.reserved.filter fun q => q ∉ seqsOf ops } := by
  obtain ⟨s, hs, rfl⟩ := writeDocuments_eq_ok hwrite
  obtain ⟨hleaves, hmarker, hload⟩ :=
    h.batch ht (fun q hq => mem_append_left _ (hreserved q hq)) hnodup hs
  have hsub : (Tenancy.allocated { w with
      store := w.store.commit s.writes
      reserved := w.reserved.filter fun q => q ∉ seqsOf ops }).Sublist w.allocated :=
    filter_sublist.append (List.Sublist.refl _)
  have hhas : HasCollection t (w.store.commit s.writes) ↔ HasCollection t w.store := by
    unfold HasCollection
    simp only [hload]
  refine ⟨hleaves.kept, hleaves.posted, fun q hq => ?_, h.nodup.sublist hsub, h.ready,
    fun other hother m hm => ?_, fun n => by rw [hload]; exact h.stands n, h.once,
    fun hc => ?_, fun m hm => ?_⟩
  · obtain ⟨hle, hnone⟩ := h.free q (hsub.subset hq)
    refine ⟨hle.trans hleaves.later, hleaves.free q hnone fun hmem => ?_⟩
    rcases mem_append.1 hq with hq | hq
    · exact absurd hmem (by simpa using (mem_filter.1 hq).2)
    · exact (nodup_append.1 h.nodup).2.2 q (hreserved q hmem) q hq rfl
  · obtain ⟨hle, hmem, hid⟩ := h.settled other hother m hm
    refine ⟨hle.trans hleaves.later, fun hq => hmem (hsub.subset hq), hleaves.marker h.kept
      (fun hw => hmem (mem_append_left _ (hreserved m hw))) hid fun hnamed => .inl ?_⟩
    rw [hmarker]
    exact hnamed
  · rw [hmarker]
    exact h.marks (hhas.1 hc)
  · rw [hmarker] at hm
    exact (h.unmarks m hm).imp_left hhas.2

section

variable (hcalls : w.calls = before ++ call :: after)
include hcalls

lemma keeps (hleaves : Leaves t [] w.store o)
    (hmarker : o.named ⟨TENANT_NAMESPACE, t⟩ = w.store.named ⟨TENANT_NAMESPACE, t⟩)
    (hload : ∀ n, loadCollection t o n = loadCollection t w.store n)
    (hnone : phase.allocated = []) (hready : phase.Ready t call.request) (hphase : ∀ m, phase ≠ .unmarking m)
    (hmarks : ¬call.phase.Marks) (hunmarks : ∀ m, ¬call.phase.Unmarks m) :
    (w.advanced before after call.request (o, phase, [])).Sound t := by
  have hhas : HasCollection t o ↔ HasCollection t w.store := by
    unfold HasCollection
    simp only [hload]
  have hhistory : w.history ++ [] = w.history := append_nil _
  refine h.made hcalls _ hleaves (by simp) hnone hready (fun m hm => absurd hm (hphase m))
    (fun m hm => .inl (hmarker.trans hm)) ?_ ?_ (fun hc => ?_) (fun m hm => ?_)
  · rw [hhistory]
    intro n
    rw [hload]
    exact h.stands n
  · rw [hhistory]
    exact h.once
  · rw [hmarker]
    rcases h.marks (hhas.1 hc) with hmarked | hcall
    · exact .inl hmarked
    · exact .inr (.inr ((others_of_calls hcalls hcall).resolve_left hmarks))
  · rcases h.unmarks m (hmarker.symm.trans hm) with hc | hcall
    · exact .inl (hhas.2 hc)
    · exact .inr (.inr ((others_of_calls (P := CallPhase.Unmarks m) hcalls hcall).resolve_left
        (hunmarks m)))

lemma record
    (hphase : call.phase = .recording c seq)
    (hws : createWrites t w.store seq c = .ok ws) (hfresh : loadCollection t w.store c.name = none) :
    (w.advanced before after call.request (w.store.commit ws, .recorded, [.created c])).Sound t := by
  have hcall : call ∈ w.calls := by rw [hcalls]; simp
  have hready := h.ready call hcall
  rw [hphase] at hready
  have hmem : seq ∈ w.allocated := by
    rw [allocated_of_calls hcalls, hphase]
    exact mem_append_right _ (mem_append_left _ (mem_singleton.2 rfl))
  obtain ⟨hle, hheld⟩ := h.free seq hmem
  obtain ⟨hleaves, hmarker, hload⟩ :=
    created_leaves h.kept h.posted hle hheld hfresh hready.1 hready.2 hws
  have hnone : standing w.history c.name = none := by
    have hstands := h.stands c.name
    rw [hfresh] at hstands
    exact map_eq_none_iff.1 hstands.symm
  refine h.made hcalls _ hleaves ?_ rfl trivial (fun m hm => by cases hm)
    (fun m hm => .inl (hmarker.trans hm)) (fun n => ?_) (h.once.append fun c' hc' => ?_)
    (fun _ => .inr (.inl trivial)) fun m _ => .inl ?_
  · rw [hphase]
    exact fun q hq => hq
  · rw [standing_append, hload, CollectionEvent.standing]
    split_ifs
    · rfl
    · exact h.stands n
  · cases hc'
    exact hnone
  · have hself := hload c.name
    rw [if_pos rfl] at hself
    obtain ⟨b, hb, -⟩ := map_eq_some_iff.1 hself
    exact ⟨c.name, b, hb⟩

lemma mark
    (hphase : call.phase = .marking seq) (hnone : w.store.named ⟨TENANT_NAMESPACE, t⟩ = none)
    (hhas : HasCollection t w.store) : (w.advanced before after call.request
      (w.store.commit [markerPut t seq], .done none, [])).Sound t := by
  have hmem : seq ∈ w.allocated := by
    rw [allocated_of_calls hcalls, hphase]
    exact mem_append_right _ (mem_append_left _ (mem_singleton.2 rfl))
  obtain ⟨hle, hheld⟩ := h.free seq hmem
  have htakes := h.kept.named.takes_of_fresh hheld hnone
  have hload : ∀ n, loadCollection t (w.store.commit [markerPut t seq]) n = loadCollection t w.store n := by
    intro n
    refine loadCollection_congr ((h.kept.named.under_put htakes _).trans (if_neg fun hid => ?_))
    exact collectionNs_ne_tenantNs (ObjectIdentity.mk.inj hid).1
  have hmarked : (w.store.commit [markerPut t seq]).named ⟨TENANT_NAMESPACE, t⟩ = some seq :=
    (Objects.named_put htakes _).trans (if_pos rfl)
  have hkept : Kept (w.store.commit [markerPut t seq]) := by
    refine h.kept.put_of_shape htakes hle fun version =>
      .other _ rfl ⟨by simp, by simp⟩ ⟨fun t' => collectionNs_ne_tenantNs.symm, fun _ _ => tenantNs_ne⟩ ?_
    intro col hcol
    rw [mem_singleton.1 hcol]
    exact slash_notMem_tenantColumn
  have hhistory : w.history ++ [] = w.history := append_nil _
  refine h.made hcalls [seq] ⟨hkept, h.posted.markerPut seq, by rw [lastSeq_commit], ?_⟩ ?_
    rfl trivial (fun m hm => by cases hm) (fun m hm => ?_) (fun n => ?_) ?_
    (fun _ => .inl ⟨seq, hmarked⟩) fun m _ => .inl ?_
  · intro q hq hne
    refine (OrderedMap.get_insert _ _ _ _).trans ?_
    rw [if_neg fun heq => hne (mem_singleton.2 heq)]
    exact hq
  · rw [hphase]
    exact fun q hq => hq
  · rw [hnone] at hm
    cases hm
  · rw [hhistory, hload]
    exact h.stands n
  · rw [hhistory]
    exact h.once
  · obtain ⟨n, c, hc⟩ := hhas
    exact ⟨n, c, (hload n).trans hc⟩

lemma drop
    (hphase : call.phase = .unlinking c) : (w.advanced before after call.request
      (w.store.commit (dropWrites t w.store { c with name := call.request.name }), .dropped,
        if (w.store.lookup (collectionNs t) call.request.name).isSome then
          [.dropped call.request.name] else [])).Sound t := by
  obtain ⟨hleaves, hmarker, hload⟩ :=
    dropped_leaves h.kept h.posted { c with name := call.request.name }
  have hmarks : ¬call.phase.Marks := by
    rw [hphase]
    exact id
  have hhas : HasCollection t (w.store.commit
      (dropWrites t w.store { c with name := call.request.name })) → HasCollection t w.store := by
    rintro ⟨n, b, hb⟩
    have hn := hload n
    rw [hb] at hn
    split_ifs at hn
    · cases hn
    · obtain ⟨b', hb', -⟩ := map_eq_some_iff.1 hn.symm
      exact ⟨n, b', hb'⟩
  refine h.made hcalls _ hleaves (by simp) rfl trivial (fun m hm => by cases hm)
    (fun m hm => .inl (hmarker.trans hm)) (fun n => ?_) ?_ (fun hc => ?_)
    fun m _ => .inr (.inl trivial)
  · refine (hload n).trans ?_
    split_ifs with hn hlookup hlookup
    · subst hn
      rw [standing_append, CollectionEvent.standing, if_pos rfl]
      rfl
    · -- nothing was recorded under the name
      subst hn
      have hnone : loadCollection t w.store call.request.name = none := by
        cases hload : loadCollection t w.store call.request.name with
        | none => rfl
        | some b =>
          obtain ⟨q, hq⟩ := exists_named_of_load hload
          exact absurd (isSome_iff_exists.2 ⟨q, hq⟩) hlookup
      rw [append_nil, ← h.stands, hnone]
      rfl
    · rw [standing_append, CollectionEvent.standing, if_neg hn]
      exact h.stands n
    · rw [append_nil]
      exact h.stands n
  · dsimp only
    split_ifs
    · exact h.once.append fun c' hc' => by cases hc'
    · rw [append_nil]
      exact h.once
  · rw [hmarker]
    rcases h.marks (hhas hc) with hmarked | hcall
    · exact .inl hmarked
    · exact .inr (.inr ((others_of_calls hcalls hcall).resolve_left hmarks))

lemma unmark
    (hphase : call.phase = .unmarking seq)
    (hnone : w.store.named ⟨TENANT_NAMESPACE, t⟩ = some seq → ¬HasCollection t w.store) :
    (w.advanced before after call.request (w.store.commit [.retract seq], .done none, [])).Sound t := by
  have hcall : call ∈ w.calls := by rw [hcalls]; simp
  obtain ⟨-, -, hid⟩ := h.settled call hcall seq hphase
  have hnamed : ∀ i, (w.store.commit [.retract seq]).named i =
      if w.store.named i = some seq then none else w.store.named i := h.kept.named.named_retract seq
  have hheld : ∀ q, (w.store.commit [.retract seq]).held.get q =
      if q = seq then none else w.store.held.get q := fun q => OrderedMap.get_erase _ _ _
  have hload : ∀ n, loadCollection t (w.store.commit [.retract seq]) n = loadCollection t w.store n := by
    intro n
    refine (loadCollection_retract h.kept.named seq t n).trans (if_neg fun hseq => ?_)
    obtain ⟨held, hheld, hid'⟩ := (h.kept.named _ _).1 hseq
    rw [hid held hheld] at hid'
    exact collectionNs_ne_tenantNs (ObjectIdentity.mk.inj (some.inj hid')).1.symm
  have hhas : HasCollection t (w.store.commit [.retract seq]) ↔ HasCollection t w.store := by
    unfold HasCollection
    simp only [hload]
  have hhistory : w.history ++ [] = w.history := append_nil _
  refine h.made hcalls [] ⟨h.kept.retract seq, h.posted.retract seq,
    by rw [lastSeq_commit], fun q hq _ => ?_⟩ (by simp) rfl trivial (fun m hm => by cases hm)
    (fun m hm => ?_) (fun n => ?_) ?_ (fun hc => ?_) fun m hm => ?_
  · rw [hheld]
    split_ifs
    · rfl
    · exact hq
  · dsimp only
    rw [hnamed, hheld]
    by_cases hseq : m = seq
    · exact .inr (if_pos hseq)
    · left
      rw [if_neg]
      · exact hm
      · rw [hm]
        exact fun heq => hseq (some.inj heq)
  · rw [hhistory, hload]
    exact h.stands n
  · rw [hhistory]
    exact h.once
  · have hc := hhas.1 hc
    rw [hnamed, if_neg fun heq => hnone heq hc]
    rcases h.marks hc with hmarked | hcall
    · exact .inl hmarked
    · refine .inr (.inr ((others_of_calls hcalls hcall).resolve_left ?_))
      rw [hphase]
      exact id
  · dsimp only at hm
    rw [hnamed] at hm
    split_ifs at hm with heq
    rcases h.unmarks m hm with hc | hcall
    · exact .inl (hhas.2 hc)
    · refine .inr (.inr ((others_of_calls (P := CallPhase.Unmarks m) hcalls hcall).resolve_left ?_))
      rw [hphase]
      intro hself
      exact heq (hself ▸ hm)

end

lemma empty (ht : TenantOk t) (hcalls : w.calls = before ++ call :: after)
    {page : List Document} (hphase : call.phase = .emptying c page)
    (hs : deletePage host t w.store now call.request.name page = .ok s) :
    (w.advanced before after call.request (w.store.commit s.writes, .paging c, [])).Sound t := by
  have hseqs := seqsOf_deletes call.request.name page
  have hops : (page.map fun d => DocumentWrite.delete call.request.name d.id none []).foldlM
      (applyWrite host t w.store now) {} = .ok s := by
    rw [foldlM_map]
    exact hs
  obtain ⟨hleaves, hmarker, hload⟩ := h.batch ht (by rw [hseqs]; simp) (by rw [hseqs]; simp) hops
  rw [hseqs] at hleaves
  refine h.keeps hcalls hleaves hmarker hload rfl trivial (fun m hm => by cases hm) ?_ fun m => ?_
  · rw [hphase]
    exact id
  · rw [hphase]
    exact id

end

end Tenancy.Sound

lemma admitted_eq (request : CollectionRequest) :
    admitted request = .seeking ∨ ∃ fault, admitted request = .done fault := by
  cases request with
  | create now salt input =>
    unfold admitted
    dsimp only
    split
    · exact .inr ⟨_, rfl⟩
    · exact .inl rfl
  | drop now name => exact .inl rfl

lemma named_of_admitted (h : admitted request = .seeking) : request.Named := by
  cases request with
  | create now salt input =>
    unfold admitted validateName at h
    dsimp only at h
    split_ifs at h with hname
    exact eq_true_of_ne_false hname
  | drop now name => trivial

lemma found_cases (h : request.Named) (c : Option StoredCollection) :
    (∃ d, found t request c = .numbering d ∧ isName d.name = true ∧ IndexesOk t d) ∨
      (∃ d, found t request c = .paging d) ∨ ∃ fault, found t request c = .done fault := by
  cases request with
  | create now salt input =>
    cases c with
    | some c => exact .inr (.inr ⟨_, rfl⟩)
    | none =>
      unfold found
      dsimp only
      split
      · exact .inr (.inr ⟨_, rfl⟩)
      next d hd =>
        obtain ⟨hname, -, -, hnodup, hindexes⟩ := collectionFor_eq_ok hd
        refine .inl ⟨d, rfl, by rw [hname]; exact h, fun i hi => (hindexes i hi).2.1, hnodup,
          fun i hi => ⟨_, (hindexes i hi).2.2⟩⟩
  | drop now name =>
    cases c with
    | none => exact .inr (.inr ⟨_, rfl⟩)
    | some c =>
      unfold found
      dsimp only
      split
      · exact .inr (.inr ⟨_, rfl⟩)
      · exact .inr (.inl ⟨c, rfl⟩)

lemma Tenancy.Sound.advance (h : w.Sound t) (ht : TenantOk t)
    (hcalls : w.calls = before ++ call :: after) (htidy : Tidy t w call) :
    (w.advanced before after call.request (call.advance host t w.store)).Sound t := by
  have hcall : call ∈ w.calls := by rw [hcalls]; simp
  have hready := h.ready call hcall
  -- an end, or going on to look the name up
  have hdone : ∀ fault, (¬call.phase.Marks) → (∀ m, ¬call.phase.Unmarks m) →
      (w.advanced before after call.request (w.store, .done fault, [])).Sound t :=
    fun fault hm hu => h.reads hcalls rfl trivial (fun m hm => by cases hm) hm hu
  have hadmitted : (¬call.phase.Marks) → (∀ m, ¬call.phase.Unmarks m) →
      (w.advanced before after call.request (w.store, admitted call.request, [])).Sound t := by
    intro hm hu
    rcases admitted_eq call.request with heq | ⟨fault, heq⟩
    · have hnamed := named_of_admitted heq
      rw [heq]
      exact h.reads hcalls rfl hnamed (fun m hm => by cases hm) hm hu
    · rw [heq]
      exact hdone fault hm hu
  have hfound : ∀ c, call.request.Named → (¬call.phase.Marks) → (∀ m, ¬call.phase.Unmarks m) →
      (w.advanced before after call.request (w.store, found t call.request c, [])).Sound t := by
    intro c hnamed hm hu
    rcases found_cases (t := t) hnamed c with ⟨d, heq, hd⟩ | ⟨d, heq⟩ | ⟨fault, heq⟩
    · rw [heq]
      exact h.reads hcalls rfl hd (fun m hm => by cases hm) hm hu
    · rw [heq]
      exact h.reads hcalls rfl trivial (fun m hm => by cases hm) hm hu
    · rw [heq]
      exact hdone fault hm hu
  unfold CollectionCall.advance
  unfold Tidy at htidy
  cases hphase : call.phase with
  | asked =>
    rw [hphase] at hadmitted
    dsimp only
    split
    · exact hadmitted id fun _ => id
    · exact h.reads hcalls rfl trivial (fun m hm => by cases hm) (by rw [hphase]; exact id)
        fun m => by rw [hphase]; exact id
  | fenced seq =>
    rw [hphase] at hadmitted hdone
    dsimp only
    split
    · exact hadmitted id fun _ => id
    · exact hdone _ id fun _ => id
    · exact hdone _ id fun _ => id
  | seeking =>
    rw [hphase] at hfound hready
    dsimp only
    split
    · exact hfound none hready id fun _ => id
    · exact h.reads hcalls rfl hready (fun m hm => by cases hm) (by rw [hphase]; exact id)
        fun m => by rw [hphase]; exact id
  | loading seq =>
    rw [hphase] at hfound hdone hready
    dsimp only
    split
    · exact hfound none hready id fun _ => id
    · exact hfound _ hready id fun _ => id
    · exact hdone _ id fun _ => id
  | numbering c =>
    rw [hphase] at hready
    exact h.numbers hcalls (by rw [hphase]; rfl) rfl hready (fun m hm => by cases hm)
      (by rw [hphase]; exact id) fun m => by rw [hphase]; exact id
  | recording c seq =>
    rw [hphase] at hdone htidy
    dsimp only
    cases hws : createWrites t w.store seq c with
    | error fault => exact hdone _ id fun _ => id
    | ok ws => exact h.record hcalls hphase hws (htidy ⟨ws, hws⟩)
  | recorded =>
    dsimp only
    split
    next m hm =>
      exact h.goes hcalls rfl trivial (fun m hm => by cases hm) (fun _ => .inl ⟨m, hm⟩)
        fun m _ hu => by rw [hphase] at hu; exact absurd hu id
    next =>
      exact h.goes hcalls rfl trivial (fun m hm => by cases hm) (fun _ => .inr trivial)
        fun m _ hu => by rw [hphase] at hu; exact absurd hu id
  | unmarked =>
    exact h.numbers hcalls (by rw [hphase]; rfl) rfl trivial (fun m hm => by cases hm)
      (fun _ => trivial) fun m hu => by rw [hphase] at hu; exact absurd hu id
  | marking seq =>
    rw [hphase] at htidy
    exact h.mark hcalls hphase htidy.1 htidy.2
  | paging c =>
    exact h.reads hcalls rfl trivial (fun m hm => by cases hm) (by rw [hphase]; exact id)
      fun m => by rw [hphase]; exact id
  | collecting c seqs page =>
    have hreads : ∀ {phase : CallPhase}, phase.allocated = [] → phase.Ready t call.request →
        (∀ m, phase ≠ .unmarking m) →
        (w.advanced before after call.request (w.store, phase, [])).Sound t :=
      fun hnone hr hp => h.reads hcalls hnone hr hp (by rw [hphase]; exact id)
        fun m => by rw [hphase]; exact id
    dsimp only
    split_ifs
    · exact hreads rfl trivial fun m hm => by cases hm
    · exact hreads rfl trivial fun m hm => by cases hm
    · exact hreads rfl trivial fun m hm => by cases hm
  | emptying c page =>
    rw [hphase] at hdone
    dsimp only
    cases hs : deletePage host t w.store call.request.now call.request.name page with
    | error fault => exact hdone _ id fun _ => id
    | ok s => exact h.empty ht hcalls hphase hs
  | unlinking c => exact h.drop hcalls hphase
  | dropped =>
    have hm : ¬call.phase.Marks := by rw [hphase]; exact id
    split_ifs with hnil
    · exact h.goes hcalls rfl trivial (fun m hm => by cases hm) (fun h => absurd h hm)
        fun _ _ _ => .inr trivial
    · refine h.goes hcalls rfl trivial (fun m hm => by cases hm) (fun h => absurd h hm)
        fun _ _ _ => .inl ?_
      obtain ⟨q, hq⟩ := exists_mem_of_ne_nil _ hnil
      obtain ⟨c, -, -, hload⟩ := (mem_collectionSeqs h.kept h.posted).1 hq
      exact ⟨c.name, c, hload⟩
  | leaving =>
    have hm : ¬call.phase.Marks := by rw [hphase]; exact id
    dsimp only
    split
    next hnone =>
      refine h.goes hcalls rfl trivial (fun m hm => by cases hm) (fun h => absurd h hm)
        fun m hnamed _ => ?_
      have hnone : w.store.named ⟨TENANT_NAMESPACE, t⟩ = none := hnone
      rw [hnone] at hnamed
      cases hnamed
    next seq hseq =>
      have hseq : w.store.named ⟨TENANT_NAMESPACE, t⟩ = some seq := hseq
      refine h.goes hcalls rfl trivial (fun m hm => ?_) (fun h => absurd h hm) fun m hnamed _ => ?_
      · cases hm
        exact hseq
      · rw [hseq] at hnamed
        exact .inr (some.inj hnamed)
  | unmarking seq =>
    rw [hphase] at htidy
    exact h.unmark hcalls hphase htidy
  | done fault =>
    rw [hphase] at hdone
    exact hdone fault id fun _ => id

lemma Tenancy.Sound.step {w' : Tenancy} (h : w.Sound t) (ht : TenantOk t)
    (hstep : w.Step host t (Tidy t) w') : w'.Sound t := by
  cases hstep with
  | reserve => exact h.reserve
  | write hreserved hnodup hwrite => exact h.write ht hreserved hnodup hwrite
  | call request => exact h.calling request
  | advance hcalls htidy => exact h.advance ht hcalls htidy

lemma Tenancy.sound_start : Tenancy.Sound t {} where
  kept := by
    refine ⟨Objects.empty_named, fun q held hheld => ?_, fun q held hheld => ?_⟩
    · cases hheld
    · cases hheld
  posted _ _ hheld := by cases hheld
  free _ hq := absurd hq not_mem_nil
  nodup := nodup_nil
  ready _ hcall := absurd hcall not_mem_nil
  settled _ hcall := absurd hcall not_mem_nil
  stands _ := rfl
  once before between after c c' heq := by
    have hlength := congrArg List.length heq
    simp at hlength
  marks := by
    rintro ⟨n, c, hc⟩
    cases hc
  unmarks _ hm := by cases hm

lemma Tenancy.Runs.sound (h : Tenancy.Runs host t (Tidy t) w) (ht : TenantOk t) : w.Sound t := by
  induction h with
  | start => exact Tenancy.sound_start
  | step _ hstep ih => exact ih.step ht hstep

lemma Tenancy.Sound.whole (h : w.Sound t) (localeCompare : Utf16 → Utf16 → ℤ) :
    w.Whole t localeCompare := by
  obtain ⟨out, hout, hnodup, hmem⟩ := exists_listCollections h.kept h.posted localeCompare
  have hstands : ∀ n c, loadCollection t w.store n = some c → ∃ d, standing w.history n = some d ∧
      bare c = bare d := by
    intro n c hc
    have hn := h.stands n
    rw [hc, map_some] at hn
    obtain ⟨d, hd, heq⟩ := map_eq_some_iff.1 hn.symm
    exact ⟨d, hd, heq.symm⟩
  have hpublic : ∀ {c d : StoredCollection}, bare c = bare d →
      bare (publicCollection c) = bare (publicCollection d) :=
    fun heq => congrArg publicCollection heq
  refine ⟨h.once, ⟨out, hout, hnodup, fun c hc => ?_, fun n d hd => ?_⟩, fun hquiet => ?_⟩
  · obtain ⟨n, b, hload, rfl⟩ := (hmem c).1 hc
    obtain ⟨d, hd, heq⟩ := hstands n b hload
    refine ⟨d, ?_, hpublic heq⟩
    rw [← hd]
    exact congrArg _ (h.kept.name_of_load hload).1
  · have hn := h.stands n
    rw [hd, map_some] at hn
    obtain ⟨b, hload, -⟩ := map_eq_some_iff.1 hn
    exact ⟨publicCollection b, (hmem _).2 ⟨n, b, hload, rfl⟩, (h.kept.name_of_load hload).1⟩
  · rw [marked_iff h.kept h.posted, hout]
    -- a call that has returned is to see to no marker
    have hno : ∀ {P : CallPhase → Prop}, (∀ fault, ¬P (.done fault)) → ¬∃ call ∈ w.calls, P call.phase := by
      rintro P hP ⟨call, hcall, hphase⟩
      obtain ⟨fault, heq⟩ := hquiet call hcall
      rw [heq] at hphase
      exact hP fault hphase
    have hlisted : some out ≠ some [] ↔ HasCollection t w.store := by
      rw [ne_eq, some_inj, ← ne_eq]
      constructor
      · intro hne
        obtain ⟨c, hc⟩ := exists_mem_of_ne_nil _ hne
        obtain ⟨n, b, hload, -⟩ := (hmem c).1 hc
        exact ⟨n, b, hload⟩
      · rintro ⟨n, b, hload⟩ rfl
        exact absurd ((hmem _).2 ⟨n, b, hload, rfl⟩) not_mem_nil
    rw [hlisted]
    constructor
    · rintro ⟨m, hm⟩
      exact (h.unmarks m hm).resolve_right (hno (P := CallPhase.Unmarks m) fun _ => id)
    · intro hhas
      exact (h.marks hhas).resolve_right (hno fun _ => id)

/-- In every run of harmless steps a name is created again only after it was dropped, the listing
names each collection once with the definition it was created with, and a tenant is marked, once no
call is under way, exactly when it has a collection. -/
theorem runs_whole {host : Host} (h : Tenancy.Runs host t (Tidy t) w) (ht : TenantOk t)
    (localeCompare : Utf16 → Utf16 → ℤ) : w.Whole t localeCompare :=
  (h.sound ht).whole localeCompare

end

/-! ## Schedules -/

section

variable (host : Host) (t : TenantId)

def Tenancy.turn (w : Tenancy) (place : ℕ) : Tenancy :=
  match w.calls.drop place with
  | call :: after => w.advanced (w.calls.take place) after call.request (call.advance host t w.store)
  | [] => w

def Tenancy.turns (w : Tenancy) (places : List ℕ) : Tenancy := places.foldl (Tenancy.turn host t) w

variable {host t} {C : Tenancy → CollectionCall → Prop} {w : Tenancy}

lemma Tenancy.Runs.turn (h : Tenancy.Runs host t C w) (place : ℕ)
    (hC : ∀ call ∈ (w.calls.drop place).head?, C w call) : Tenancy.Runs host t C (w.turn host t place) := by
  unfold Tenancy.turn
  cases hdrop : w.calls.drop place with
  | nil => exact h
  | cons call after =>
    refine h.step (.advance ?_ (hC call (by rw [hdrop]; rfl)))
    rw [← hdrop, take_append_drop]

lemma Tenancy.Runs.turns (h : Tenancy.Runs host t (fun _ _ => True) w) (places : List ℕ) :
    Tenancy.Runs host t (fun _ _ => True) (w.turns host t places) := by
  induction places generalizing w with
  | nil => exact h
  | cons place places ih => exact ih (h.turn place fun _ _ => trivial)

end

def bareRequest : CollectionRequest := .create [] (fun _ => []) { name := utf16 "a" }

/-- Two calls to create one collection find that there is none; then both record it. -/
def createdTwice : Tenancy :=
  ({ calls := [⟨bareRequest, .asked⟩, ⟨bareRequest, .asked⟩] } : Tenancy).turns plainHost (utf16 "t")
    [0, 0, 0, 1, 1, 1, 0, 1]

/-- Two creations of one name side by side: both succeed. -/
theorem not_runs_whole : ¬∀ (host : Host) (t : TenantId) (localeCompare : Utf16 → Utf16 → ℤ)
    (w : Tenancy), TenantOk t → Tenancy.Runs host t (fun _ _ => True) w → w.Whole t localeCompare := by
  intro hall
  have hcalls : Tenancy.Runs plainHost (utf16 "t") (fun _ _ => True)
      { calls := [⟨bareRequest, .asked⟩, ⟨bareRequest, .asked⟩] } :=
    .step (.step .start (.call bareRequest)) (.call bareRequest)
  have hwhole := hall plainHost (utf16 "t") (fun _ _ => 0) createdTwice ⟨by decide, by decide⟩
    (hcalls.turns _)
  have hhistory : ∃ c c', createdTwice.history = [] ++ .created c :: [] ++ .created c' :: [] ∧
      c.name = c'.name := ⟨_, _, rfl, rfl⟩
  obtain ⟨c, c', heq, hname⟩ := hhistory
  exact absurd (hwhole.once [] [] [] c c' heq hname) List.not_mem_nil

def createdOnce : Tenancy :=
  ({ calls := [⟨bareRequest, .asked⟩] } : Tenancy).turns plainHost (utf16 "t") [0, 0, 0, 0, 0, 0, 0]

theorem runs_whole_once : createdOnce.history.length = 1 ∧ createdOnce.Whole (utf16 "t") (fun _ _ => 0) := by
  refine ⟨by decide +kernel, @runs_whole (utf16 "t") createdOnce plainHost ?_ ⟨by decide, by decide⟩ _⟩
  have hcall : Tenancy.Runs plainHost (utf16 "t") (Tidy (utf16 "t"))
      { calls := [⟨bareRequest, .asked⟩] } := .step .start (.call bareRequest)
  have hnumbered := ((hcall.turn 0 (by rintro call ⟨⟩; trivial)).turn 0
    (by rintro call ⟨⟩; trivial)).turn 0 (by rintro call ⟨⟩; trivial)
  have hrecorded := hnumbered.turn 0 (by
    rintro call ⟨⟩
    exact fun _ => rfl)
  have hmarking := (hrecorded.turn 0 (by rintro call ⟨⟩; trivial)).turn 0
    (by rintro call ⟨⟩; trivial)
  exact hmarking.turn 0 (by
    rintro call ⟨⟩
    exact ⟨rfl, utf16 "a", _, rfl⟩)

end Zelavis.Db
