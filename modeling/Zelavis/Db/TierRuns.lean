import Zelavis.Db.Sealing

/-!
# Every store reached has its tiers in step

* `Recorded` — the events of the log and the records of the snapshot write manifests that satisfy
  `W`, so that replaying them does.
* `Stepped` — the three together, kept by every operation (`stepped_safe`), hence true of every store
  reached (`Reachable.stepped`).
-/

namespace Zelavis.Db

open Lib OrderedMap List Option

variable {W : Seq → IndexManifest → Prop} {m : Store} {claim : WriterClaim}

/-! ## Dropping lenses -/

lemma after_dropped (m : Store) {tags : List Byte} (h0 : 0 ∉ tags) (k : Key) :
    after m.get (dropped m tags) k = if tagOf k ∈ tags then none else m.get k := by
  have hmem : ∀ w ∈ dropped m tags, w.value = none ∧ tagOf w.key ∈ tags := by
    intro w hw
    obtain ⟨e, he, rfl⟩ := List.mem_map.1 hw
    obtain ⟨l, hl, he⟩ := mem_flatten.1 he
    obtain ⟨t, ht, rfl⟩ := List.mem_map.1 hl
    obtain ⟨-, hpre, -⟩ := mem_scan.1 he
    exact ⟨rfl, by rw [Write.key, tagOf_of_isPrefix hpre]; exact ht⟩
  split_ifs with htag
  · cases hk : m.get k with
    | none =>
      rw [after_of_forall_ne fun w hw he => ?_, hk]
      obtain ⟨e, he', rfl⟩ := List.mem_map.1 hw
      obtain ⟨l, hl, he'⟩ := mem_flatten.1 he'
      obtain ⟨t, -, rfl⟩ := List.mem_map.1 hl
      obtain ⟨hget, -⟩ := mem_scan.1 he'
      rw [show e.1 = k from he, hk] at hget
      exact absurd hget (by simp)
    | some v =>
      refine after_of_exists ⟨.delete k, List.mem_map.2 ⟨(k, v), mem_flatten.2
        ⟨_, List.mem_map.2 ⟨tagOf k, htag, rfl⟩, mem_scan.2 ⟨hk, ?_, by simp, by simp⟩⟩, rfl⟩, rfl⟩
        fun w hw _ => (hmem w hw).1
      cases k with
      | nil => exact absurd htag h0
      | cons t k => exact ⟨k, rfl⟩
  · exact after_of_forall_ne fun w hw he => htag (he ▸ (hmem w hw).2)

variable {k : Key}

lemma after_unsealed_of_ne {c : Contents} (hs : k ≠ metaKey META_SEALED)
    (hw : k ≠ metaKey META_SWEPT) : after c unsealed k = c k := by
  refine after_of_forall_ne fun w hmem he => ?_
  subst he
  rcases mem_cons.1 hmem with rfl | hmem
  · exact hs rfl
  · rw [mem_singleton.1 hmem] at hw
    exact hw rfl

lemma metaOf_unsealed (c : Contents) : metaOf (after c unsealed) META_SEALED = some 0 := by
  exact metaOf_after_put c META_SEALED 0

/-! ## Decoded manifests -/

@[simp] lemma keySeq_cons_writeU32 (t : Byte) (n : ℕ) : keySeq (t :: writeU32 n) = some (n % 2 ^ 32) :=
  recordU32_writeU32 n

variable {man : IndexManifest} {seq : Seq}

lemma mem_manifestsC (h : Tiers W m.get) {entries : List (Seq × IndexManifest)}
    (hentries : manifestsC m = some entries) :
    (seq, man) ∈ entries ↔ seq < 2 ^ 32 ∧ m.get (manifestKey seq) = some (.manifest man) := by
  rw [mem_of_mapM hentries]
  constructor
  · rintro ⟨⟨k, v⟩, he, hg⟩
    obtain ⟨hget, hpre, -⟩ := mem_scan.1 he
    obtain ⟨n, hn, man', rfl, rfl⟩ := h.manifest_shape k v (tagOf_of_isPrefix hpre) hget
    simp only [manifestEntry, manifestKey, keySeq_cons_writeU32, unjsonManifest,
      bind_eq_bind, bind_some, bind_eq_some_iff, ite_none_right_eq_some,
      Option.pure_def, Option.some.injEq, Prod.mk.injEq] at hg
    obtain ⟨_, ⟨-, rfl⟩, rfl, rfl⟩ := hg
    rw [Nat.mod_eq_of_lt hn]
    exact ⟨hn, hget⟩
  · rintro ⟨hseq, hget⟩
    have hmem : (manifestKey seq, Stored.manifest man) ∈ scan m [Tag.manifest] none none :=
      mem_scan.2 ⟨hget, ⟨writeU32 seq, rfl⟩, by simp, by simp⟩
    refine ⟨_, hmem, ?_⟩
    obtain ⟨b, hb, hrel⟩ : ∃ b, b ∈ entries ∧ manifestEntry (manifestKey seq, .manifest man) = some b := by
      have hall := mapM_eq_some_iff.1 hentries
      generalize scan m [Tag.manifest] none none = l at hmem hall
      clear hentries
      induction hall with
      | nil => exact absurd hmem not_mem_nil
      | cons ha _ ih =>
        rcases mem_cons.1 hmem with rfl | hmem
        · exact ⟨_, by simp, ha⟩
        · obtain ⟨b, hb, hrel⟩ := ih hmem
          exact ⟨b, by simp [hb], hrel⟩
    rw [hrel]
    simp only [manifestEntry, manifestKey, keySeq_cons_writeU32, unjsonManifest,
      bind_eq_bind, bind_some, bind_eq_some_iff, ite_none_right_eq_some,
      Option.pure_def, Option.some.injEq] at hrel
    obtain ⟨_, ⟨-, rfl⟩, rfl⟩ := hrel
    rw [Nat.mod_eq_of_lt hseq]

variable {w : Write Key Stored}

lemma mem_manifestC {entry : Seq × IndexManifest} {ws : List (Write Key Stored)}
    (h : manifestC entry = some ws) : w ∈ ws ↔ (∃ P ∈ postingKeys entry.1 entry.2, w = .put P EMPTY) ∨
      ∃ c ∈ entry.2.measures, w = .put (measureKey c.1 entry.1) (f64 c.2) := by
  simp only [manifestC, bind_eq_bind, bind_eq_some_iff, Option.pure_def, Option.some.injEq] at h
  obtain ⟨columns, hcol, rfl⟩ := h
  rw [← columnKeys_eq hcol]
  simp only [postingKeys, mem_append, List.mem_map, mem_flatMap, mem_filterMap]
  constructor
  · rintro (((⟨t, ht, rfl⟩ | ⟨P, hP, rfl⟩) | ⟨c, hc, rfl⟩) | ⟨e, he, P, hP, rfl⟩)
    · exact .inl ⟨_, .inl (.inl ⟨t, ht, rfl⟩), rfl⟩
    · exact .inl ⟨P, .inl (.inr hP), rfl⟩
    · exact .inr ⟨c, hc, rfl⟩
    · exact .inl ⟨P, .inr ⟨e, he, hP⟩, rfl⟩
  · rintro (⟨P, (⟨t, ht, rfl⟩ | hP) | ⟨e, he, hP⟩, rfl⟩ | ⟨c, hc, rfl⟩)
    · exact .inl (.inl (.inl ⟨t, ht, rfl⟩))
    · exact .inl (.inl (.inr ⟨P, hP, rfl⟩))
    · exact .inr ⟨e, he, P, hP, rfl⟩
    · exact .inl (.inr ⟨c, hc, rfl⟩)

/-! ## A reindex -/

section reindex

variable {entries : List (Seq × IndexManifest)} {postings : List (List (Write Key Stored))}
  {u : Bytes}

section

variable (hpostings : entries.mapM manifestC = some postings)
include hpostings

lemma mem_postings :
    w ∈ postings.flatten ↔ ∃ entry ∈ entries, (∃ P ∈ postingKeys entry.1 entry.2, w = .put P EMPTY) ∨
      ∃ c ∈ entry.2.measures, w = .put (measureKey c.1 entry.1) (f64 c.2) := by
  rw [mem_flatten]
  constructor
  · rintro ⟨ws, hws, hw⟩
    obtain ⟨entry, hentry, he⟩ := (mem_of_mapM hpostings).1 hws
    exact ⟨entry, hentry, (mem_manifestC he).1 hw⟩
  · rintro ⟨entry, hentry, hw⟩
    have hall := mapM_eq_some_iff.1 hpostings
    clear hpostings
    induction hall with
    | nil => exact absurd hentry not_mem_nil
    | cons ha _ ih =>
      rcases mem_cons.1 hentry with rfl | hentry
      · exact ⟨_, by simp, (mem_manifestC ha).2 hw⟩
      · obtain ⟨ws, hws, hw⟩ := ih hentry
        exact ⟨ws, by simp [hws], hw⟩

lemma postings_tag
    (hw : w ∈ postings.flatten) : tagOf w.key ∈ SEALABLE_TAGS ++ [Tag.measure] := by
  obtain ⟨entry, -, ⟨P, hP, rfl⟩ | ⟨c, -, rfl⟩⟩ := (mem_postings hpostings).1 hw
  · exact mem_append_left _ (isPosting_of_mem hP).tag
  · simp [Write.key]

lemma reindexed_frame
    (hk : tagOf k ∉ DERIVED_TAGS) (hmeta : k ∉ SEAL_METAS) : reindexedC m postings.flatten u k = m.get k := by
  simp only [SEAL_METAS, mem_cons, not_mem_nil, or_false, not_or] at hmeta
  rw [reindexedC, revised_of_ne hmeta.2.2, after_append, after_append,
    after_of_tag fun w hw he => hk (tag_mem (by decide) (he ▸ postings_tag hpostings hw)),
    after_unsealed_of_ne hmeta.1 hmeta.2.1, after_dropped m (by decide), if_neg hk]

end

lemma reindexed_derived (hk : tagOf k ∈ DERIVED_TAGS) :
    reindexedC m postings.flatten u k = after (fun _ => none) postings.flatten k := by
  have hne : ∀ name, k ≠ metaKey name := fun name => ne_of_tag fun he => by
    rw [he] at hk
    exact absurd hk (by simp +decide)
  rw [reindexedC, revised_of_ne (hne _), after_append, after_append]
  refine after_congr ?_
  rw [after_unsealed_of_ne (hne _) (hne _), after_dropped m (by decide), if_pos hk]

section

variable (h : Tiers W m.get) (hentries : manifestsC m = some entries)
  (hpostings : entries.mapM manifestC = some postings)
include h hentries hpostings

lemma reindexed_posting {P : Key} (hP : IsPosting P) :
    reindexedC m postings.flatten u P ≠ none ↔ Holds m.get P := by
  rw [reindexed_derived (tag_mem (by decide) hP.tag)]
  constructor
  · intro hne
    obtain ⟨v, hv⟩ := ne_none_iff_exists'.1 hne
    rcases of_after_eq_some hv with hv | hv
    · exact absurd hv (by simp)
    · obtain ⟨⟨seq, man⟩, hentry, ⟨Q, hQ, he⟩ | ⟨c, -, he⟩⟩ := (mem_postings hpostings).1 hv
      · obtain rfl : P = Q := congrArg Write.key he
        exact ⟨seq, man, ((mem_manifestsC h hentries).1 hentry).2, hQ⟩
      · exact absurd (congrArg Write.key he) (hP.ne (by simp +decide [Write.key]))
  · rintro ⟨seq, man, hman, hPm⟩
    have hentry : (seq % 2 ^ 32, man) ∈ entries := (mem_manifestsC h hentries).2
      ⟨Nat.mod_lt _ (by norm_num), by rw [manifestKey_inj.2 (Nat.mod_mod _ _), hman]⟩
    have hput : (Write.put P EMPTY : Write Key Stored) ∈ postings.flatten :=
      (mem_postings hpostings).2 ⟨_, hentry, .inl ⟨P, by
        rwa [postingKeys_congr (Nat.mod_mod _ _)], rfl⟩⟩
    have hP' : after (fun _ => none) postings.flatten P = some EMPTY :=
      after_of_exists ⟨_, hput, rfl⟩ fun w hw hk => ?_
    · rw [hP']
      exact some_ne_none _
    · obtain ⟨entry, -, ⟨Q, -, rfl⟩ | ⟨c, -, rfl⟩⟩ := (mem_postings hpostings).1 hw
      · rfl
      · exact absurd hk.symm (hP.ne (by simp +decide [Write.key]))

lemma Tiers.reindexed : Tiers W (reindexedC m postings.flatten u) := by
  have hgone : ∀ k, tagOf k ∈ [Tag.segment, Tag.tombstone, Tag.dirty] →
      reindexedC m postings.flatten u k = none := by
    intro k hk
    rw [reindexed_derived (tag_mem (by decide) hk)]
    exact after_of_tag fun w hw he => by
      have := postings_tag hpostings hw
      rw [he] at this
      exact tag_notMem (by decide) this hk
  have hman : ∀ k, tagOf k = Tag.manifest → reindexedC m postings.flatten u k = m.get k :=
    fun k hk => reindexed_frame hpostings (by rw [hk]; decide) fun hmem =>
      absurd (hk.symm.trans (tagOf_sealMeta hmem)) (by decide)
  have hholds : ∀ {P}, Holds (reindexedC m postings.flatten u) P ↔ Holds m.get P := fun {P} => by
    simp only [Holds, hman _ (tagOf_manifestKey _)]
  have hno : ∀ P, ¬ blobHas (reindexedC m postings.flatten u) P := fun P hb => by
    rw [blobHas, hgone _ (show tagOf (blobKeyOf P) ∈ _ by simp [blobKeyOf])] at hb
    exact absurd hb not_mem_nil
  have htomb : ∀ P, reindexedC m postings.flatten u (tombstoneKey P) = none :=
    fun P => hgone _ (by simp)
  refine ⟨fun k hk hc => ?_, fun k hk hc => absurd (hgone k (by simp [hk])) hc,
    fun k hk hc => absurd (hgone k (by simp [hk])) hc, fun k v hk hc => ?_,
    fun k v hk hc => h.manifest_shape k v hk (hman k hk ▸ hc), fun P hP => ?_,
    fun P _ _ => htomb P, fun _ k hc => ⟨fun hk => hc (hgone k (by simp [hk])),
      fun hk => hc (hgone k (by simp [hk]))⟩,
    fun n hn man hc => h.manifests n hn man (hman _ (tagOf_manifestKey n) ▸ hc),
    fun P hc => absurd (htomb P) hc⟩
  · rw [reindexed_derived (tag_mem (by decide) hk)] at hc
    obtain ⟨v, hv⟩ := ne_none_iff_exists'.1 hc
    rcases of_after_eq_some hv with hv | hv
    · exact absurd hv (by simp)
    · obtain ⟨entry, -, ⟨Q, hQ, he⟩ | ⟨c, -, he⟩⟩ := (mem_postings hpostings).1 hv
      · obtain rfl : k = Q := congrArg Write.key he
        exact isPosting_of_mem hQ
      · rw [show k = measureKey c.1 entry.1 from congrArg Write.key he] at hk
        exact absurd hk (by simp +decide)
  · rw [hgone k (by simp [hk])] at hc
    exact absurd hc (by simp)
  · rw [hholds, ← reindexed_posting (u := u) h hentries hpostings hP, present]
    simp [hno P, htomb P]

end

end reindex

/-! ## The log and the snapshot -/

/-- What the log and the snapshot record writes manifests that satisfy `W`. -/
structure Recorded (W : Seq → IndexManifest → Prop) (c : Contents) : Prop where
  event : ∀ k v e, tagOf k = Tag.event → c k = some v → unjsonEvent v = some e → EventWithin W e
  snapshot : ∀ k v seq s, tagOf k = Tag.snapshot → c k = some v → keySeq k = some seq →
    unjsonSnapshot v = some s → W (seq % 2 ^ 32) (jsonManifest s.manifest)

variable {c c' : Contents}

lemma Recorded.mono (h : Recorded W c)
    (hk : ∀ k v, tagOf k ∈ [Tag.event, Tag.snapshot] → c' k = some v → c k = some v) : Recorded W c' :=
  ⟨fun k v e ht hc => h.event k v e ht (hk k v (by simp [ht]) hc),
    fun k v seq s ht hc => h.snapshot k v seq s ht (hk k v (by simp [ht]) hc)⟩

lemma unjsonEvent_event {e e' : StoredEvent} (h : unjsonEvent (.event e) = some e') : e' = e := by
  rw [unjsonEvent] at h
  split_ifs at h
  exact (some.inj h).symm

variable {event : StoredEvent} {sealed : Bool} {s : Contents × ℕ} {pos : ℕ}

lemma Recorded.log {c : Contents} (h : Recorded W c) (hW : EventWithin W event)
    (hlog : logC sealed event (c, pos) = some s) : Recorded W s.1 := by
  obtain ⟨hreplay, -⟩ := log_cases hlog
  have hframe : ∀ k, tagOf k ∈ [Tag.event, Tag.snapshot] → s.1 k = appendC event (pos + 1) c k :=
    fun k hk => replay_frame hreplay (tag_mem (by decide) hk)
  refine ⟨fun k v e ht hc hv => ?_, fun k v seq r ht hc => ?_⟩
  · rw [hframe k (by simp [ht]), appendC, after_put] at hc
    split_ifs at hc with hk
    · obtain rfl := some.inj hc
      obtain rfl := unjsonEvent_event hv
      intro hput
      have hWm := hW hput
      cases hm : event.manifest with
      | none =>
        rw [hm] at hWm
        rwa [show (jsonEvent event).manifest = none by rw [jsonEvent, hm]; rfl]
      | some man =>
        rw [hm] at hWm
        rw [show (jsonEvent event).manifest = some (jsonManifest man) by rw [jsonEvent, hm]; rfl]
        rwa [getD_some, jsonManifest_jsonManifest]
    · exact h.event k v e ht hc hv
  · rw [hframe k (by simp [ht]), append_of_ne (ne_of_tag (by rw [ht]; simp +decide))] at hc
    exact h.snapshot k v seq r ht hc

/-! ## Whole objects -/

def Whole (c : Contents) : Prop := ∀ n, c (payloadKey n) ≠ none ↔ c (manifestKey n) ≠ none

lemma Whole.congr (h : Whole c)
    (hk : ∀ k, tagOf k ∈ [Tag.payload, Tag.manifest] → c' k = c k) : Whole c' := fun n => by
  rw [hk _ (by simp), hk _ (by simp)]
  exact h n

lemma Whole.project {version : ℕ} {body : Bytes} {identity : Option ObjectIdentity} (h : Whole c)
    (hc' : projectC seq version body man sealed identity c = some c') : Whole c' := fun n => by
  obtain ⟨hm, hp⟩ := project_objects hc' n
  rw [hm, hp]
  split_ifs
  · simp
  · exact h n

lemma Whole.replay (h : Whole c) (hc' : replayC sealed event c = some c') : Whole c' := by
  rw [replayC] at hc'
  cases hkind : event.kind with
  | put =>
    rw [hkind] at hc'
    exact h.project hc'
  | retract =>
    rw [hkind] at hc'
    intro n
    obtain ⟨hm, hp⟩ := remove_objects hc' n
    rw [hm, hp]
    split_ifs
    · simp
    · exact h n

lemma Whole.log {c : Contents} (h : Whole c) (hlog : logC sealed event (c, pos) = some s) : Whole s.1 :=
  Whole.replay (h.congr fun k hk => append_of_ne (ne_of_tag fun he => by
    rw [he] at hk
    exact absurd hk (by simp +decide))) (log_cases hlog).1

/-! ## Every operation -/

/-- Contents in step: their tiers, what their log and snapshot record, and their objects. -/
def InStep (W : Seq → IndexManifest → Prop) (c : Contents) : Prop :=
  Tiers W c ∧ Recorded W c ∧ Whole c

def Stepped (W : Seq → IndexManifest → Prop) (m : Store) : Prop := InStep W m.get

lemma InStep.of_meta (h : InStep W c) (hk : ∀ k, tagOf k ≠ Tag.meta → c' k = c k)
    (hs : metaOf c' META_SEALED = some 0 → metaOf c META_SEALED = some 0) : InStep W c' := by
  have htag : ∀ {A : List Byte}, (A.all fun t => !([Tag.meta] : List Byte).contains t) = true →
      ∀ k, tagOf k ∈ A → c' k = c k := fun hA k ht => hk k fun he => by
    have := tag_notMem hA ht
    simp [he] at this
  exact ⟨h.1.congr (htag (by decide)) hs, h.2.1.mono fun k v ht hc => htag (by decide) k ht ▸ hc,
    h.2.2.congr (htag (by decide))⟩

lemma InStep.committed {c : Contents} {u : Bytes} (h : InStep W c) : InStep W (committed c pos u) := by
  refine h.of_meta (fun k hk => committed_of_ne (ne_of_tag (by simpa using hk))
    (ne_of_tag (by simpa using hk))) fun h0 => ?_
  rwa [metaOf, committed_of_ne (by decide) (by decide)] at h0

lemma InStep.log {c : Contents} {n : ℕ} (h : InStep W c) (hsealed : metaOf c META_SEALED = some n)
    (hs : sealed = decide (0 < n)) (hW : EventWithin W event)
    (hlog : logC sealed event (c, pos) = some s) : InStep W s.1 :=
  ⟨h.1.log hsealed hs hW hlog, h.2.1.log hW hlog, h.2.2.log hlog⟩

variable {records : List (Seq × StoredSnapshot)} {events : List StoredEvent}

lemma replayAll_tiers (h : Tiers W c ∧ Whole c) (hsealed : metaOf c META_SEALED = some 0)
    (hrecords : ∀ r ∈ records, W (r.1 % 2 ^ 32) (jsonManifest r.2.manifest))
    (hevents : ∀ e ∈ events, EventWithin W e) (hc' : replayAllC records events c = some c') :
    (Tiers W c' ∧ Whole c') ∧
      (∀ k, tagOf k ∈ [Tag.meta, Tag.event, Tag.segment, Tag.snapshot] → c' k = c k) := by
  simp only [replayAllC, bind_eq_bind, bind_eq_some_iff] at hc'
  obtain ⟨c₁, h₁, h₂⟩ := hc'
  have hmeta : ∀ {c c' : Contents}, (∀ k, tagOf k ∈ [Tag.meta, Tag.event, Tag.segment,
      Tag.snapshot] → c' k = c k) → metaOf c' META_SEALED = metaOf c META_SEALED :=
    fun hk => by rw [metaOf, metaOf, hk _ (by simp)]
  have hsnap : (Tiers W c₁ ∧ Whole c₁) ∧ ∀ k, tagOf k ∈ [Tag.meta, Tag.event, Tag.segment, Tag.snapshot] →
      c₁ k = c k := by
    induction records generalizing c with
    | nil =>
      rw [← some.inj h₁]
      exact ⟨h, fun _ _ => rfl⟩
    | cons r records ih =>
      rw [foldlM_cons, bind_eq_bind, bind_eq_some_iff] at h₁
      obtain ⟨c₂, hr, h₁⟩ := h₁
      have hframe : ∀ k, tagOf k ∈ [Tag.meta, Tag.event, Tag.segment, Tag.snapshot] → c₂ k = c k :=
        fun k hk => project_frame hr hk
      have := ih ⟨h.1.project hsealed rfl (hrecords r (by simp)) hr, h.2.project hr⟩ ((hmeta hframe).trans hsealed)
        (fun r hr => hrecords r (by simp [hr])) h₁
      exact ⟨this.1, fun k hk => (this.2 k hk).trans (hframe k hk)⟩
  obtain ⟨ht, hframe₁⟩ := hsnap
  have hsealed₁ := (hmeta hframe₁).trans hsealed
  clear h₁
  have hrest : (Tiers W c' ∧ Whole c') ∧ ∀ k, tagOf k ∈ [Tag.meta, Tag.event, Tag.segment, Tag.snapshot] →
      c' k = c₁ k := by
    clear hframe₁
    induction events generalizing c₁ with
    | nil =>
      rw [← some.inj h₂]
      exact ⟨ht, fun _ _ => rfl⟩
    | cons e events ih =>
      rw [foldlM_cons, bind_eq_bind, bind_eq_some_iff] at h₂
      obtain ⟨c₂, he, h₂⟩ := h₂
      have hframe : ∀ k, tagOf k ∈ [Tag.meta, Tag.event, Tag.segment, Tag.snapshot] →
          c₂ k = c₁ k := fun k hk => replay_frame he hk
      have := ih (fun e he => hevents e (by simp [he])) c₂ h₂
        ⟨ht.1.replay hsealed₁ rfl (hevents e (by simp)) he, ht.2.replay he⟩ ((hmeta hframe).trans hsealed₁)
      exact ⟨this.1, fun k hk => (this.2 k hk).trans (hframe k hk)⟩
  exact ⟨hrest.1, fun k hk => (hrest.2 k hk).trans (hframe₁ k hk)⟩

lemma mem_eventsC {snapshotAt : ℕ}
    (h : eventsC m snapshotAt = some events) {e : StoredEvent} (he : e ∈ events) :
    ∃ k v, tagOf k = Tag.event ∧ m.get k = some v ∧ snapshotAt < positionOf k ∧ unjsonEvent v = some e := by
  simp only [eventsC, bind_eq_bind, bind_eq_some_iff, Option.pure_def, Option.some.injEq] at h
  obtain ⟨out, hout, rfl⟩ := h
  obtain ⟨l, hl, he⟩ := mem_flatten.1 he
  obtain ⟨⟨k, v⟩, hkv, hg⟩ := (mem_of_mapM hout).1 hl
  obtain ⟨hget, hpre, -⟩ := mem_scan.1 hkv
  rw [eventEntry] at hg
  split_ifs at hg with hpos
  · rw [← some.inj hg] at he
    exact absurd he not_mem_nil
  · obtain ⟨e', he', rfl⟩ := map_eq_some_iff.1 hg
    rw [mem_singleton] at he
    exact ⟨k, v, tagOf_of_isPrefix hpre, hget, not_le.1 hpos, he ▸ he'⟩

lemma mem_snapshotRecordsC
    (h : snapshotRecordsC m = some records) {r : Seq × StoredSnapshot} (hr : r ∈ records) :
    ∃ k v, tagOf k = Tag.snapshot ∧ m.get k = some v ∧ keySeq k = some r.1 ∧ unjsonSnapshot v = some r.2 := by
  obtain ⟨⟨k, v⟩, hkv, hg⟩ := (mem_of_mapM h).1 hr
  obtain ⟨hget, hpre, -⟩ := mem_scan.1 hkv
  simp only [snapshotEntry, bind_eq_bind, bind_eq_some_iff, Option.pure_def,
    Option.some.injEq] at hg
  obtain ⟨seq, hseq, s, hs, rfl⟩ := hg
  exact ⟨k, v, tagOf_of_isPrefix hpre, hget, hseq, hs⟩

variable {r : LiveRecord}

lemma mem_liveRecordsC {records : List LiveRecord} (h : liveRecordsC m = some records) (hr : r ∈ records) :
    ∃ k v, tagOf k = Tag.identityBySeq ∧ m.get k = some v ∧ keySeq k = some r.seq ∧
      unjsonIdentity v = some r.identity ∧ liveRecordC m.get (r.seq, r.identity) = some [r] := by
  simp only [liveRecordsC, bind_eq_bind, bind_eq_some_iff, Option.pure_def,
    Option.some.injEq] at h
  obtain ⟨identities, hids, out, hout, rfl⟩ := h
  obtain ⟨l, hl, hrl⟩ := mem_flatten.1 hr
  obtain ⟨⟨seq, identity⟩, hentry, hlive⟩ := (mem_of_mapM hout).1 hl
  obtain ⟨⟨k, v⟩, hkv, hg⟩ := (mem_of_mapM hids).1 hentry
  obtain ⟨hget, hpre, -⟩ := mem_scan.1 hkv
  simp only [identityEntry, bind_eq_bind, bind_eq_some_iff, Option.pure_def,
    Option.some.injEq, Prod.mk.injEq] at hg
  obtain ⟨n, hseq, i, hid, hn, hi⟩ := hg
  rw [hn] at hseq
  rw [hi] at hid
  have hr' : l = [r] ∧ r.seq = seq ∧ r.identity = identity := by
    rw [liveRecordC] at hlive
    cases hp : m.get (payloadKey seq) with
    | none =>
      simp only [hp] at hlive
      rw [← some.inj hlive] at hrl
      exact absurd hrl not_mem_nil
    | some payload =>
      simp only [hp, bind_eq_bind, bind_eq_some_iff, Option.pure_def] at hlive
      obtain ⟨version, -, manifest, -, he⟩ := hlive
      rw [← some.inj he, mem_singleton] at hrl
      rw [← some.inj he, hrl]
      exact ⟨rfl, rfl, rfl⟩
  obtain ⟨rfl, rfl, rfl⟩ := hr'
  exact ⟨k, v, tagOf_of_isPrefix hpre, hget, hseq, hid, hlive⟩

lemma manifest_of_liveRecordC {c : Contents} (h : liveRecordC c (r.seq, r.identity) = some [r]) :
    c (manifestKey r.seq) = none ∧ r.manifest = emptyManifest ∨
      c (manifestKey r.seq) = some (.manifest r.manifest) := by
  rw [liveRecordC] at h
  cases hp : c (payloadKey r.seq) with
  | none => simp [hp] at h
  | some payload =>
    simp only [hp, bind_eq_bind, bind_eq_some_iff, Option.pure_def] at h
    obtain ⟨version, -, manifest, hman, he⟩ := h
    obtain rfl : manifest = r.manifest := by
      rw [← (List.cons.inj (some.inj he)).1]
    rw [manifestOf] at hman
    cases hm : c (manifestKey r.seq) with
    | none =>
      simp only [hm, Option.some.injEq] at hman
      exact .inl ⟨rfl, hman.symm⟩
    | some stored =>
      simp only [hm] at hman
      cases stored with
      | manifest man =>
        rw [unjsonManifest] at hman
        split_ifs at hman
        rw [some.inj hman]
        exact .inr rfl
      | _ => simp [unjsonManifest] at hman

lemma snapshot_frame {records : List LiveRecord} {position : ℕ} {u : Bytes} (hk : tagOf k ∉ [Tag.snapshot, Tag.meta]) :
    revised (after m.get ((scan m snapshotPrefix none none).map (fun entry => .delete entry.1) ++ snapshotWrites records ++
      [.put (metaKey META_SNAPSHOT_AT) (.raw (writeU32 position))])) u k = m.get k := by
  rw [revised_of_ne (ne_of_tag fun he => hk (by rw [he]; simp))]
  refine after_of_tag fun w hw he => hk (he ▸ ?_)
  simp only [snapshotWrites, mem_append, List.mem_map, mem_singleton] at hw
  rcases hw with (⟨e, hmem, rfl⟩ | ⟨r, -, rfl⟩) | rfl
  · rw [Write.key, tagOf_of_isPrefix (mem_scan.1 hmem).2.1]
    simp
  · simp [Write.key]
  · simp [Write.key]

lemma compact_frame {positions : List ℕ} {to' : ℕ} {u : Bytes} (hk : tagOf k ∉ [Tag.event, Tag.meta]) :
    revised (after m.get (positions.map (fun position => .delete (eventKey position)) ++
      [.put (metaKey META_COMPACTED_TO) (.raw (writeU32 to'))])) u k = m.get k := by
  rw [revised_of_ne (ne_of_tag fun he => hk (by rw [he]; simp))]
  refine after_of_tag fun w hw he => hk (he ▸ ?_)
  rcases mem_append.1 hw with hw | hw
  · obtain ⟨p, -, rfl⟩ := List.mem_map.1 hw
    simp [Write.key]
  · rw [mem_singleton.1 hw]
    simp [Write.key]

variable {cond : Conditions}

lemma stepped_safe (hcond : ∀ c e, cond.event c e → EventWithin W e)
    {op : StoreOp} (h : Stepped W m) (hmeets : op.Meets cond claim m) :
    (op.prog claim).safe (Stepped W) (fun _ _ => True) m := by
  have ⟨ht, hrec, hwhole⟩ := h
  have hlog : ∀ n c pos event s, (InStep W c ∧ metaOf c META_SEALED = some n) →
      cond.event c event → logC (decide (0 < n)) event (c, pos) = some s →
      InStep W s.1 ∧ metaOf s.1 META_SEALED = some n :=
    fun n c pos event s ⟨hc, hs⟩ hok hlog =>
      ⟨hc.log hs rfl (hcond _ _ hok) hlog, (log_meta hlog _).trans hs⟩
  have hne : ∀ {k}, tagOf k ≠ Tag.meta → ∀ name, k ≠ metaKey name := fun hk name =>
    ne_of_tag (by simpa using hk)
  have hframe : ∀ {m' : Store} (tags : List Byte), (∀ k, tagOf k ∉ tags → k ∉ SEAL_METAS →
      m'.get k = m.get k) → ([Tag.event, Tag.snapshot, Tag.payload, Tag.manifest].all
        fun t => !(Tag.meta :: tags).contains t) = true → Recorded W m'.get ∧ Whole m'.get := by
    intro m' tags hk htags
    have hkeep : ∀ k, tagOf k ∈ [Tag.event, Tag.snapshot, Tag.payload, Tag.manifest] →
        m'.get k = m.get k := fun k ht => by
      have hnot := tag_notMem htags ht
      rw [mem_cons, not_or] at hnot
      exact hk k hnot.2 fun hmem => hnot.1 (tagOf_sealMeta hmem)
    exact ⟨hrec.mono fun k v ht hc => hkeep k (tag_mem (by decide) ht) ▸ hc,
      hwhole.congr fun k ht => hkeep k (tag_mem (by decide) ht)⟩
  cases op with
  | transact ops =>
    refine transact_safe fun n p c pos u m' hn hp hrun hm' => ⟨?_, trivial⟩
    have hc := runOps_induct (J := fun c _ => InStep W c ∧ metaOf c META_SEALED = some n) (hlog n)
      (hmeets n p hn hp) ⟨h, hn⟩ hrun
    rw [Stepped, hm']
    exact hc.1.committed
  | apply event =>
    refine applyEvent_safe fun n p c pos u m' hn hp hrun hm' => ⟨?_, trivial⟩
    have hc := apply_induct (J := fun c _ => InStep W c ∧ metaOf c META_SEALED = some n) (hlog n)
      (s := (m.get, p)) hmeets ⟨h, hn⟩ hrun
    rw [Stepped, hm']
    exact hc.1.committed
  | sealPostings =>
    refine discard_safe (Prog.safe_weaken (fun m' hm' => ⟨hm'.1, ?_⟩) (seal_safe ht))
    exact hframe _ hm'.2 (by decide)
  | reindexLenses =>
    refine discard_safe (reindex_safe fun entries postings u m' hentries hpostings hm' =>
      ⟨⟨hm' ▸ ht.reindexed hentries hpostings, ?_⟩, trivial⟩)
    exact hframe DERIVED_TAGS (fun k hk hmeta => by
      rw [hm', reindexed_frame hpostings hk hmeta]) (by decide)
  | rebuildLenses =>
    refine discard_safe (rebuild_safe fun _ snapshotAt events records c u m' _ _ _ hev hr hc hm' =>
      ⟨?_, trivial⟩)
    set c₀ := after m.get (dropped m LENS_TAGS ++ unsealed) with hc₀
    have hstart : ∀ k, (∀ name, k ≠ metaKey name) →
        c₀ k = if tagOf k ∈ LENS_TAGS then none else m.get k := fun k hk => by
      rw [hc₀, after_append, after_unsealed_of_ne (hk _) (hk _), after_dropped m (by decide)]
    have hempty : Tiers W c₀ := Tiers.of_empty fun k hk => by
      rw [hstart k (hne fun he => by rw [he] at hk; exact absurd hk (by decide)),
        if_pos (tag_mem (by decide) hk)]
    have hsealed : metaOf c₀ META_SEALED = some 0 := by
      rw [hc₀, after_append]
      exact metaOf_unsealed _
    have hrecords : ∀ r ∈ records, W (r.1 % 2 ^ 32) (jsonManifest r.2.manifest) := by
      intro r hmem
      by_cases h0 : 0 < snapshotAt
      · rw [if_pos h0] at hr
        obtain ⟨k, v, hk, hget, hseq, hs⟩ := mem_snapshotRecordsC hr hmem
        exact hrec.snapshot k v _ _ hk hget hseq hs
      · rw [if_neg h0] at hr
        rw [← some.inj hr] at hmem
        exact absurd hmem not_mem_nil
    have hevents : ∀ e ∈ events, EventWithin W e := by
      intro e he
      obtain ⟨k, v, hk, hget, -, hv⟩ := mem_eventsC hev he
      exact hrec.event k v e hk hget hv
    have hwhole₀ : Whole c₀ := fun n => by
      rw [hstart _ (hne (by simp +decide)), hstart _ (hne (by simp +decide)), if_pos (by simp +decide),
        if_pos (by simp +decide)]
    obtain ⟨⟨ht', hwhole'⟩, hkeep⟩ :=
      replayAll_tiers ⟨hempty, hwhole₀⟩ hsealed hrecords hevents hc
    have hc' : InStep W c := by
      refine ⟨ht', hrec.mono fun k v hk hv => ?_, hwhole'⟩
      have hkm : tagOf k ≠ Tag.meta := fun he => by rw [he] at hk; exact absurd hk (by decide)
      rwa [hkeep k (tag_mem (by decide) hk), hstart k (hne hkm), if_neg (tag_notMem (by decide) hk)] at hv
    rw [Stepped, hm']
    refine hc'.of_meta (fun k hk => revised_of_ne (hne hk _)) fun h0 => ?_
    rwa [metaOf, revised_of_ne (by decide)] at h0
  | snapshot =>
    refine discard_safe (snapshot_safe fun position records u m' _ hlive hm' => ⟨?_, trivial⟩)
    have hold : ∀ k, tagOf k ∉ [Tag.snapshot, Tag.meta] → m'.get k = m.get k := fun k hk => by
      rw [hm', snapshot_frame hk]
    refine ⟨ht.congr (fun k hk => hold k (tag_notMem (by decide) hk)) fun h0 => ?_,
      ⟨fun k v e hk hc hv => ?_, fun k v seq s hk hc hseq hs => ?_⟩,
      hwhole.congr fun k hk => hold k (tag_notMem (by decide) hk)⟩
    · rwa [metaOf, hm', revised_of_ne (by decide), after_append, after_put, if_neg (by decide),
        after_of_tag fun w hw => ?_] at h0
      simp only [snapshotWrites, mem_append, List.mem_map] at hw
      rcases hw with ⟨e, he, rfl⟩ | ⟨r, -, rfl⟩
      · rw [Write.key, tagOf_of_isPrefix (mem_scan.1 he).2.1]
        simp +decide
      · simp +decide [Write.key]
    · rw [hold k (by rw [hk]; decide)] at hc
      exact hrec.event k v e hk hc hv
    · rw [hm', revised_of_ne (ne_of_tag (by rw [hk]; simp +decide)), after_append, after_put,
        if_neg (ne_of_tag (by rw [hk]; simp +decide)), after_append] at hc
      rcases of_after_eq_some hc with hc | hput
      · rcases of_after_eq_some hc with hc | hdel
        · exact hrec.snapshot k v seq s hk hc hseq hs
        · simp at hdel
      · obtain ⟨r, hr, he⟩ := List.mem_map.1 hput
        obtain ⟨rfl, rfl⟩ := Write.put.inj he
        rw [unjsonSnapshot] at hs
        split_ifs at hs
        obtain rfl := some.inj hs
        obtain rfl : r.seq % 2 ^ 32 = seq := by
          simpa [snapshotKey] using hseq
        obtain ⟨-, -, -, -, -, -, hlive'⟩ := mem_liveRecordsC hlive hr
        have hman : m.get (manifestKey r.seq) = some (.manifest r.manifest) := by
          refine (manifest_of_liveRecordC hlive').resolve_left fun hnone => ?_
          refine absurd hnone.1 ((hwhole r.seq).1 fun hp => ?_)
          rw [liveRecordC, hp] at hlive'
          simp at hlive'
        obtain ⟨n, -, man, -, he⟩ := ht.manifest_shape _ _ (tagOf_manifestKey _) hman
        have hjson : jsonManifest r.manifest = r.manifest := by
          rw [Stored.manifest.inj he, jsonManifest_jsonManifest]
        rw [hjson, hjson, Nat.mod_mod]
        exact ht.manifests _ (Nat.mod_lt _ (by norm_num)) _
          (by rw [manifestKey_inj.2 (Nat.mod_mod _ _), hman])
  | compact keep =>
    refine discard_safe (compact_safe (fun _ _ _ => trivial) fun cut to' u m' _ _ _ hm' =>
      ⟨?_, trivial⟩)
    have hold : ∀ k, tagOf k ∉ [Tag.event, Tag.meta] → m'.get k = m.get k := fun k hk => by
      rw [hm', compact_frame hk]
    refine ⟨ht.congr (fun k hk => hold k (tag_notMem (by decide) hk)) fun h0 => ?_,
      hrec.mono fun k v hk hc => ?_, hwhole.congr fun k hk => hold k (tag_notMem (by decide) hk)⟩
    · rwa [metaOf, hm', revised_of_ne (by decide), after_append, after_put, if_neg (by decide),
        after_of_tag fun w hw => ?_] at h0
      obtain ⟨p, -, rfl⟩ := List.mem_map.1 hw
      simp +decide [Write.key]
    · have hkm : ∀ name, k ≠ metaKey name := fun name => ne_of_tag fun he => by
        rw [he] at hk
        exact absurd hk (by simp +decide)
      rw [hm', revised_of_ne (hkm _), after_append, after_put, if_neg (hkm _)] at hc
      refine (of_after_eq_some hc).resolve_right fun hput => ?_
      obtain ⟨p, -, he⟩ := List.mem_map.1 hput
      exact absurd he (by simp)
  | nextSeq =>
    refine discard_safe (nextSeq_safe fun n u m' _ hm' => ⟨InStep.of_meta h
      (fun k hk => ?_) fun h0 => ?_, trivial⟩)
    · rw [hm', revised_of_ne (hne hk _), after_put, if_neg (hne hk _)]
    · rwa [metaOf, hm', revised_of_ne (by decide), after_put, if_neg (by decide)] at h0
  | openStoreOverKv =>
    refine discard_safe (open_safe fun m' hm' => ⟨InStep.of_meta h
      (fun k hk => hm' k fun hmem => ?_) fun h0 => ?_, fun _ => trivial⟩)
    · simp only [OPEN_KEYS, mem_cons, not_mem_nil, or_false] at hmem
      rcases hmem with rfl | rfl | rfl | rfl <;> simp at hk
    · rwa [metaOf, hm' _ (by decide)] at h0

lemma Reachable.stepped (hcond : ∀ c e, cond.event c e → EventWithin W e)
    (h : Reachable cond m) : Stepped W m :=
  h.induct ⟨Tiers.of_empty fun _ _ => rfl, ⟨fun _ _ _ _ hc => absurd hc (by simp),
    fun _ _ _ _ _ hc => absurd hc (by simp)⟩, fun _ => by simp⟩
    fun _ _ _ hm hmeets => stepped_safe hcond hm hmeets

/-- Whatever runs lead to a store, an object in it has a payload if and only if it has a manifest; a posting
is found, live or in a blob and without a tombstone, if and only if a manifest holds it; and no live posting has
a tombstone. -/
theorem reachable_represents (h : Reachable {} m) : Whole m.get ∧ ∀ P, IsPosting P →
    (present m.get P ↔ Holds m.get P) ∧ (m.get P ≠ none → m.get (tombstoneKey P) = none) :=
  have ⟨ht, _, hwhole⟩ : Stepped (fun _ _ => True) m := h.stepped fun _ _ _ _ => trivial
  ⟨hwhole, fun P hP => ⟨ht.answer P hP, ht.live P hP⟩⟩

theorem reachable_represents_sealed : Whole (ranFrom [.transact [.put 0 1 [] {} none], .sealPostings]).get :=
  (reachable_represents (reachable_ranFrom _)).1

end Zelavis.Db
