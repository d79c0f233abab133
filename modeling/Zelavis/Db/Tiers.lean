import Zelavis.Db.PostingKeys

/-!
# The two tiers hold what the manifests say

A posting is a live key or a bit of a sealed blob, and a tombstone takes it away.
-/

namespace Zelavis.Db

open Lib OrderedMap Option

/-! ## Postings of a store -/

def blobKeyOf (P : Key) : Key := segmentKey (livePrefixOf P) (segmentOf (seqOf P))

def blobOffsets (stored : Option Stored) : List ℕ := decodeSegment (stored.elim [] blobBytes) 0

def blobHas (c : Contents) (P : Key) : Prop :=
  seqOf P % SEGMENT_SPAN ∈ blobOffsets (c (blobKeyOf P))

def present (c : Contents) (P : Key) : Prop :=
  (c P ≠ none ∨ blobHas c P) ∧ c (tombstoneKey P) = none

def Holds (c : Contents) (P : Key) : Prop :=
  ∃ seq man, c (manifestKey seq) = some (.manifest man) ∧ P ∈ postingKeys seq man

/-- A posting of a manifest that satisfies `W`. -/
def Written (W : Seq → IndexManifest → Prop) (P : Key) : Prop :=
  ∃ n man, W n man ∧ P ∈ postingKeys n man

/-- What every store keeps to between two writes, when objects are written with manifests that
satisfy `W`. -/
structure Tiers (W : Seq → IndexManifest → Prop) (c : Contents) : Prop where
  posting_shape : ∀ k, tagOf k ∈ SEALABLE_TAGS → c k ≠ none → IsPosting k
  tombstone_shape : ∀ k, tagOf k = Tag.tombstone → c k ≠ none → ∃ P, IsPosting P ∧ k = tombstoneKey P
  dirty_shape : ∀ k, tagOf k = Tag.dirty → c k ≠ none → ∃ P, IsPosting P ∧ k = (markDirty P).key
  blob_shape : ∀ k v, tagOf k = Tag.segment → c k = some v →
    ∃ P, IsPosting P ∧ k = blobKeyOf P ∧ Ascending (blobOffsets (some v))
  manifest_shape : ∀ k v, tagOf k = Tag.manifest → c k = some v →
    ∃ n < 2 ^ 32, ∃ man, k = manifestKey n ∧ v = .manifest (jsonManifest man)
  answer : ∀ P, IsPosting P → (present c P ↔ Holds c P)
  live : ∀ P, IsPosting P → c P ≠ none → c (tombstoneKey P) = none
  unsealed : metaOf c META_SEALED = some 0 → ∀ k, c k ≠ none → tagOf k ≠ Tag.segment ∧ tagOf k ≠ Tag.tombstone
  manifests : ∀ n < 2 ^ 32, ∀ man, c (manifestKey n) = some (.manifest man) → W n man
  removed : ∀ P, c (tombstoneKey P) ≠ none → Written W P

variable {W : Seq → IndexManifest → Prop}

def TIER_TAGS : List Byte :=
  SEALABLE_TAGS ++ [Tag.segment, Tag.tombstone, Tag.dirty, Tag.manifest]

lemma Tiers.congr {c c' : Contents} (h : Tiers W c) (hk : ∀ k, tagOf k ∈ TIER_TAGS → c' k = c k)
    (hs : metaOf c' META_SEALED = some 0 → metaOf c META_SEALED = some 0) : Tiers W c' := by
  have hpost : ∀ k, tagOf k ∈ SEALABLE_TAGS → c' k = c k :=
    fun k hkt => hk k (List.mem_append_left _ hkt)
  have hseg : ∀ k, tagOf k = Tag.segment → c' k = c k := fun k hkt => hk k (by rw [hkt]; decide)
  have htomb : ∀ k, tagOf k = Tag.tombstone → c' k = c k := fun k hkt => hk k (by rw [hkt]; decide)
  have hdirty : ∀ k, tagOf k = Tag.dirty → c' k = c k := fun k hkt => hk k (by rw [hkt]; decide)
  have hman : ∀ k, tagOf k = Tag.manifest → c' k = c k := fun k hkt => hk k (by rw [hkt]; decide)
  have hholds : ∀ {P}, Holds c' P ↔ Holds c P := by
    simp only [Holds, hman _ (tagOf_manifestKey _), implies_true]
  refine ⟨fun k hkt hck => h.posting_shape k hkt (hpost k hkt ▸ hck),
    fun k hkt hck => h.tombstone_shape k hkt (htomb k hkt ▸ hck),
    fun k hkt hck => h.dirty_shape k hkt (hdirty k hkt ▸ hck),
    fun k v hkt hck => h.blob_shape k v hkt (hseg k hkt ▸ hck),
    fun k v hkt hck => h.manifest_shape k v hkt (hman k hkt ▸ hck), fun P hP => ?_,
    fun P hP hcP => ?_, fun h0 k hck => ?_, fun n hn man => ?_, fun P => ?_⟩
  · rw [hholds, ← h.answer P hP, present, present, blobHas, blobHas, hpost P hP.tag,
      htomb _ (tagOf_tombstoneKey P), hseg _ (show tagOf (blobKeyOf P) = Tag.segment from rfl)]
  · rw [htomb _ (tagOf_tombstoneKey P)]
    exact h.live P hP (hpost P hP.tag ▸ hcP)
  · refine ⟨fun hkt => ?_, fun hkt => ?_⟩
    · exact (h.unsealed (hs h0) k (hseg k hkt ▸ hck)).1 hkt
    · exact (h.unsealed (hs h0) k (htomb k hkt ▸ hck)).2 hkt
  · rw [hman _ (tagOf_manifestKey n)]
    exact h.manifests n hn man
  · rw [htomb _ (tagOf_tombstoneKey P)]
    exact h.removed P

lemma blobHas_congr {c c' : Contents} (h : ∀ k, tagOf k = Tag.segment → c' k = c k) (P : Key) :
    blobHas c' P ↔ blobHas c P := by
  rw [blobHas, blobHas, h _ (show tagOf (blobKeyOf P) = Tag.segment from rfl)]

lemma Tiers.of_empty {c : Contents} (h : ∀ k, tagOf k ∈ TIER_TAGS → c k = none) : Tiers W c := by
  have hnone : ∀ {k : Key}, tagOf k ∈ TIER_TAGS → ¬ c k ≠ none := fun hk hc => hc (h _ hk)
  have htag : ∀ {P : Key}, IsPosting P → tagOf P ∈ TIER_TAGS :=
    fun hP => List.mem_append_left _ hP.tag
  refine ⟨fun k hk hc => absurd hc (hnone (List.mem_append_left _ hk)),
    fun k hk hc => absurd hc (hnone (by rw [hk]; decide)),
    fun k hk hc => absurd hc (hnone (by rw [hk]; decide)), fun k v hk hc => ?_,
    fun k v hk hc => ?_, fun P hP => ?_, fun P hP hc => absurd hc (hnone (htag hP)),
    fun _ k hc => ?_, fun n hn man hc => ?_, fun P hc => ?_⟩
  · exact absurd (hc ▸ some_ne_none v) (@hnone k (by rw [hk]; decide))
  · exact absurd (hc ▸ some_ne_none v) (@hnone k (by rw [hk]; decide))
  · refine iff_of_false ?_ ?_
    · rintro ⟨hc | hb, -⟩
      · exact hnone (htag hP) hc
      · rw [blobHas, h _ (by rw [show tagOf (blobKeyOf P) = Tag.segment from rfl]; decide)] at hb
        exact absurd hb List.not_mem_nil
    · rintro ⟨seq, man, hman, -⟩
      exact @hnone (manifestKey seq) (by simp +decide) (hman ▸ some_ne_none _)
  · exact ⟨fun hk => hnone (by rw [hk]; decide) hc, fun hk => hnone (by rw [hk]; decide) hc⟩
  · exact absurd (hc ▸ some_ne_none _) (@hnone (manifestKey n) (by simp +decide))
  · exact absurd hc (@hnone (tombstoneKey P) (by simp +decide))

/-! ## Dropping and adding an object -/

variable {event : StoredEvent} {man : IndexManifest} {identity : Option ObjectIdentity}
  {s : Contents × ℕ} {k : Key} {pos : ℕ} {version : ℕ} {body : Bytes}

section transactions

variable {c c' : Contents} {seq : Seq} {sealed : Bool} {n : ℕ}

lemma holds_drop (hman : c (manifestKey seq) = some (.manifest man))
    (hc' : ∀ k, c' (manifestKey k) = if k % 2 ^ 32 = seq % 2 ^ 32 then none else c (manifestKey k))
    (P : Key) : Holds c' P ↔ Holds c P ∧ P ∉ postingKeys seq man := by
  constructor
  · rintro ⟨k, m, hk, hP⟩
    rw [hc'] at hk
    split_ifs at hk with hne
    refine ⟨⟨k, m, hk, hP⟩, fun hP' => hne ?_⟩
    rw [← owner_of_mem hP, ← owner_of_mem hP']
  · rintro ⟨⟨k, m, hk, hP⟩, hnot⟩
    refine ⟨k, m, ?_, hP⟩
    rw [hc', if_neg, hk]
    intro he
    rw [manifestKey_inj.2 he, hman] at hk
    obtain rfl : man = m := by simpa using hk
    refine hnot ?_
    rw [postingKeys_congr he.symm]
    exact hP

lemma Tiers.unproject (h : Tiers W c) (hsealed : metaOf c META_SEALED = some n)
    (hs : sealed = decide (0 < n)) (hc' : unprojectC seq sealed c = some c') : Tiers W c' := by
  rcases unproject_cases hc' with ⟨-, rfl⟩ | ⟨man, columns, hman, -, hcol, hforget⟩
  · exact h
  set c₁ := after c (retraction seq man columns sealed) with hc₁
  have hframe : ∀ k, tagOf k ∉ SEALABLE_TAGS ++ [Tag.tombstone, Tag.dirty, Tag.measure,
      Tag.manifest] → c₁ k = c k :=
    fun k hk => after_of_tag fun w hw he => hk (he ▸ retraction_tag hcol hw)
  have hseg : ∀ k, tagOf k = Tag.segment → c₁ k = c k :=
    fun k hk => hframe k (by rw [hk]; decide)
  have hmeta : metaOf c₁ META_SEALED = metaOf c META_SEALED := by
    rw [metaOf, metaOf, hframe _ (by simp +decide)]
  have hpost : ∀ P, IsPosting P → c₁ P = if P ∈ postingKeys seq man then none else c P :=
    fun P hP => after_retraction_posting hcol hP
  have htomb : ∀ P, c₁ (tombstoneKey P) =
      if sealed = true ∧ P ∈ postingKeys seq man then some EMPTY else c (tombstoneKey P) :=
    after_retraction_tombstone hcol
  have hmans : ∀ k, c₁ (manifestKey k) =
      if k % 2 ^ 32 = seq % 2 ^ 32 then none else c (manifestKey k) :=
    after_retraction_manifest hcol
  have hold : ∀ k v, c₁ k = some v →
      c k = some v ∨ ∃ P ∈ postingKeys seq man, k = tombstoneKey P ∨ k = (markDirty P).key := by
    intro k v hk
    refine (of_after_eq_some hk).imp_right fun hw => ?_
    rcases (mem_retraction hcol).1 hw with ⟨P, hP, hw⟩ | ⟨m, -, hw⟩ | hw
    · rcases mem_dropPosting.1 hw with hw | ⟨-, hw | hw⟩
      · exact absurd hw (by simp)
      · exact ⟨P, hP, .inl (congrArg Write.key hw)⟩
      · exact ⟨P, hP, .inr (congrArg Write.key hw)⟩
    · exact absurd hw (by simp)
    · exact absurd hw (by simp)
  have hkeep : ∀ k v, tagOf k ≠ Tag.tombstone → tagOf k ≠ Tag.dirty → c₁ k = some v → c k = some v := by
    intro k v ht hd hk
    rcases hold k v hk with hk | ⟨P, -, rfl | rfl⟩
    · exact hk
    · exact absurd (tagOf_tombstoneKey P) ht
    · exact absurd (by simp) hd
  have htiers : Tiers W c₁ := by
    refine ⟨fun k hk hck => ?_, fun k hk hck => ?_, fun k hk hck => ?_,
      fun k v hk hck => h.blob_shape k v hk (hseg k hk ▸ hck), fun k v hk hck => ?_,
      fun P hP => ?_, fun P hP hck => ?_, fun h0 k hck => ?_, fun k hk m hck => ?_,
      fun P hck => ?_⟩
    · obtain ⟨v, hv⟩ := ne_none_iff_exists'.1 hck
      refine h.posting_shape k hk ?_
      rw [hkeep k v (fun he => by rw [he] at hk; exact absurd hk (by decide))
        (fun he => by rw [he] at hk; exact absurd hk (by decide)) hv]
      exact some_ne_none v
    · obtain ⟨v, hv⟩ := ne_none_iff_exists'.1 hck
      rcases hold k v hv with hkv | ⟨P, hP, rfl | rfl⟩
      · exact h.tombstone_shape k hk (by rw [hkv]; exact some_ne_none v)
      · exact ⟨P, isPosting_of_mem hP, rfl⟩
      · exact absurd hk (by simp +decide)
    · rcases after_retraction_dirty hcol hk with he | ⟨P, hP, rfl⟩
      · exact h.dirty_shape k hk (by rwa [hc₁, he] at hck)
      · exact ⟨P, isPosting_of_mem hP, rfl⟩
    · exact h.manifest_shape k v hk (hkeep k v (by rw [hk]; decide) (by rw [hk]; decide) hck)
    · -- a posting of the object is no longer live, and no longer sealed without a tombstone
      rw [holds_drop hman hmans, ← h.answer P hP, present, present, hpost P hP, htomb, blobHas_congr hseg]
      by_cases hmem : P ∈ postingKeys seq man
      · refine iff_of_false ?_ fun hp => hp.2 hmem
        rintro ⟨hlive | hblob, hnone⟩
        · simp [hmem] at hlive
        · have hns : sealed ≠ true := fun hst => by simp [hst, hmem] at hnone
          have hn0 : n = 0 := by
            rw [hs] at hns
            simpa using hns
          subst hn0
          rw [blobHas] at hblob
          cases hb : c (blobKeyOf P) with
          | none =>
            rw [hb] at hblob
            exact absurd hblob List.not_mem_nil
          | some v =>
            exact (h.unsealed hsealed _ (by rw [hb]; exact some_ne_none v)).1 rfl
      · simp [hmem]
    · rw [hpost P hP] at hck
      split_ifs at hck with hmem
      · exact absurd rfl hck
      · rw [htomb, if_neg fun hp => hmem hp.2]
        exact h.live P hP hck
    · rw [hmeta] at h0
      obtain ⟨v, hv⟩ := ne_none_iff_exists'.1 hck
      rw [hsealed] at h0
      have hn0 : n = 0 := some.inj h0
      refine ⟨fun hk => ?_, fun hk => ?_⟩
      · rw [hseg k hk] at hck
        exact (h.unsealed (hsealed.trans h0) k hck).1 hk
      · obtain ⟨P, -, rfl⟩ : ∃ P, IsPosting P ∧ k = tombstoneKey P := by
          rcases hold k v hv with hkv | ⟨P, hP, rfl | rfl⟩
          · exact h.tombstone_shape k hk (by rw [hkv]; exact some_ne_none v)
          · exact ⟨P, isPosting_of_mem hP, rfl⟩
          · exact absurd hk (by simp +decide)
        rw [htomb, if_neg (by simp [hs, hn0])] at hck
        exact (h.unsealed (hsealed.trans h0) _ hck).2 hk
    · rw [hmans] at hck
      split_ifs at hck
      exact h.manifests k hk m hck
    · rw [htomb] at hck
      split_ifs at hck with hmem
      · refine ⟨seq % 2 ^ 32, man, h.manifests _ (Nat.mod_lt _ (by norm_num)) man ?_, ?_⟩
        · rw [manifestKey_inj.2 (Nat.mod_mod _ _), hman]
        · rw [postingKeys_congr (Nat.mod_mod _ _)]
          exact hmem.2
      · exact h.removed P hck
  refine htiers.congr (fun k hk => forgetIdentity_frame hforget (tag_notMem (by decide) hk))
    fun h0 => ?_
  rwa [metaOf, forgetIdentity_frame hforget (by simp +decide)] at h0

lemma holds_add {columns : List Key} (hnone : c (manifestKey seq) = none)
    (hcol : columnKeys seq man = some columns) (hc' : ∀ k, c' (manifestKey k) =
      if k % 2 ^ 32 = seq % 2 ^ 32 then some (.manifest (jsonManifest man)) else c (manifestKey k))
    (P : Key) : Holds c' P ↔ Holds c P ∨ P ∈ postingKeys seq man := by
  constructor
  · rintro ⟨k, m, hk, hP⟩
    rw [hc'] at hk
    split_ifs at hk with he
    · obtain rfl : jsonManifest man = m := by simpa using hk
      rw [postingKeys_congr he, postingKeys_jsonManifest hcol] at hP
      exact .inr hP
    · exact .inl ⟨k, m, hk, hP⟩
  · rintro (⟨k, m, hk, hP⟩ | hP)
    · refine ⟨k, m, ?_, hP⟩
      rw [hc', if_neg, hk]
      intro he
      rw [manifestKey_inj.2 he, hnone] at hk
      exact absurd hk (by simp)
    · exact ⟨seq, jsonManifest man, by rw [hc', if_pos rfl], by
        rwa [postingKeys_jsonManifest hcol]⟩

lemma unproject_manifest (hc' : unprojectC seq sealed c = some c') : c' (manifestKey seq) = none := by
  rcases unproject_cases hc' with ⟨hnone, rfl⟩ | ⟨man, columns, -, -, hcol, hforget⟩
  · exact hnone
  · rw [forgetIdentity_frame hforget (by simp +decide), after_retraction_manifest hcol, if_pos rfl]

lemma unproject_frame (hc' : unprojectC seq sealed c = some c')
    (hk : tagOf k ∈ [Tag.payload, Tag.meta, Tag.event, Tag.segment, Tag.snapshot]) : c' k = c k := by
  rcases unproject_cases hc' with ⟨-, rfl⟩ | ⟨man, columns, -, -, hcol, hforget⟩
  · rfl
  · rw [forgetIdentity_frame hforget (tag_notMem (by decide) hk)]
    exact after_of_tag fun w hw he =>
      tag_notMem (by decide) hk (he ▸ retraction_tag hcol hw)

lemma Tiers.project (h : Tiers W c) (hsealed : metaOf c META_SEALED = some n)
    (hs : sealed = decide (0 < n)) (hW : W (seq % 2 ^ 32) (jsonManifest man))
    (hc' : projectC seq version body man sealed identity c = some c') : Tiers W c' := by
  obtain ⟨c₁, columns, h₁, hcol, rfl⟩ := project_cases hc'
  have ht₁ := h.unproject hsealed hs h₁
  have hnone := unproject_manifest h₁
  have hmeta₁ : metaOf c₁ META_SEALED = some n := by
    rw [← hsealed, metaOf, metaOf, unproject_frame h₁ (by simp)]
  set c₂ := after c₁ (projection seq version body man columns sealed) with hc₂
  have hframe : ∀ k, tagOf k ∉ SEALABLE_TAGS ++ [Tag.tombstone, Tag.dirty, Tag.measure,
      Tag.manifest, Tag.payload] → c₂ k = c₁ k :=
    fun k hk => after_of_tag fun w hw he => hk (he ▸ projection_tag hcol hw)
  have hseg : ∀ k, tagOf k = Tag.segment → c₂ k = c₁ k :=
    fun k hk => hframe k (by rw [hk]; decide)
  have hmeta : metaOf c₂ META_SEALED = metaOf c₁ META_SEALED := by
    rw [metaOf, metaOf, hframe _ (by simp +decide)]
  have hpost : ∀ P, IsPosting P → c₂ P = if P ∈ postingKeys seq man then some EMPTY else c₁ P :=
    fun P hP => after_projection_posting hcol hP
  have htomb : ∀ P, c₂ (tombstoneKey P) =
      if sealed = true ∧ P ∈ postingKeys seq man then none else c₁ (tombstoneKey P) :=
    after_projection_tombstone hcol
  have hmans : ∀ k, c₂ (manifestKey k) =
      if k % 2 ^ 32 = seq % 2 ^ 32 then some (.manifest (jsonManifest man))
      else c₁ (manifestKey k) :=
    after_projection_manifest hcol
  -- an unsealed store has no tombstones to cancel
  have hgone : ∀ P ∈ postingKeys seq man, c₂ (tombstoneKey P) = none := by
    intro P hP
    rw [htomb]
    split_ifs with hif
    · rfl
    · have hn0 : n = 0 := by
        have hns : sealed ≠ true := fun hst => hif ⟨hst, hP⟩
        rw [hs] at hns
        simpa using hns
      subst hn0
      by_contra hne
      exact (ht₁.unsealed hmeta₁ _ hne).2 rfl
  have hold : ∀ k v, c₂ k = some v → c₁ k = some v ∨ k = payloadKey seq ∨ k = manifestKey seq ∨
      (∃ P ∈ postingKeys seq man, k = P ∨ k = (markDirty P).key) ∨ tagOf k = Tag.measure := by
    intro k v hk
    refine (of_after_eq_some hk).imp_right fun hw => ?_
    rcases (mem_projection hcol).1 hw with hw | ⟨P, hP, hw⟩ | ⟨m, -, hw⟩ | hw
    · exact .inl (congrArg Write.key hw)
    · rcases mem_addPosting.1 hw with hw | ⟨-, hw | hw⟩
      · exact .inr (.inr (.inl ⟨P, hP, .inl (congrArg Write.key hw)⟩))
      · exact absurd hw (by simp)
      · exact .inr (.inr (.inl ⟨P, hP, .inr (congrArg Write.key hw)⟩))
    · refine .inr (.inr (.inr ?_))
      rw [show k = measureKey m.1 seq from congrArg Write.key hw]
      simp
    · exact .inr (.inl (congrArg Write.key hw))
  have hkeep : ∀ k, tagOf k ∉ SEALABLE_TAGS ++ [Tag.payload, Tag.manifest, Tag.dirty, Tag.measure] →
      c₂ k ≠ none → c₁ k ≠ none := by
    intro k htag hck
    obtain ⟨v, hv⟩ := ne_none_iff_exists'.1 hck
    rcases hold k v hv with hkv | rfl | rfl | ⟨P, hP, rfl | rfl⟩ | hm
    · rw [hkv]
      exact some_ne_none v
    · exact absurd (by simp) htag
    · exact absurd (by simp) htag
    · exact absurd (List.mem_append_left _ (isPosting_of_mem hP).tag) htag
    · exact absurd (by simp) htag
    · exact absurd (by simp [hm]) htag
  have htiers : Tiers W c₂ := by
    refine ⟨fun k hk hck => ?_, fun k hk hck => ?_, fun k hk hck => ?_,
      fun k v hk hck => ht₁.blob_shape k v hk (hseg k hk ▸ hck), fun k v hk hck => ?_,
      fun P hP => ?_, fun P hP hck => ?_, fun h0 k hck => ?_, fun k hk m hck => ?_,
      fun P hck => ?_⟩
    · obtain ⟨v, hv⟩ := ne_none_iff_exists'.1 hck
      rcases hold k v hv with hkv | rfl | rfl | ⟨P, hP, rfl | rfl⟩ | hm
      · exact ht₁.posting_shape k hk (by rw [hkv]; exact some_ne_none v)
      · exact absurd hk (by simp +decide)
      · exact absurd hk (by simp +decide)
      · exact isPosting_of_mem hP
      · exact absurd hk (by simp +decide)
      · exact absurd hk (by rw [hm]; decide)
    · exact ht₁.tombstone_shape k hk (hkeep k (by rw [hk]; decide) hck)
    · obtain ⟨v, hv⟩ := ne_none_iff_exists'.1 hck
      rcases hold k v hv with hkv | rfl | rfl | ⟨P, hP, rfl | rfl⟩ | hm
      · exact ht₁.dirty_shape k hk (by rw [hkv]; exact some_ne_none v)
      · exact absurd hk (by simp +decide)
      · exact absurd hk (by simp +decide)
      · exact absurd (hk ▸ (isPosting_of_mem hP).tag) (by decide)
      · exact ⟨P, isPosting_of_mem hP, rfl⟩
      · exact absurd hk (by rw [hm]; decide)
    · rcases hold k v hck with hkv | rfl | rfl | ⟨P, hP, rfl | rfl⟩ | hm
      · exact ht₁.manifest_shape k v hk hkv
      · exact absurd hk (by simp +decide)
      · rw [hmans, if_pos rfl] at hck
        exact ⟨seq % 2 ^ 32, Nat.mod_lt _ (by norm_num), man,
          manifestKey_inj.2 (Nat.mod_mod _ _).symm, (some.inj hck).symm⟩
      · exact absurd (hk ▸ (isPosting_of_mem hP).tag) (by decide)
      · exact absurd hk (by simp +decide)
      · exact absurd hk (by rw [hm]; decide)
    · rw [holds_add hnone hcol hmans, ← ht₁.answer P hP, present, present, hpost P hP, blobHas_congr hseg]
      by_cases hmem : P ∈ postingKeys seq man
      · simp [hmem, hgone P hmem]
      · rw [htomb]
        simp [hmem]
    · rw [hpost P hP] at hck
      split_ifs at hck with hmem
      · exact hgone P hmem
      · rw [htomb, if_neg fun hp => hmem hp.2]
        exact ht₁.live P hP hck
    · rw [hmeta, hmeta₁] at h0
      refine ⟨fun hk => ?_, fun hk => ?_⟩
      · rw [hseg k hk] at hck
        exact (ht₁.unsealed (hmeta₁.trans h0) k hck).1 hk
      · exact (ht₁.unsealed (hmeta₁.trans h0) k (hkeep k (by rw [hk]; decide) hck)).2 hk
    · rw [hmans] at hck
      split_ifs at hck with he
      · obtain rfl : jsonManifest man = m := by simpa using hck
        rw [← he, Nat.mod_eq_of_lt hk] at hW
        exact hW
      · exact ht₁.manifests k hk m hck
    · rw [htomb] at hck
      split_ifs at hck
      · exact absurd rfl hck
      · exact ht₁.removed P hck
  refine htiers.congr (fun k hk => recordIdentity_frame (tag_notMem (by decide) hk)) fun h0 => ?_
  rwa [metaOf, recordIdentity_frame (by simp +decide)] at h0

lemma project_frame (hc' : projectC seq version body man sealed identity c = some c')
    (hk : tagOf k ∈ [Tag.meta, Tag.event, Tag.segment, Tag.snapshot]) : c' k = c k := by
  obtain ⟨c₁, columns, h₁, hcol, rfl⟩ := project_cases hc'
  rw [recordIdentity_frame (tag_notMem (by decide) hk)]
  refine Eq.trans (after_of_tag fun w hw he => ?_) (unproject_frame h₁ (tag_mem (by decide) hk))
  exact tag_notMem (by decide) hk (he ▸ projection_tag hcol hw)

lemma remove_frame (hc' : removeC seq sealed c = some c')
    (hk : tagOf k ∈ [Tag.meta, Tag.event, Tag.segment, Tag.snapshot]) : c' k = c k := by
  obtain ⟨c₁, h₁, rfl⟩ := map_eq_some_iff.1 hc'
  rw [after_delete, if_neg (ne_of_tag fun he => ?_), unproject_frame h₁ (tag_mem (by decide) hk)]
  rw [he] at hk
  exact absurd hk (by simp +decide)

lemma replay_frame (hc' : replayC sealed event c = some c')
    (hk : tagOf k ∈ [Tag.meta, Tag.event, Tag.segment, Tag.snapshot]) : c' k = c k := by
  rw [replayC] at hc'
  cases hkind : event.kind with
  | put =>
    rw [hkind] at hc'
    exact project_frame hc' hk
  | retract =>
    rw [hkind] at hc'
    exact remove_frame hc' hk

lemma append_of_ne (hk : k ≠ eventKey pos) : appendC event pos c k = c k := by
  rw [appendC, after_put, if_neg hk]

lemma log_cases (h : logC sealed event (c, pos) = some s) :
    replayC sealed event (appendC event (pos + 1) c) = some s.1 ∧ s.2 = pos + 1 := by
  obtain ⟨c', hc', rfl⟩ := map_eq_some_iff.1 h
  exact ⟨hc', rfl⟩

lemma log_meta
    (h : logC sealed event (c, pos) = some s) (name : Utf16) : metaOf s.1 name = metaOf c name := by
  rw [metaOf, metaOf, replay_frame (log_cases h).1 (by simp), append_of_ne (ne_of_tag (by simp +decide))]

lemma unproject_manifests (hc' : unprojectC seq sealed c = some c') (k : Seq) :
    c' (manifestKey k) = if k % 2 ^ 32 = seq % 2 ^ 32 then none else c (manifestKey k) := by
  rcases unproject_cases hc' with ⟨hnone, rfl⟩ | ⟨man, columns, -, -, hcol, hforget⟩
  · split_ifs with he
    · rw [manifestKey_inj.2 he, hnone]
    · rfl
  · rw [forgetIdentity_frame hforget (by simp +decide), after_retraction_manifest hcol]

lemma project_objects (hc' : projectC seq version body man sealed identity c = some c') (k : Seq) :
    c' (manifestKey k) = (if k % 2 ^ 32 = seq % 2 ^ 32 then
      some (.manifest (jsonManifest man)) else c (manifestKey k)) ∧
    c' (payloadKey k) = if k % 2 ^ 32 = seq % 2 ^ 32 then some (encodePayload version body)
      else c (payloadKey k) := by
  obtain ⟨c₁, columns, h₁, hcol, rfl⟩ := project_cases hc'
  rw [recordIdentity_frame (by simp +decide), recordIdentity_frame (by simp +decide),
    after_projection_manifest hcol, after_projection_payload hcol, unproject_manifests h₁,
    unproject_frame h₁ (by simp)]
  split_ifs <;> simp

lemma remove_objects (hc' : removeC seq sealed c = some c') (k : Seq) :
    c' (manifestKey k) = (if k % 2 ^ 32 = seq % 2 ^ 32 then none else c (manifestKey k)) ∧
    c' (payloadKey k) = if k % 2 ^ 32 = seq % 2 ^ 32 then none else c (payloadKey k) := by
  obtain ⟨c₁, h₁, rfl⟩ := map_eq_some_iff.1 hc'
  rw [after_delete, if_neg (ne_of_tag (by simp +decide)), unproject_manifests h₁, after_delete,
    unproject_frame h₁ (by simp)]
  simp [payloadKey_inj]

/-- An event writes a manifest that satisfies `W`, as JSON keeps it. -/
def EventWithin (W : Seq → IndexManifest → Prop) (event : StoredEvent) : Prop :=
  event.kind = .put → W (event.seq % 2 ^ 32) (jsonManifest (event.manifest.getD emptyManifest))

section

variable (h : Tiers W c) (hsealed : metaOf c META_SEALED = some n) (hs : sealed = decide (0 < n))
  (hW : EventWithin W event)
include h hsealed hs hW

lemma Tiers.replay
    (hc' : replayC sealed event c = some c') : Tiers W c' := by
  rw [replayC] at hc'
  cases hkind : event.kind with
  | put =>
    rw [hkind] at hc'
    exact h.project hsealed hs (hW hkind) hc'
  | retract =>
    rw [hkind] at hc'
    obtain ⟨c₁, h₁, rfl⟩ := map_eq_some_iff.1 hc'
    refine (h.unproject hsealed hs h₁).congr (fun k hk => ?_) fun h0 => ?_
    · rw [after_delete, if_neg (ne_of_tag fun he => ?_)]
      rw [he] at hk
      exact absurd hk (by simp +decide)
    · rwa [metaOf, after_delete, if_neg (ne_of_tag (by simp +decide))] at h0

lemma Tiers.log (hlog : logC sealed event (c, pos) = some s) : Tiers W s.1 := by
  have happend : ∀ k, tagOf k ≠ Tag.event → appendC event (pos + 1) c k = c k :=
    fun k hk => append_of_ne (ne_of_tag hk)
  have hmeta : metaOf (appendC event (pos + 1) c) META_SEALED = metaOf c META_SEALED := by
    rw [metaOf, metaOf, happend _ (by simp +decide)]
  refine Tiers.replay (h.congr (fun k hk => happend k fun he => ?_) fun h0 => hmeta ▸ h0)
    (hmeta.trans hsealed) hs hW (log_cases hlog).1
  rw [he] at hk
  exact absurd hk (by simp +decide)

end

end transactions

end Zelavis.Db
