import Zelavis.Db.KvRead
import Zelavis.Db.TierRuns

/-!
# What a prefix answers

The set `postingsUnder` builds from one prefix, against the tiers' meaning: the three scans meet
exactly the postings under the prefix, and for the prefix of one lens the union less the
tombstones is the set of identifiers whose manifest holds the posting.
-/

namespace Zelavis.Db

open Lib OrderedMap List

variable {W : Seq → IndexManifest → Prop} {m : Store} {pre : Key} {id : ℕ}

/-! ## The scans -/

/-- A prefix that ends before the identifier of every posting under it. -/
structure Cuts (pre : Key) : Prop where
  tag : tagOf pre ∈ SEALABLE_TAGS
  cut : ∀ l ∈ lensCode, ∀ x, pre <+: l ++ x → pre <+: l

variable {l : Key}

lemma cuts_of_mem (hl : l ∈ lensCode) : Cuts l where
  tag := by
    obtain ⟨t, ht, body, rfl⟩ := lensCode_head hl
    exact ht
  cut l' hl' x h := by rw [(lens_prefix_iff hl hl').1 h]

lemma Cuts.tag_of_isPrefix (hpre : Cuts pre) {k : Key} (h : pre <+: k) : tagOf k ∈ SEALABLE_TAGS := by
  rcases pre with _ | ⟨t, x⟩
  · exact absurd hpre.tag (by decide)
  · rw [tagOf_of_isPrefix h]
    exact hpre.tag

lemma Cuts.prefix_iff (hpre : Cuts pre) {l x : Key} (hl : l ∈ lensCode) : pre <+: l ++ x ↔ pre <+: l :=
  ⟨hpre.cut l hl x, fun h => h.trans (prefix_append l x)⟩

lemma mem_liveIds (h : Tiers W m.get) (hpre : Cuts pre) :
    id ∈ liveIds m pre ↔ ∃ P, IsPosting P ∧ pre <+: P ∧ seqOf P = id ∧ m.get P ≠ none := by
  rw [liveIds, List.mem_map]
  constructor
  · rintro ⟨⟨P, v⟩, he, rfl⟩
    obtain ⟨hget, hp, -, -⟩ := mem_scan.1 he
    have hlive : m.get P ≠ none := by simp [hget]
    exact ⟨P, h.posting_shape P (hpre.tag_of_isPrefix hp) hlive, hp, rfl, hlive⟩
  · rintro ⟨P, -, hp, rfl, hlive⟩
    obtain ⟨v, hv⟩ := Option.ne_none_iff_exists'.1 hlive
    exact ⟨(P, v), mem_scan.2 ⟨hv, hp, by simp, by simp⟩, rfl⟩

lemma mem_removedIds (h : Tiers W m.get) : id ∈ removedIds m pre ↔
      ∃ P, IsPosting P ∧ pre <+: P ∧ seqOf P = id ∧ m.get (tombstoneKey P) ≠ none := by
  rw [removedIds, List.mem_map]
  constructor
  · rintro ⟨⟨k, v⟩, he, rfl⟩
    obtain ⟨hget, hp, -, -⟩ := mem_scan.1 he
    obtain ⟨P, hP, rfl⟩ := h.tombstone_shape k (tagOf_of_isPrefix hp) (by simp [hget])
    refine ⟨P, hP, (cons_prefix_cons.1 hp).2, ?_, by simp [hget]⟩
    rw [hP.eq, seqOf_append, tombstoneKey, under, ← cons_append, seqOf_append]
  · rintro ⟨P, hP, hp, rfl, htomb⟩
    obtain ⟨v, hv⟩ := Option.ne_none_iff_exists'.1 htomb
    refine ⟨(tombstoneKey P, v), mem_scan.2 ⟨hv, cons_prefix_cons.2 ⟨rfl, hp⟩, by simp,
      by simp⟩, ?_⟩
    rw [hP.eq, seqOf_append, tombstoneKey, under, ← cons_append, seqOf_append]

lemma mem_blob {Q : Key} (hQ : IsPosting Q) {v : Stored} (hv : m.get (blobKeyOf Q) = some v) :
    id ∈ decodeSegment (blobBytes v) (segmentIndexOf (blobKeyOf Q) * SEGMENT_SPAN) ↔
      ∃ P, IsPosting P ∧ livePrefixOf P = livePrefixOf Q ∧ blobKeyOf P = blobKeyOf Q ∧
        seqOf P = id ∧ blobHas m.get P := by
  have hseg := segmentOf_lt hQ.seqOf_lt
  have hindex : segmentIndexOf (blobKeyOf Q) = segmentOf (seqOf Q) := by
    rw [blobKeyOf, segmentIndexOf_segmentKey, Nat.mod_eq_of_lt (hseg.trans (by norm_num))]
  have hoffsets : blobOffsets (m.get (blobKeyOf Q)) = decodeSegment (blobBytes v) 0 := by
    rw [hv]
    rfl
  rw [hindex]
  constructor
  · intro hid
    obtain ⟨hlo, hhi⟩ := mem_decodeSegment_lt hid
    have hlt : id < 2 ^ 32 := by
      rw [SEGMENT_SPAN] at hhi
      omega
    have hsegid : segmentOf id = segmentOf (seqOf Q) :=
      Nat.div_eq_of_lt_le hlo (by rwa [Nat.succ_mul])
    have hkey : blobKeyOf (livePrefixOf Q ++ writeU32 id) = blobKeyOf Q := by
      rw [blobKeyOf_append, Nat.mod_eq_of_lt hlt, hsegid, blobKeyOf]
    refine ⟨livePrefixOf Q ++ writeU32 id, isPosting_append hQ.prefix_mem id,
      livePrefixOf_append _ _, hkey, by rw [seqOf_append, Nat.mod_eq_of_lt hlt], ?_⟩
    rw [decodeSegment_base, List.mem_map] at hid
    obtain ⟨o, ho, rfl⟩ := hid
    have ho' := (mem_decodeSegment_lt ho).2
    rw [Nat.zero_add] at ho'
    rw [blobHas, hkey, hoffsets, seqOf_append, Nat.mod_eq_of_lt hlt, Nat.add_comm,
      Nat.add_mul_mod_self_right, Nat.mod_eq_of_lt ho']
    exact ho
  · rintro ⟨P, hP, -, hkey, rfl, hblob⟩
    rw [blobHas, hkey, hoffsets] at hblob
    have hs := ((blobKeyOf_eq_iff hP (hseg.trans (by norm_num))).1 hkey).2
    rw [decodeSegment_base, List.mem_map]
    refine ⟨_, hblob, ?_⟩
    rw [← hs, segmentOf, Nat.mul_comm]
    exact Nat.div_add_mod _ _

lemma exists_blob (hblob : blobHas m.get P) : ∃ v, m.get (blobKeyOf P) = some v := by
  rw [← Option.ne_none_iff_exists']
  intro hnone
  rw [blobHas, hnone] at hblob
  exact absurd hblob not_mem_nil

lemma mem_sealedIds (h : Tiers W m.get) (hpre : Cuts pre) :
    id ∈ sealedIds m pre ↔ ∃ P, IsPosting P ∧ pre <+: P ∧ seqOf P = id ∧ blobHas m.get P := by
  rw [sealedIds, mem_flatMap]
  constructor
  · rintro ⟨⟨k, v⟩, he, hid⟩
    obtain ⟨hget, hp, -, -⟩ := mem_scan.1 he
    obtain ⟨Q, hQ, rfl, -⟩ := h.blob_shape k v (tagOf_of_isPrefix hp) hget
    obtain ⟨P, hP, hl, -, hseq, hblob⟩ := (mem_blob hQ hget).1 hid
    have hp' : pre <+: livePrefixOf Q :=
      (hpre.prefix_iff hQ.prefix_mem).1 (cons_prefix_cons.1 hp).2
    refine ⟨P, hP, ?_, hseq, hblob⟩
    rw [hP.eq, hl]
    exact hp'.trans (prefix_append _ _)
  · rintro ⟨P, hP, hp, rfl, hblob⟩
    obtain ⟨v, hv⟩ := exists_blob hblob
    refine ⟨(blobKeyOf P, v), mem_scan.2 ⟨hv, ?_, by simp, by simp⟩,
      (mem_blob hP hv).2 ⟨P, hP, rfl, rfl, rfl, hblob⟩⟩
    rw [hP.eq, hpre.prefix_iff hP.prefix_mem] at hp
    exact cons_prefix_cons.2 ⟨rfl, hp.trans (prefix_append _ _)⟩

/-! ## The answer -/

/-- Records that keep to identifiers below `2 ^ 31`. -/
def Below (W : Seq → IndexManifest → Prop) : Prop :=
  ∀ n man, W n man → n < 0x80000000 ∧ ∀ e ∈ man.edges, e.2 < 0x80000000

variable {P : Key}

lemma Below.seqOf_lt (hW : Below W) (h : Written W P) : seqOf P < 0x80000000 := by
  obtain ⟨n, man, hman, hP⟩ := h
  obtain ⟨hn, hedges⟩ := hW n man hman
  have hid : ∀ k < 0x80000000, k % 2 ^ 32 < 0x80000000 := fun k hk => by omega
  rcases mem_postingKeys.1 hP with ⟨t, -, rfl⟩ | ⟨c, -, hc⟩ | ⟨e, he, rfl | rfl⟩
  · rw [termKey, seqOf_append]
    exact hid n hn
  · obtain ⟨l, -, rfl⟩ := orderedKey_eq_some.1 hc
    rw [seqOf_append]
    exact hid n hn
  · rw [edgeKey, seqOf_append]
    exact hid _ (hedges e he)
  · rw [reverseEdgeKey, seqOf_append]
    exact hid n hn

lemma Tiers.written_of_holds (h : Tiers W m.get) (hP : Holds m.get P) : Written W P := by
  obtain ⟨n, man, hget, hmem⟩ := hP
  obtain ⟨k, hk, man', hkey, hman⟩ := h.manifest_shape _ _ rfl hget
  refine ⟨n % 2 ^ 32, man, h.manifests _ (Nat.mod_lt _ (by norm_num)) _ ?_, ?_⟩
  · rwa [manifestKey_inj.2 (Nat.mod_mod _ _)]
  · rwa [postingKeys_congr (Nat.mod_mod _ _)]

lemma Tiers.written_of_tier (h : Tiers W m.get) (hP : IsPosting P)
    (htier : m.get P ≠ none ∨ blobHas m.get P) : Written W P := by
  by_cases htomb : m.get (tombstoneKey P) = none
  · exact h.written_of_holds ((h.answer P hP).1 ⟨htier, htomb⟩)
  · exact h.removed P htomb

def InTier (m : Store) (pre : Key) (id : ℕ) : Prop :=
  ∃ P, IsPosting P ∧ pre <+: P ∧ seqOf P = id ∧ (m.get P ≠ none ∨ blobHas m.get P)

def Removed (m : Store) (pre : Key) (id : ℕ) : Prop :=
  ∃ P, IsPosting P ∧ pre <+: P ∧ seqOf P = id ∧ m.get (tombstoneKey P) ≠ none

def RunsBuild (m : Store) (pre : Key) : Prop :=
  Buildable (sealedIds m pre) ∧ Buildable (liveIds m pre) ∧ Buildable (removedIds m pre)

/-- The set a prefix answers, when its runs build: what a tier has and no tombstone takes away. -/
theorem postingsUnder_of_buildable (h : Tiers W m.get) (hW : Below W) (hpre : Cuts pre)
    (hruns : RunsBuild m pre) : (postingsUnder m pre).Valid ∧
      ∀ id, (postingsUnder m pre).Mem id ↔ InTier m pre id ∧ ¬ Removed m pre id := by
  obtain ⟨hs, hl, hr⟩ := hruns
  obtain ⟨hsv, hsm⟩ := build_valid (fun id hid => by
    obtain ⟨P, hP, -, rfl, hblob⟩ := (mem_sealedIds h hpre).1 hid
    exact hW.seqOf_lt (h.written_of_tier hP (.inr hblob))) hs
  obtain ⟨hlv, hlm⟩ := build_valid (fun id hid => by
    obtain ⟨P, hP, -, rfl, hlive⟩ := (mem_liveIds h hpre).1 hid
    exact hW.seqOf_lt (h.written_of_tier hP (.inl hlive))) hl
  obtain ⟨hrv, hrm⟩ := build_valid (fun id hid => by
    obtain ⟨P, hP, -, rfl, htomb⟩ := (mem_removedIds h).1 hid
    exact hW.seqOf_lt (h.removed P htomb)) hr
  obtain ⟨hov, hom⟩ := hsv.or hlv
  obtain ⟨hav, ham⟩ := hov.andNot hrv
  refine ⟨hav, fun id => ?_⟩
  rw [postingsUnder, ham, hom, hsm, hlm, hrm, mem_sealedIds h hpre, mem_liveIds h hpre,
    mem_removedIds h, InTier, Removed, ← exists_or]
  simp only [← and_or_left, or_comm]

/-! ## One lens -/

lemma IsPosting.eq_of_isPrefix {P l : Key} (hP : IsPosting P) (hl : l ∈ lensCode) (h : l <+: P) :
    P = l ++ writeU32 (seqOf P) := by
  have he := hP.eq
  rw [he, lens_prefix_iff hl hP.prefix_mem] at h
  rwa [h]

lemma seqOf_lt_of_lt {P Q l : Key} (hP : IsPosting P) (hQ : IsPosting Q) (hl : l ∈ lensCode)
    (hp : l <+: P) (hq : l <+: Q) (h : P < Q) : seqOf P < seqOf Q := by
  rw [hP.eq_of_isPrefix hl hp, hQ.eq_of_isPrefix hl hq, append_lt_append_left_iff,
    writeU32_lt_iff hP.seqOf_lt hQ.seqOf_lt] at h
  exact h

section

variable (h : Tiers W m.get) (hl : l ∈ lensCode)
include h hl

lemma liveIds_ascending : Ascending (liveIds m l) := by
  refine pairwise_map.2 ((scan_sorted m l none none).imp_of_mem fun {a b} ha hb hab => ?_)
  have hposting : ∀ e ∈ scan m l none none, IsPosting e.1 ∧ l <+: e.1 := by
    rintro ⟨P, v⟩ he
    obtain ⟨hget, hp, -⟩ := mem_scan.1 he
    exact ⟨h.posting_shape P ((cuts_of_mem hl).tag_of_isPrefix hp) (by simp [hget]), hp⟩
  obtain ⟨hP, hp⟩ := hposting a ha
  obtain ⟨hQ, hq⟩ := hposting b hb
  exact seqOf_lt_of_lt hP hQ hl hp hq hab

lemma removedIds_ascending : Ascending (removedIds m l) := by
  refine pairwise_map.2 ((scan_sorted m (tombstonePrefix l) none none).imp_of_mem
    fun {a b} ha hb hab => ?_)
  have hposting : ∀ e ∈ scan m (tombstonePrefix l) none none,
      ∃ P, IsPosting P ∧ l <+: P ∧ e.1 = tombstoneKey P ∧ seqOf e.1 = seqOf P := by
    rintro ⟨k, v⟩ he
    obtain ⟨hget, hp, -⟩ := mem_scan.1 he
    obtain ⟨P, hP, rfl⟩ := h.tombstone_shape k (tagOf_of_isPrefix hp) (by simp [hget])
    refine ⟨P, hP, (cons_prefix_cons.1 hp).2, rfl, ?_⟩
    rw [hP.eq, seqOf_append, tombstoneKey, under, ← cons_append, seqOf_append]
  obtain ⟨P, hP, hp, hka, hsa⟩ := hposting a ha
  obtain ⟨Q, hQ, hq, hkb, hsb⟩ := hposting b hb
  rw [hka, hkb] at hab
  rw [hsa, hsb]
  exact seqOf_lt_of_lt hP hQ hl hp hq (cons_lt_cons_left_iff.1 hab)

lemma sealedIds_ascending : Ascending (sealedIds m l) := by
  have hblob : ∀ e ∈ scan m (segmentPrefix l) none none, ∃ Q, IsPosting Q ∧ livePrefixOf Q = l ∧
      e.1 = blobKeyOf Q ∧ segmentIndexOf e.1 = segmentOf (seqOf Q) ∧
      Ascending (blobOffsets (some e.2)) := by
    rintro ⟨k, v⟩ he
    obtain ⟨hget, hp, -⟩ := mem_scan.1 he
    obtain ⟨Q, hQ, rfl, hasc⟩ := h.blob_shape k v (tagOf_of_isPrefix hp) hget
    refine ⟨Q, hQ, ((lens_prefix_iff hl hQ.prefix_mem).1 (cons_prefix_cons.1 hp).2).symm, rfl, ?_, hasc⟩
    rw [blobKeyOf, segmentIndexOf_segmentKey,
      Nat.mod_eq_of_lt ((segmentOf_lt hQ.seqOf_lt).trans (by norm_num))]
  refine pairwise_flatMap.2 ⟨fun e he => ?_, ?_⟩
  · obtain ⟨Q, hQ, -, -, -, hasc⟩ := hblob e he
    rw [decodeSegment_base]
    exact Ascending.map hasc fun a b hab => Nat.add_lt_add_left hab _
  · refine (scan_sorted m (segmentPrefix l) none none).imp_of_mem
      fun {a b} ha hb hab x hx y hy => ?_
    obtain ⟨P, hP, hlP, hka, hia, -⟩ := hblob a ha
    obtain ⟨Q, hQ, hlQ, hkb, hib, -⟩ := hblob b hb
    have hindex : segmentOf (seqOf P) < segmentOf (seqOf Q) := by
      rw [hka, hkb, blobKeyOf, blobKeyOf, segmentKey, segmentKey, hlP, hlQ,
        append_lt_append_left_iff, writeU32_lt_iff ((segmentOf_lt hP.seqOf_lt).trans (by norm_num))
          ((segmentOf_lt hQ.seqOf_lt).trans (by norm_num))] at hab
      exact hab
    have hx' := (mem_decodeSegment_lt hx).2
    have hy' := (mem_decodeSegment_lt hy).1
    rw [hia, ← Nat.succ_mul] at hx'
    rw [hib] at hy'
    exact hx'.trans_le ((Nat.mul_le_mul_right _ hindex).trans hy')

end

lemma postingsUnder_lens (h : Tiers W m.get) (hW : Below W) (hl : l ∈ lensCode) :
    (postingsUnder m l).Valid ∧
      ∀ id, (postingsUnder m l).Mem id ↔ id < 2 ^ 32 ∧ Holds m.get (l ++ writeU32 id) := by
  obtain ⟨hvalid, hmem⟩ := postingsUnder_of_buildable h hW (cuts_of_mem hl)
    ⟨.inl (sealedIds_ascending h hl), .inl (liveIds_ascending h hl), .inl (removedIds_ascending h hl)⟩
  refine ⟨hvalid, fun id => ?_⟩
  have hposting := isPosting_append hl id
  rw [hmem, ← h.answer _ hposting, present]
  constructor
  · rintro ⟨⟨P, hP, hp, rfl, htier⟩, hno⟩
    refine ⟨hP.seqOf_lt, ?_⟩
    rw [← hP.eq_of_isPrefix hl hp]
    exact ⟨htier, by_contra fun htomb => hno ⟨P, hP, hp, rfl, htomb⟩⟩
  · rintro ⟨hid, htier, htomb⟩
    refine ⟨⟨_, hposting, prefix_append _ _, by rw [seqOf_append, Nat.mod_eq_of_lt hid], htier⟩, ?_⟩
    rintro ⟨P, hP, hp, rfl, hremoved⟩
    rw [← hP.eq_of_isPrefix hl hp] at htomb
    exact hremoved htomb

/-! ## Postings and manifests -/

lemma holds_iff : Holds m.get P ↔ ∃ n man, manifestAt m n = some man ∧ P ∈ postingKeys n man := by
  constructor
  · rintro ⟨n, man, hget, hmem⟩
    refine ⟨n % 2 ^ 32, man, manifestAt_eq_some.2 ⟨Nat.mod_lt _ (by norm_num), ?_⟩, ?_⟩
    · rwa [manifestKey_inj.2 (Nat.mod_mod _ _)]
    · rwa [postingKeys_congr (Nat.mod_mod _ _)]
  · rintro ⟨n, man, hman, hmem⟩
    exact ⟨n, man, (manifestAt_eq_some.1 hman).2, hmem⟩

variable {man : IndexManifest} {n : Seq}

lemma mem_postingKeys_term {f t : Utf16} : termPrefix f t ++ writeU32 id ∈ postingKeys n man ↔
      (∃ p ∈ man.terms, utf8 p.1 = utf8 f ∧ utf8 p.2 = utf8 t) ∧ n % 2 ^ 32 = id % 2 ^ 32 := by
  rw [mem_postingKeys]
  constructor
  · rintro (⟨p, hp, he⟩ | ⟨c, -, hc⟩ | ⟨e, -, he | he⟩)
    · obtain ⟨hl, hn⟩ := posting_inj.1 he.symm
      exact ⟨⟨p, hp, termPrefix_inj.1 hl⟩, hn⟩
    · obtain ⟨l, hl, he⟩ := orderedKey_eq_some.1 hc
      obtain ⟨w, -, rfl⟩ := orderedValuePrefix_eq_some.1 hl
      exact absurd (List.cons.inj he).1 (by decide)
    · exact absurd (List.cons.inj he).1 (by decide)
    · exact absurd (List.cons.inj he).1 (by decide)
  · rintro ⟨⟨p, hp, hf, ht⟩, hn⟩
    exact .inl ⟨p, hp, (posting_inj.2 ⟨termPrefix_inj.2 ⟨hf, ht⟩, hn⟩).symm⟩

lemma mem_postingKeys_ordered {c : Utf16} {w : Bytes} :
    orderedColumnPrefix c ++ w ++ writeU32 id ∈ postingKeys n man ↔
      (∃ p ∈ man.columns, utf8 p.1 = utf8 c ∧ writeOrderedValue (.scalar p.2) = some w) ∧
        n % 2 ^ 32 = id % 2 ^ 32 := by
  rw [mem_postingKeys]
  constructor
  · rintro (⟨p, -, he⟩ | ⟨p, hp, hc⟩ | ⟨e, -, he | he⟩)
    · exact absurd (List.cons.inj he).1 (by decide)
    · obtain ⟨l, hl, he⟩ := orderedKey_eq_some.1 hc
      obtain ⟨w', hw', rfl⟩ := orderedValuePrefix_eq_some.1 hl
      obtain ⟨hl', hn⟩ := posting_inj.1 he.symm
      obtain ⟨hcol, rfl⟩ := orderedColumnPrefix_append_inj.1 hl'
      exact ⟨⟨p, hp, hcol, hw'⟩, hn⟩
    · exact absurd (List.cons.inj he).1 (by decide)
    · exact absurd (List.cons.inj he).1 (by decide)
  · rintro ⟨⟨p, hp, hcol, hw⟩, hn⟩
    refine .inr (.inl ⟨p, hp, orderedKey_eq_some.2 ⟨_, orderedValuePrefix_eq_some.2
      ⟨w, hw, rfl⟩, posting_inj.2 ⟨orderedColumnPrefix_append_inj.2 ⟨hcol.symm, rfl⟩, hn.symm⟩⟩⟩)

variable {ty : Utf16}

lemma mem_postingKeys_edge {src : ℕ} : edgePrefix ty src ++ writeU32 id ∈ postingKeys n man ↔
      (∃ e ∈ man.edges, utf8 e.1 = utf8 ty ∧ e.2 % 2 ^ 32 = id % 2 ^ 32) ∧ n % 2 ^ 32 = src % 2 ^ 32 := by
  rw [mem_postingKeys]
  constructor
  · rintro (⟨p, -, he⟩ | ⟨c, -, hc⟩ | ⟨e, hmem, he | he⟩)
    · exact absurd (List.cons.inj he).1 (by decide)
    · obtain ⟨l, hl, he⟩ := orderedKey_eq_some.1 hc
      obtain ⟨w, -, rfl⟩ := orderedValuePrefix_eq_some.1 hl
      exact absurd (List.cons.inj he).1 (by decide)
    · obtain ⟨hl, hid⟩ := posting_inj.1 he.symm
      obtain ⟨hty, hn⟩ := edgePrefix_inj.1 hl
      exact ⟨⟨e, hmem, hty, hid⟩, hn⟩
    · exact absurd (List.cons.inj he).1 (by decide)
  · rintro ⟨⟨e, hmem, hty, hid⟩, hn⟩
    exact .inr (.inr ⟨e, hmem, .inl
      (posting_inj.2 ⟨edgePrefix_inj.2 ⟨hty.symm, hn.symm⟩, hid.symm⟩)⟩)

lemma mem_postingKeys_reverseEdge {dst : ℕ} : reverseEdgePrefix ty dst ++ writeU32 id ∈ postingKeys n man ↔
      (∃ e ∈ man.edges, utf8 e.1 = utf8 ty ∧ e.2 % 2 ^ 32 = dst % 2 ^ 32) ∧ n % 2 ^ 32 = id % 2 ^ 32 := by
  rw [mem_postingKeys]
  constructor
  · rintro (⟨p, -, he⟩ | ⟨c, -, hc⟩ | ⟨e, hmem, he | he⟩)
    · exact absurd (List.cons.inj he).1 (by decide)
    · obtain ⟨l, hl, he⟩ := orderedKey_eq_some.1 hc
      obtain ⟨w, -, rfl⟩ := orderedValuePrefix_eq_some.1 hl
      exact absurd (List.cons.inj he).1 (by decide)
    · exact absurd (List.cons.inj he).1 (by decide)
    · obtain ⟨hl, hid⟩ := posting_inj.1 he.symm
      obtain ⟨hty, hn⟩ := reverseEdgePrefix_inj.1 hl
      exact ⟨⟨e, hmem, hty, hn⟩, hid⟩
  · rintro ⟨⟨e, hmem, hty, hn⟩, hid⟩
    exact .inr (.inr ⟨e, hmem, .inr
      (posting_inj.2 ⟨reverseEdgePrefix_inj.2 ⟨hty.symm, hn.symm⟩, hid.symm⟩)⟩)

end Zelavis.Db
