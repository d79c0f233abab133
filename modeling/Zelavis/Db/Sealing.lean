import Zelavis.Db.Runs

/-!
# Sealing keeps the tiers in step

A seal folds live postings into blobs and clears the bits tombstones point at, one group of
postings at a time: those of one live prefix whose identifiers fall in one span.
-/

namespace Zelavis.Db

open Lib OrderedMap List
open Prog hiding pure bind bind_assoc get scan

/-! ## Groups of postings -/

lemma blobKeyOf_append (l : Key) (n : ℕ) :
    blobKeyOf (l ++ writeU32 n) = segmentKey l (segmentOf (n % 2 ^ 32)) := by
  rw [blobKeyOf, livePrefixOf_append, seqOf_append]

lemma segmentOf_lt {n : ℕ} (h : n < 2 ^ 32) : segmentOf n < 2 ^ 16 := by
  rw [segmentOf, SEGMENT_SPAN]
  omega

variable {P : Key}

lemma IsPosting.seqOf_lt (h : IsPosting P) : seqOf P < 2 ^ 32 := by
  obtain ⟨l, -, id, hid, rfl⟩ := h
  rw [seqOf_append]
  exact Nat.mod_lt _ (by norm_num)

lemma IsPosting.eq (h : IsPosting P) : P = livePrefixOf P ++ writeU32 (seqOf P) := by
  obtain ⟨l, -, id, -, rfl⟩ := h
  rw [livePrefixOf_append, seqOf_append, writeU32_mod]

lemma IsPosting.prefix_mem (h : IsPosting P) : livePrefixOf P ∈ lensCode := by
  obtain ⟨l, hl, id, -, rfl⟩ := h
  rwa [livePrefixOf_append]

lemma blobKeyOf_eq_iff (hP : IsPosting P) {l : Key} {n : ℕ} (hn : n < 2 ^ 32) :
    blobKeyOf P = segmentKey l n ↔ livePrefixOf P = l ∧ segmentOf (seqOf P) = n := by
  rw [blobKeyOf, segmentKey_inj, Nat.mod_eq_of_lt hn, Nat.mod_eq_of_lt
    ((segmentOf_lt hP.seqOf_lt).trans (by norm_num))]

lemma eq_of_group {P Q : Key} (hP : IsPosting P) (hQ : IsPosting Q)
    (hg : blobKeyOf P = blobKeyOf Q) (ho : seqOf P % SEGMENT_SPAN = seqOf Q % SEGMENT_SPAN) : P = Q := by
  obtain ⟨hl, hs⟩ := (blobKeyOf_eq_iff hP
    ((segmentOf_lt hQ.seqOf_lt).trans (by norm_num))).1 hg
  have hid : seqOf P = seqOf Q := by
    rw [segmentOf, segmentOf] at hs
    rw [← Nat.div_add_mod (seqOf P) SEGMENT_SPAN, hs, ho, Nat.div_add_mod]
  rw [hP.eq, hQ.eq, hl, hid]

lemma blobKeyOf_le {P Q : Key} (hP : IsPosting P) (hQ : IsPosting Q) (h : P < Q) :
    blobKeyOf P ≤ blobKeyOf Q := by
  rw [hP.eq, hQ.eq, posting_lt_iff hP.prefix_mem hQ.prefix_mem hP.seqOf_lt hQ.seqOf_lt] at h
  have hcons : ∀ x y : Key, x < y → Tag.segment :: x < Tag.segment :: y :=
    fun x y hxy => cons_lt_cons_left_iff.2 hxy
  rw [blobKeyOf, blobKeyOf, segmentKey, segmentKey, under, under, cons_append, cons_append]
  rcases h with h | ⟨hl, hn⟩
  · refine (hcons _ _ ?_).le
    rw [posting_lt_iff hP.prefix_mem hQ.prefix_mem
      ((segmentOf_lt hP.seqOf_lt).trans (by norm_num))
      ((segmentOf_lt hQ.seqOf_lt).trans (by norm_num))]
    exact .inl h
  · rw [hl]
    have hs : segmentOf (seqOf P) ≤ segmentOf (seqOf Q) := Nat.div_le_div_right hn.le
    rcases hs.eq_or_lt with heq | hlt
    · rw [heq]
    · refine (hcons _ _ ?_).le
      rw [posting_lt_iff hQ.prefix_mem hQ.prefix_mem
        ((segmentOf_lt hP.seqOf_lt).trans (by norm_num))
        ((segmentOf_lt hQ.seqOf_lt).trans (by norm_num))]
      exact .inr ⟨rfl, hlt⟩

/-- The group a key belongs to: that of a posting, of a tombstone or of a blob. -/
def groupOf (k : Key) : Option Key :=
  if tagOf k ∈ SEALABLE_TAGS then some (blobKeyOf k)
  else if tagOf k = Tag.segment then some k
  else if tagOf k = Tag.tombstone then some (blobKeyOf (k.drop 1))
  else none

lemma groupOf_posting (h : IsPosting P) : groupOf P = some (blobKeyOf P) :=
  if_pos h.tag

@[simp] lemma groupOf_tombstoneKey (P : Key) : groupOf (tombstoneKey P) = some (blobKeyOf P) := by
  rfl

@[simp] lemma groupOf_segmentKey (l : Key) (n : ℕ) : groupOf (segmentKey l n) = some (segmentKey l n) := by
  rw [groupOf, if_neg (by simp +decide), if_pos (by simp)]

lemma groupOf_eq_none {k : Key}
    (h : tagOf k ∉ SEALABLE_TAGS ++ [Tag.segment, Tag.tombstone]) : groupOf k = none := by
  simp only [mem_append, mem_cons, not_mem_nil, or_false, not_or] at h
  rw [groupOf, if_neg h.1, if_neg h.2.1, if_neg h.2.2]

/-! ## One group rewritten -/

variable {W : Seq → IndexManifest → Prop} {c c' : Contents}

/-- A group whose live keys `L` are folded into its blob and whose tombstones `T` are cleared from
it. -/
theorem Tiers.fold (h : Tiers W c) {G : Key} (hG : tagOf G = Tag.segment)
    {L T : List Key} (hsealed : metaOf c' META_SEALED ≠ some 0)
    (hL : ∀ P ∈ L, IsPosting P ∧ blobKeyOf P = G ∧ c P ≠ none)
    (hT : ∀ P ∈ T, IsPosting P ∧ blobKeyOf P = G ∧ c (tombstoneKey P) ≠ none)
    (hframe : ∀ k, k ≠ G → k ∉ L → (∀ P ∈ T, k ≠ tombstoneKey P) → c' k = c k)
    (hlive : ∀ P ∈ L, c' P = none) (htomb : ∀ P ∈ T, c' (tombstoneKey P) = none)
    (hshape : ∀ v, c' G = some v → (∃ P, IsPosting P ∧ G = blobKeyOf P) ∧ Ascending (blobOffsets (some v)))
    (hoffsets : ∀ i, i ∈ blobOffsets (c' G) ↔ (i ∈ blobOffsets (c G) ∨ ∃ P ∈ L, seqOf P % SEGMENT_SPAN = i) ∧
        ∀ P ∈ T, seqOf P % SEGMENT_SPAN ≠ i) : Tiers W c' := by
  have hold : ∀ k, tagOf k ∉ SEALABLE_TAGS ++ [Tag.segment, Tag.tombstone] → c' k = c k := by
    intro k hk
    simp only [mem_append, mem_cons, not_mem_nil, or_false, not_or] at hk
    refine hframe k (ne_of_tag (hG ▸ hk.2.1)) (fun hmem => hk.1 (hL k hmem).1.tag)
      fun P _ => ne_of_tag hk.2.2
  have hholds : ∀ {P}, Holds c' P ↔ Holds c P := by
    intro P
    simp only [Holds, hold _ (show tagOf (manifestKey _) ∉ _ by simp +decide)]
  have hposting : ∀ P, IsPosting P → P ∉ L → c' P = c P := fun P hP hnot =>
    hframe P (hP.ne (by rw [hG]; decide)) hnot fun Q _ => hP.ne (by simp +decide)
  have htombs : ∀ P, P ∉ T → c' (tombstoneKey P) = c (tombstoneKey P) := fun P hnot =>
    hframe _ (ne_of_tag (by rw [hG]; simp +decide))
      (fun hmem => absurd (hL _ hmem).1.tag (by simp +decide))
      fun Q hQ he => hnot (tombstoneKey_inj.1 he ▸ hQ)
  have hkept : ∀ P, IsPosting P → c' P ≠ none → c P ≠ none := fun P hP hc' => by
    by_cases hmem : P ∈ L
    · exact absurd (hlive P hmem) hc'
    · exact hposting P hP hmem ▸ hc'
  have htkept : ∀ P, c' (tombstoneKey P) ≠ none → c (tombstoneKey P) ≠ none := fun P hc' => by
    by_cases hmem : P ∈ T
    · exact absurd (htomb P hmem) hc'
    · exact htombs P hmem ▸ hc'
  have htag : ∀ k, tagOf k ∈ SEALABLE_TAGS → k ∉ L → c' k = c k := fun k hk hnot =>
    hframe k (ne_of_tag (by rw [hG]; exact fun he => by rw [he] at hk; exact absurd hk (by decide)))
      hnot fun P _ => ne_of_tag fun he => by rw [he] at hk; exact absurd hk (by simp +decide)
  refine ⟨fun k hk hc' => ?_, fun k hk hc' => ?_, fun k hk hc' => ?_, fun k v hk hc' => ?_,
    fun k v hk hc' => ?_, fun P hP => ?_, fun P hP hc' => ?_, fun h0 => absurd h0 hsealed,
    fun n hn man hc' => h.manifests n hn man (hold (manifestKey n) (by simp +decide) ▸ hc'),
    fun P hc' => h.removed P (htkept P hc')⟩
  · by_cases hmem : k ∈ L
    · exact (hL k hmem).1
    · exact h.posting_shape k hk (htag k hk hmem ▸ hc')
  · by_cases hmem : ∃ P ∈ T, k = tombstoneKey P
    · obtain ⟨P, hP, rfl⟩ := hmem
      exact ⟨P, (hT P hP).1, rfl⟩
    · refine h.tombstone_shape k hk ?_
      rwa [← hframe k (ne_of_tag (by rw [hG, hk]; decide))
        (fun hmem' => absurd (hL k hmem').1.tag (by rw [hk]; decide))
        fun P hP he => hmem ⟨P, hP, he⟩]
  · exact h.dirty_shape k hk (hold k (by rw [hk]; decide) ▸ hc')
  · rcases eq_or_ne k G with rfl | hne
    · obtain ⟨⟨P, hP, hG'⟩, hasc⟩ := hshape v hc'
      exact ⟨P, hP, hG', hasc⟩
    · refine h.blob_shape k v hk ?_
      rw [← hframe k hne (fun hmem => absurd (hL k hmem).1.tag (by rw [hk]; decide))
        fun P _ => ne_of_tag (by rw [hk]; simp +decide)]
      exact hc'
  · exact h.manifest_shape k v hk (hold k (by rw [hk]; decide) ▸ hc')
  · rw [hholds, ← h.answer P hP, present, present]
    by_cases hgroup : blobKeyOf P = G
    · have hoff := hoffsets (seqOf P % SEGMENT_SPAN)
      have hinL : (∃ Q ∈ L, seqOf Q % SEGMENT_SPAN = seqOf P % SEGMENT_SPAN) ↔ P ∈ L :=
        ⟨fun he => he.elim fun Q hQ =>
            eq_of_group (hL Q hQ.1).1 hP ((hL Q hQ.1).2.1.trans hgroup.symm) hQ.2 ▸ hQ.1,
          fun hmem => ⟨P, hmem, rfl⟩⟩
      have hinT : (∀ Q ∈ T, seqOf Q % SEGMENT_SPAN ≠ seqOf P % SEGMENT_SPAN) ↔ P ∉ T :=
        ⟨fun hall hmem => hall P hmem rfl, fun hnot Q hQ ho =>
          hnot (eq_of_group (hT Q hQ).1 hP ((hT Q hQ).2.1.trans hgroup.symm) ho ▸ hQ)⟩
      rw [hinL, hinT] at hoff
      rw [blobHas, blobHas, hgroup, hoff]
      by_cases hPT : P ∈ T
      · have hnl : c P = none := by
          by_contra hne
          exact (hT P hPT).2.2 (h.live P hP hne)
        have hPL : P ∉ L := fun hmem => (hL P hmem).2.2 hnl
        simp [hPT, hposting P hP hPL, hnl, (hT P hPT).2.2]
      · rw [htombs P hPT]
        by_cases hPL : P ∈ L
        · simp [hPL, hPT, (hL P hPL).2.2]
        · simp [hPL, hPT, hposting P hP hPL]
    · have hPL : P ∉ L := fun hmem => hgroup (hL P hmem).2.1
      have hPT : P ∉ T := fun hmem => hgroup (hT P hmem).2.1
      rw [hposting P hP hPL, htombs P hPT, blobHas, blobHas, hframe (blobKeyOf P) hgroup
        (fun hmem => absurd (hL _ hmem).1.tag (by simp +decide [blobKeyOf]))
        fun Q _ => ne_of_tag (by simp +decide [blobKeyOf])]
  · by_cases hmem : P ∈ T
    · exact htomb P hmem
    · rw [htombs P hmem]
      exact h.live P hP (hkept P hP hc')

/-! ## The buffer -/

lemma blobOffsets_encode (buffer : SegmentBuffer) (base : ℕ) :
    blobOffsets (some (.raw (encodeSegment (buffer.ids base) base))) = buffer.ids 0 := by
  have hrange : ∀ id ∈ buffer.ids base, base ≤ id ∧ id < base + SEGMENT_SPAN := by
    intro id hid
    obtain ⟨hle, hholds⟩ := SegmentBuffer.mem_ids.1 hid
    have := SegmentBuffer.lt_of_holds hholds
    omega
  have h := decodeSegment_encodeSegment (buffer.ids_sorted base) hrange
  rw [decodeSegment_base] at h
  have hids : buffer.ids base = (buffer.ids 0).map (base + ·) := by
    simp [SegmentBuffer.ids]
  rw [hids] at h
  have hinj : Function.Injective (base + ·) := fun a b hab => Nat.add_left_cancel hab
  have := map_injective_iff.2 hinj h
  rwa [← hids] at this

lemma mem_ids_zero {buffer : SegmentBuffer} {i : ℕ} : i ∈ buffer.ids 0 ↔ buffer.holds i := by
  simp [SegmentBuffer.mem_ids]

lemma holds_foldl_add {l : List ℕ} (hl : ∀ i ∈ l, i < SEGMENT_SPAN) (buffer : SegmentBuffer)
    (i : ℕ) : (l.foldl SegmentBuffer.add buffer).holds i ↔ buffer.holds i ∨ i ∈ l := by
  induction l generalizing buffer with
  | nil => simp
  | cons a l ih =>
    rw [foldl_cons, ih (fun j hj => hl j (by simp [hj])), SegmentBuffer.holds_add _ (hl a (by simp))]
    simp only [Bool.or_eq_true, decide_eq_true_eq, mem_cons]
    tauto

/-! ## Between two steps -/

def SEAL_TAGS : List Byte := SEALABLE_TAGS ++ [Tag.segment, Tag.tombstone, Tag.dirty]

def SEAL_METAS : List Key := [metaKey META_SEALED, metaKey META_SWEPT, metaKey META_REVISION]

lemma tagOf_sealMeta {k : Key} (h : k ∈ SEAL_METAS) : tagOf k = Tag.meta := by
  simp only [SEAL_METAS, mem_cons, not_mem_nil, or_false] at h
  rcases h with rfl | rfl | rfl <;> rfl

def SealFrame (m₀ m : Store) : Prop :=
  ∀ k, tagOf k ∉ SEAL_TAGS → k ∉ SEAL_METAS → m.get k = m₀.get k

/-- The open group of a seal: what its buffer, its gathered keys and its cleared tombstones are, and
that nothing gathered and not yet written is about it. -/
structure OpenGroup (b : List (Write Key Stored)) (T : List Key) (s : SealState) (m : Store)
    (pre : Key) (segment : ℕ) : Prop where
  posting : ∃ P, IsPosting P ∧ pre = livePrefixOf P ∧ segment = segmentOf (seqOf P)
  fresh : ∀ w ∈ b, groupOf w.key ≠ some (segmentKey pre segment)
  hadBlob : s.hadBlob = (m.get (segmentKey pre segment)).isSome
  gathered : ∀ P ∈ s.gathered, IsPosting P ∧ blobKeyOf P = segmentKey pre segment ∧ m.get P ≠ none
  cleared : ∀ P ∈ T, IsPosting P ∧ blobKeyOf P = segmentKey pre segment ∧ m.get (tombstoneKey P) ≠ none
  buffer : ∀ i, s.buffer.holds i ↔ (i ∈ blobOffsets (m.get (segmentKey pre segment)) ∨
    ∃ P ∈ s.gathered, seqOf P % SEGMENT_SPAN = i) ∧ ∀ P ∈ T, seqOf P % SEGMENT_SPAN ≠ i

/-- What holds between two steps of a seal of `m₀`: the batch is `b`, complete group by group, and
the removal of the tombstones `T` of the open group. -/
structure Sealing (W : Seq → IndexManifest → Prop) (m₀ : Store) (b : List (Write Key Stored)) (T : List Key)
    (s : SealState) (m : Store) : Prop where
  batch : s.batch = b ++ T.map fun P => .delete (tombstoneKey P)
  engine : Tiers W m.get
  tiers : Tiers W (after m.get b)
  frame : SealFrame m₀ m
  isSealed : metaOf m.get META_SEALED = some 1
  tags : ∀ w ∈ b, tagOf w.key ∈ SEAL_TAGS
  closed : s.opened = none → T = [] ∧ s.gathered = []
  group : ∀ pre segment, s.opened = some (pre, segment) → OpenGroup b T s m pre segment

variable {segment : ℕ} {pre : Key}

lemma flush_cases {s : SealState} (h : s.opened = some (pre, segment)) :
    s.flush.opened = none ∧ s.flush.gathered = [] ∧ (s.hadBlob = false ∧ s.flush.batch = s.batch ∨
      s.buffer.size = 0 ∧ s.flush.batch = s.batch ++ s.gathered.map .delete ++
        [.delete (segmentKey pre segment)] ∨ s.flush.batch = s.batch ++ s.gathered.map .delete ++
        [.put (segmentKey pre segment) (.raw (encodeSegment
          (s.buffer.ids (segment * SEGMENT_SPAN)) (segment * SEGMENT_SPAN)))]) := by
  rw [SealState.flush, h]
  split_ifs with hfew hempty
  · simp only [Bool.and_eq_true, Bool.not_eq_true', decide_eq_true_eq] at hfew
    exact ⟨rfl, rfl, .inl ⟨hfew.1, rfl⟩⟩
  · exact ⟨rfl, rfl, .inr (.inl ⟨hempty, rfl⟩)⟩
  · exact ⟨rfl, rfl, .inr (.inr rfl)⟩

variable {lower upper : Option Key} {f : Key → SealM PUnit} {G : Key → Prop} {marks : List Key}
  {tag : Byte}

section sealing

variable {m₀ m : Store} {b : List (Write Key Stored)} {T : List Key} {s : SealState}

lemma after_of_fresh {c : Contents} {g k : Key} (hfresh : ∀ w ∈ b, groupOf w.key ≠ some g)
    (hk : groupOf k = some g) : after c b k = c k :=
  after_of_forall_ne fun w hw he => hfresh w hw (he ▸ hk)

lemma meta_after_of_tags {c : Contents} (h : ∀ w ∈ b, tagOf w.key ∈ SEAL_TAGS) (name : Utf16) :
    metaOf (after c b) name = metaOf c name := by
  rw [metaOf, metaOf, after_of_tag fun w hw he => ?_]
  have := h w hw
  rw [he] at this
  exact absurd this (by simp +decide)

lemma Sealing.fold (h : Sealing W m₀ b T s m)
    (hopen : s.opened = some (pre, segment)) {L : List Key} (hL : ∀ P ∈ L, P ∈ s.gathered)
    {w : Write Key Stored} (hw : w.key = segmentKey pre segment)
    (hshape : ∀ v, w.value = some v → Ascending (blobOffsets (some v)))
    (hoffsets : ∀ i, i ∈ blobOffsets w.value ↔ (i ∈ blobOffsets (m.get (segmentKey pre segment)) ∨
      ∃ P ∈ L, seqOf P % SEGMENT_SPAN = i) ∧ ∀ P ∈ T, seqOf P % SEGMENT_SPAN ≠ i) :
    Tiers W (after m.get (b ++ (T.map (fun P => .delete (tombstoneKey P)) ++ L.map .delete ++ [w]))) := by
  have hg := h.group pre segment hopen
  have hread : ∀ k, groupOf k = some (segmentKey pre segment) → after m.get b k = m.get k :=
    fun k hk => after_of_fresh hg.fresh hk
  have hkeys : ∀ {v k : _}, v ∈ T.map (fun P => Write.delete (tombstoneKey P)) ++
      L.map Write.delete ++ [w] → v.key = k →
      (∃ P ∈ T, v = .delete (tombstoneKey P) ∧ k = tombstoneKey P) ∨
      (∃ P ∈ L, v = .delete P ∧ k = P) ∨ v = w ∧ k = segmentKey pre segment := by
    intro v k hv hk
    subst hk
    simp only [mem_append, List.mem_map, mem_singleton] at hv
    rcases hv with (⟨P, hP, rfl⟩ | ⟨P, hP, rfl⟩) | rfl
    · exact .inl ⟨P, hP, rfl, rfl⟩
    · exact .inr (.inl ⟨P, hP, rfl, rfl⟩)
    · exact .inr (.inr ⟨rfl, hw⟩)
  have hblob : after (after m.get b) (T.map (fun P => .delete (tombstoneKey P)) ++
      L.map .delete ++ [w]) (segmentKey pre segment) = w.value := by
    refine after_of_exists ⟨w, by simp, hw⟩ fun v hv hk => ?_
    rcases hkeys hv hk with ⟨P, -, -, he⟩ | ⟨P, hP, -, he⟩ | ⟨rfl, -⟩
    · exact absurd he (ne_of_tag (by simp +decide))
    · exact absurd he.symm ((hg.gathered P (hL P hP)).1.ne (by simp +decide))
    · rfl
  rw [after_append]
  refine h.tiers.fold (G := segmentKey pre segment) (L := L) (T := T) (by simp) ?_ (fun P hP => ?_)
    (fun P hP => ?_) (fun k hG hkL hkT => ?_) (fun P hP => ?_) (fun P hP => ?_) (fun v hv => ?_)
    fun i => ?_
  · rw [meta_after_of_tags fun v hv => ?_, meta_after_of_tags h.tags, h.isSealed]
    · simp
    · rcases hkeys hv rfl with ⟨P, -, rfl, -⟩ | ⟨P, hP, rfl, -⟩ | ⟨rfl, -⟩
      · simp +decide [Write.key]
      · exact mem_append_left _ (hg.gathered P (hL P hP)).1.tag
      · rw [hw]
        simp +decide
  · obtain ⟨hpost, hgroup, hlive⟩ := hg.gathered P (hL P hP)
    exact ⟨hpost, hgroup, by rwa [hread P (by rw [groupOf_posting hpost, hgroup])]⟩
  · obtain ⟨hpost, hgroup, htomb⟩ := hg.cleared P hP
    exact ⟨hpost, hgroup, by rwa [hread _ (by rw [groupOf_tombstoneKey, hgroup])]⟩
  · refine after_of_forall_ne fun v hv hk => ?_
    rcases hkeys hv hk with ⟨P, hP, -, rfl⟩ | ⟨P, hP, -, rfl⟩ | ⟨-, rfl⟩
    · exact hkT P hP rfl
    · exact hkL hP
    · exact hG rfl
  · refine after_of_exists ⟨.delete P, by simp [hP], rfl⟩ fun v hv hk => ?_
    rcases hkeys hv hk with ⟨Q, -, rfl, -⟩ | ⟨Q, -, rfl, -⟩ | ⟨-, he⟩
    · rfl
    · rfl
    · exact absurd he ((hg.gathered P (hL P hP)).1.ne (by simp +decide))
  · refine after_of_exists ⟨.delete (tombstoneKey P), mem_append_left _
      (mem_append_left _ (List.mem_map_of_mem hP)), rfl⟩ fun v hv hk => ?_
    rcases hkeys hv hk with ⟨Q, -, rfl, -⟩ | ⟨Q, -, rfl, -⟩ | ⟨-, he⟩
    · rfl
    · rfl
    · exact absurd he (ne_of_tag (by simp +decide))
  · rw [hblob] at hv
    obtain ⟨P, hP, rfl, rfl⟩ := hg.posting
    exact ⟨⟨P, hP, rfl⟩, hshape v hv⟩
  · rw [hblob, hread _ (groupOf_segmentKey _ _)]
    exact hoffsets i

lemma Sealing.fold_none (h : Sealing W m₀ b T s m)
    (hopen : s.opened = some (pre, segment)) (hnone : s.hadBlob = false) :
    Tiers W (after m.get (b ++ T.map fun P => .delete (tombstoneKey P))) := by
  have hg := h.group pre segment hopen
  have hG : m.get (segmentKey pre segment) = none := by
    have := hg.hadBlob
    rw [hnone] at this
    simpa using this.symm
  have hfold := h.fold hopen (L := []) (by simp) (w := .delete (segmentKey pre segment)) rfl
    (fun v hv => absurd hv (by simp [Write.value])) fun i => by
      simp [Write.value, hG, blobOffsets, decodeSegment]
  refine (congrArg (Tiers W) (funext fun k => ?_)).mp hfold
  rw [map_nil, append_nil, ← append_assoc, after_append, after_delete]
  split_ifs with hk
  · subst hk
    rw [after_append, after_of_forall_ne, after_of_fresh hg.fresh (groupOf_segmentKey _ _), hG]
    intro w hw
    obtain ⟨P, -, rfl⟩ := List.mem_map.1 hw
    exact ne_of_tag (by simp +decide [Write.key])
  · rfl

def Fresh (g : Key) (s : SealState) : Prop :=
  (∀ w ∈ s.batch, groupOf w.key ≠ some g) ∧
    ∀ pre segment, s.opened = some (pre, segment) → segmentKey pre segment ≠ g

lemma Sealing.flush (h : Sealing W m₀ b T s m) :
    Sealing W m₀ s.flush.batch [] s.flush m ∧ s.flush.opened = none ∧ ∀ g, Fresh g s → Fresh g s.flush := by
  rcases hopen : s.opened with _ | ⟨pre, segment⟩
  · obtain ⟨rfl, hgathered⟩ := h.closed hopen
    have hflush : s.flush = s := by rw [SealState.flush, hopen]
    have hbatch : s.batch = b := by rw [h.batch, map_nil, append_nil]
    rw [hflush, hbatch]
    exact ⟨h, hopen, fun g hg => hg⟩
  · have hg := h.group pre segment hopen
    obtain ⟨hclosed, hgathered, hcases⟩ := flush_cases hopen
    have htiers : Tiers W (after m.get s.flush.batch) := by
      rcases hcases with ⟨hnone, hb⟩ | ⟨hempty, hb⟩ | hb
      · rw [hb, h.batch]
        exact h.fold_none hopen hnone
      · rw [hb, h.batch, append_assoc, append_assoc, ← append_assoc (T.map _)]
        refine h.fold hopen (fun P hP => hP) (w := .delete (segmentKey pre segment)) rfl
          (fun v hv => absurd hv (by simp [Write.value])) fun i => ?_
        rw [← hg.buffer i, SegmentBuffer.size_eq_zero_iff.1 hempty i]
        simp [Write.value, blobOffsets, decodeSegment]
      · rw [hb, h.batch, append_assoc, append_assoc, ← append_assoc (T.map _)]
        refine h.fold hopen (fun P hP => hP) (w := .put (segmentKey pre segment) _) rfl
          (fun v hv => ?_) fun i => ?_
        · obtain rfl := Option.some.inj hv
          rw [blobOffsets_encode]
          exact s.buffer.ids_sorted 0
        · rw [← hg.buffer i, ← mem_ids_zero, Write.value, blobOffsets_encode]
    have hmem : ∀ w ∈ s.flush.batch, w ∈ s.batch ∨
        tagOf w.key ∈ SEAL_TAGS ∧ groupOf w.key = some (segmentKey pre segment) := by
      have hdel : ∀ P ∈ s.gathered, tagOf (Write.delete P : Write Key Stored).key ∈ SEAL_TAGS ∧
          groupOf (Write.delete P : Write Key Stored).key = some (segmentKey pre segment) := by
        intro P hP
        obtain ⟨hpost, hgroup, -⟩ := hg.gathered P hP
        exact ⟨mem_append_left _ hpost.tag, by rw [← hgroup]; exact groupOf_posting hpost⟩
      intro w hw
      rcases hcases with ⟨-, hb⟩ | ⟨-, hb⟩ | hb <;> rw [hb] at hw
      · exact .inl hw
      all_goals
        simp only [mem_append, List.mem_map, mem_singleton] at hw
        rcases hw with (hw | ⟨P, hP, rfl⟩) | rfl
        · exact .inl hw
        · exact .inr (hdel P hP)
        · exact .inr ⟨by simp +decide [Write.key], groupOf_segmentKey _ _⟩
    refine ⟨⟨by simp, h.engine, htiers, h.frame, h.isSealed, fun w hw => ?_,
      fun _ => ⟨rfl, hgathered⟩, fun _ _ he => absurd he (by simp [hclosed])⟩, hclosed,
      fun g hfresh => ⟨fun w hw => ?_, fun _ _ he => absurd he (by simp [hclosed])⟩⟩
    · rcases hmem w hw with hw | hw
      · rw [h.batch] at hw
        rcases mem_append.1 hw with hw | hw
        · exact h.tags w hw
        · obtain ⟨P, -, rfl⟩ := List.mem_map.1 hw
          simp +decide [Write.key]
      · exact hw.1
    · rcases hmem w hw with hw | hw
      · exact hfresh.1 w hw
      · rw [hw.2]
        exact fun he => hfresh.2 pre segment hopen (Option.some.inj he)

/-- What every write of a seal of `m₀` leaves. -/
def Sealed (W : Seq → IndexManifest → Prop) (m₀ m : Store) : Prop := Tiers W m.get ∧ SealFrame m₀ m

/-- From one step of a seal to another, groups outside `G` stay as fresh as they were and are not
written. -/
def Advance (G : Key → Prop) (s : SealState) (m : Store) (s' : SealState) (m' : Store) : Prop :=
  ∀ g, ¬ G g → Fresh g s → Fresh g s' ∧ ∀ k, groupOf k = some g → m'.get k = m.get k

lemma Advance.refl : Advance G s m s m := fun _ _ h => ⟨h, fun _ _ => rfl⟩

lemma Advance.trans {s₁ s₂ : SealState} {m₁ m₂ : Store}
    (h : Advance G s m s₁ m₁) (h' : Advance G s₁ m₁ s₂ m₂) : Advance G s m s₂ m₂ :=
  fun g hG hg => ⟨(h' g hG (h g hG hg).1).1, fun k hk =>
    ((h' g hG (h g hG hg).1).2 k hk).trans ((h g hG hg).2 k hk)⟩

lemma Advance.mono {G G' : Key → Prop} {s' : SealState} {m' : Store} (hG : ∀ g, G g → G' g)
    (h : Advance G s m s' m') : Advance G' s m s' m' :=
  fun g hg => h g fun hGg => hg (hG g hGg)

lemma ne_of_groupOf {k k' : Key} {g : Key} (hk : groupOf k = some g) (hk' : groupOf k' = none) :
    k ≠ k' := fun he => by rw [he, hk'] at hk; exact absurd hk (by simp)

variable {claim : WriterClaim}

lemma writeBatch_safe (h : Sealing W m₀ b [] s m) (hclosed : s.opened = none) :
    Prog.safeFrom (Sealed W m₀) (writeBatch claim) (fun _ s' m' => Sealing W m₀ [] [] s' m' ∧
      s'.opened = none ∧ s'.batch = [] ∧ Advance (fun _ => False) s m s' m') s m := by
  have hbatch : s.batch = b := by rw [h.batch, map_nil, append_nil]
  refine safeFrom_bind (safeFrom_get (safeFrom_bind (safeFrom_lift
    (write_safe fun u => ?_))))
  rw [hbatch]
  have hget := get_wrote m b u
  have hother : ∀ k, tagOf k ∉ SEAL_TAGS → k ≠ metaKey META_REVISION → (wrote m b u).get k = m.get k := by
    intro k hk hrev
    rw [hget, revised_of_ne hrev]
    exact after_of_tag fun w hw he => hk (he ▸ h.tags w hw)
  have htiers : Tiers W (wrote m b u).get := by
    rw [hget]
    refine h.tiers.congr (fun k hk => revised_of_ne (ne_of_tag fun he => ?_)) fun h0 => ?_
    · rw [he] at hk
      exact absurd hk (by simp +decide)
    · rwa [metaOf, revised_of_ne (by decide)] at h0
  have hframe : SealFrame m₀ (wrote m b u) := fun k hk hmeta =>
    (hother k hk fun he => hmeta (by simp [SEAL_METAS, he])).trans (h.frame k hk hmeta)
  have hsealed : metaOf (wrote m b u).get META_SEALED = some 1 := by
    rw [← h.isSealed, metaOf, metaOf, hother _ (by simp +decide) (by decide)]
  refine ⟨⟨htiers, hframe⟩, safeFrom_set ⟨⟨by simp, htiers, htiers, hframe, hsealed, by simp,
    fun _ => ⟨rfl, (h.closed hclosed).2⟩, fun _ _ he => absurd he (by simp [hclosed])⟩, hclosed,
    rfl, fun g _ hg => ⟨⟨by simp, hg.2⟩, fun k hk => ?_⟩⟩⟩
  rw [hget, revised_of_ne (ne_of_groupOf hk (groupOf_eq_none (by simp +decide)))]
  exact after_of_fresh (hbatch ▸ hg.1) hk

def pairOf (P : Key) : Key × ℕ := (livePrefixOf P, segmentOf (seqOf P))

lemma openFor_safe (h : Sealing W m₀ b T s m) (hP : IsPosting P)
    (hfresh : s.opened = some (pairOf P) ∨ Fresh (blobKeyOf P) s) :
    Prog.safeFrom (Sealed W m₀) (openFor claim P (seqOf P)) (fun _ s' m' =>
      (∃ b' T', Sealing W m₀ b' T' s' m' ∧ (T = [] → T' = [])) ∧ s'.opened = some (pairOf P) ∧
      Advance (· = blobKeyOf P) s m s' m' ∧
      ∀ k, groupOf k = some (blobKeyOf P) → m'.get k = m.get k) s m := by
  refine safeFrom_bind (safeFrom_get (safeFrom_ite (fun hopen => ?_)
    fun hclosed₀ => ?_))
  · exact safeFrom_pure ⟨⟨b, T, h, id⟩, hopen, Advance.refl, fun _ _ => rfl⟩
  replace hfresh := hfresh.resolve_left hclosed₀
  obtain ⟨hflush, hclosed, hkeep⟩ := h.flush
  -- loading the blob, once the batch is written or kept
  have hload : ∀ b₂ s₂ m₂, Sealing W m₀ b₂ [] s₂ m₂ → s₂.opened = none →
      Fresh (blobKeyOf P) s₂ → Advance (fun _ => False) s m s₂ m₂ →
      Prog.safeFrom (Sealed W m₀) (do
        let existing ← StateT.lift (Prog.read (segmentKey (livePrefixOf P) (segmentOf (seqOf P))))
        modify fun s => { s with
          opened := some (livePrefixOf P, segmentOf (seqOf P))
          hadBlob := existing.isSome
          buffer := (decodeSegment (existing.elim [] blobBytes) 0).foldl SegmentBuffer.add
            .reset } : SealM Unit) (fun _ s' m' => (∃ b' T', Sealing W m₀ b' T' s' m' ∧ (T = [] → T' = [])) ∧
        s'.opened = some (pairOf P) ∧ Advance (· = blobKeyOf P) s m s' m' ∧
        ∀ k, groupOf k = some (blobKeyOf P) → m'.get k = m.get k) s₂ m₂ := by
    intro b₂ s₂ m₂ h₂ hclosed₂ hfresh₂ hadv
    refine safeFrom_bind (safeFrom_lift (safe_read.2 (safeFrom_modify
      ⟨⟨b₂, [], ⟨h₂.batch, h₂.engine, h₂.tiers, h₂.frame, h₂.isSealed, h₂.tags,
        fun he => absurd he (by simp), fun pre segment he => ?_⟩, fun _ => rfl⟩, rfl, ?_,
        fun k hk => (hadv _ id hfresh).2 k hk⟩)))
    · obtain ⟨rfl, rfl⟩ : livePrefixOf P = pre ∧ segmentOf (seqOf P) = segment := by
        simpa using he
      have hgathered : s₂.gathered = [] := (h₂.closed hclosed₂).2
      refine ⟨⟨P, hP, rfl, rfl⟩, fun w hw => hfresh₂.1 w (by simpa [h₂.batch] using hw), rfl,
        by simp [hgathered], by simp, fun i => ?_⟩
      exact (holds_foldl_add (fun j hj => mem_decodeSegment_lt hj |>.2.trans_eq (Nat.zero_add _)) _
        i).trans (by simp [hgathered, blobOffsets])
    · intro g hg hgs
      refine ⟨⟨(hadv g id hgs).1.1, fun pre segment he => ?_⟩, (hadv g id hgs).2⟩
      obtain ⟨rfl, rfl⟩ : livePrefixOf P = pre ∧ segmentOf (seqOf P) = segment := by
        simpa using he
      exact fun hg' => hg hg'.symm
  have hadv : Advance (fun _ => False) s m s.flush m := fun g _ hg => ⟨hkeep g hg, fun _ _ => rfl⟩
  refine safeFrom_bind (safeFrom_modify (safeFrom_bind (safeFrom_get
    (safeFrom_ite (fun _ => ?_) fun _ => ?_))))
  · refine safeFrom_bind (safeFrom_mono (writeBatch_safe hflush hclosed)
      fun _ s₂ m₂ ⟨h₂, hclosed₂, _, hadv₂⟩ => ?_)
    exact hload _ s₂ m₂ h₂ hclosed₂ (hadv₂ _ id (hkeep _ hfresh)).1 (hadv.trans hadv₂)
  · exact hload _ _ m hflush hclosed (hkeep _ hfresh) hadv

/-- One posting of a group carried out: the group is open, the others are as they were, and the
group's own keys are not written. -/
def Worked (P : Key) (s : SealState) (m : Store) (s' : SealState) (m' : Store) : Prop :=
  s'.opened = some (pairOf P) ∧ Advance (· = blobKeyOf P) s m s' m' ∧
    ∀ k, groupOf k = some (blobKeyOf P) → m'.get k = m.get k

lemma offset_lt (P : Key) : seqOf P % SEGMENT_SPAN < SEGMENT_SPAN :=
  Nat.mod_lt _ (by rw [SEGMENT_SPAN]; norm_num)

lemma take_safe (h : Sealing W m₀ b [] s m) (hP : IsPosting P) (hlive : m.get P ≠ none)
    (hfresh : s.opened = some (pairOf P) ∨ Fresh (blobKeyOf P) s) :
    Prog.safeFrom (Sealed W m₀) (take claim P) (fun _ s' m' =>
      (∃ b', Sealing W m₀ b' [] s' m') ∧ Worked P s m s' m') s m := by
  refine safeFrom_bind (safeFrom_mono (openFor_safe h hP hfresh) ?_)
  rintro _ s' m' ⟨⟨b', T', h', hT⟩, hopen, hadv, hsame⟩
  obtain rfl := hT rfl
  refine safeFrom_modify ⟨⟨b', h'.batch, h'.engine, h'.tiers, h'.frame, h'.isSealed, h'.tags,
    fun he => absurd (hopen.symm.trans he) (by simp), fun pre segment he => ?_⟩, hopen,
    fun g hg hgs => hadv g hg hgs, hsame⟩
  have hg := h'.group pre segment he
  obtain ⟨rfl, rfl⟩ : livePrefixOf P = pre ∧ segmentOf (seqOf P) = segment := by
    simpa [pairOf] using hopen.symm.trans he
  refine ⟨hg.posting, hg.fresh, hg.hadBlob, fun Q hQ => ?_, hg.cleared, fun i => ?_⟩
  · rcases mem_append.1 hQ with hQ | hQ
    · exact hg.gathered Q hQ
    · rw [mem_singleton.1 hQ]
      exact ⟨hP, rfl, by rwa [hsame P (groupOf_posting hP)]⟩
  · have hi := hg.buffer i
    simp only [not_mem_nil, false_implies, implies_true, and_true] at hi ⊢
    rw [SegmentBuffer.holds_add _ (offset_lt P), Bool.or_eq_true, hi, decide_eq_true_eq]
    simp only [mem_append, mem_singleton, or_and_right, exists_or, exists_eq_left]
    rw [eq_comm (a := i), or_comm, or_assoc]

lemma clear_safe (h : Sealing W m₀ b T s m) (hP : IsPosting P) (htomb : m.get (tombstoneKey P) ≠ none)
    (hfresh : s.opened = some (pairOf P) ∨ Fresh (blobKeyOf P) s) :
    Prog.safeFrom (Sealed W m₀) (clear claim (tombstoneKey P)) (fun _ s' m' =>
      (∃ b' T', Sealing W m₀ b' T' s' m') ∧ Worked P s m s' m') s m := by
  have hclear : clear claim (tombstoneKey P) = (do
      openFor claim P (seqOf P)
      modify fun s => { s with
        buffer := s.buffer.remove (seqOf P % SEGMENT_SPAN)
        batch := s.batch ++ [.delete (tombstoneKey P)] }) := rfl
  rw [hclear]
  refine safeFrom_bind (safeFrom_mono (openFor_safe h hP hfresh) ?_)
  rintro _ s' m' ⟨⟨b', T', h', -⟩, hopen, hadv, hsame⟩
  refine safeFrom_modify ⟨⟨b', T' ++ [P], by simp [h'.batch, append_assoc], h'.engine,
    h'.tiers, h'.frame, h'.isSealed, h'.tags, fun he => absurd (hopen.symm.trans he) (by simp),
    fun pre segment he => ?_⟩, hopen, fun g hg hgs => ⟨⟨fun w hw => ?_, (hadv g hg hgs).1.2⟩,
    (hadv g hg hgs).2⟩, hsame⟩
  · have hg := h'.group pre segment he
    obtain ⟨rfl, rfl⟩ : livePrefixOf P = pre ∧ segmentOf (seqOf P) = segment := by
      simpa [pairOf] using hopen.symm.trans he
    refine ⟨hg.posting, hg.fresh, hg.hadBlob, hg.gathered, fun Q hQ => ?_, fun i => ?_⟩
    · rcases mem_append.1 hQ with hQ | hQ
      · exact hg.cleared Q hQ
      · rw [mem_singleton.1 hQ]
        exact ⟨hP, rfl, by rwa [hsame _ (groupOf_tombstoneKey P)]⟩
    · have hi := hg.buffer i
      rw [SegmentBuffer.holds_remove, Bool.and_eq_true, hi, decide_eq_true_eq]
      simp only [mem_append, mem_singleton, or_imp, forall_and, forall_eq]
      rw [ne_comm, and_comm, and_assoc]
  · rcases mem_append.1 hw with hw | hw
    · exact (hadv g hg hgs).1.1 w hw
    · rw [mem_singleton.1 hw]
      exact fun he => hg (Option.some.inj (he.symm.trans (groupOf_tombstoneKey P)))

lemma pass_safe (key : Key → Key)
    (hkey : ∀ P, IsPosting P → groupOf (key P) = some (blobKeyOf P)) (Inv : SealState → Store → Prop)
    (hstep : ∀ P s m, Inv s m → IsPosting P → m.get (key P) ≠ none →
      (s.opened = some (pairOf P) ∨ Fresh (blobKeyOf P) s) →
      Prog.safeFrom (Sealed W m₀) (f P) (fun _ s' m' => Inv s' m' ∧ Worked P s m s' m') s m)
    {l : List Key} (hpost : ∀ P ∈ l, IsPosting P) (hsorted : l.Pairwise (· < ·))
    (hthere : ∀ P ∈ l, m.get (key P) ≠ none) (hfresh : ∀ P ∈ l, Fresh (blobKeyOf P) s) (hInv : Inv s m) :
    Prog.safeFrom (Sealed W m₀) (l.forM f) (fun _ s' m' => Inv s' m' ∧
      Advance (fun g => ∃ P ∈ l, g = blobKeyOf P) s m s' m') s m := by
  -- the open group is the first of those left, or not among them
  have hgen : ∀ l : List Key, (∀ P ∈ l, IsPosting P) → l.Pairwise (· < ·) → ∀ s m, Inv s m →
      (∀ P ∈ l, m.get (key P) ≠ none) →
      (∀ P ∈ l, Fresh (blobKeyOf P) s ∨ s.opened = some (pairOf P) ∧ ∀ Q ∈ l, blobKeyOf P ≤ blobKeyOf Q) →
      Prog.safeFrom (Sealed W m₀) (l.forM f) (fun _ s' m' => Inv s' m' ∧
        Advance (fun g => ∃ P ∈ l, g = blobKeyOf P) s m s' m') s m := by
    intro l
    induction l with
    | nil => exact fun _ _ s m hInv _ _ => safeFrom_pure ⟨hInv, Advance.refl⟩
    | cons P l ih =>
      intro hpost hsorted s m hInv hthere hfresh
      have hP := hpost P (by simp)
      have hle : ∀ Q ∈ l, blobKeyOf P ≤ blobKeyOf Q := fun Q hQ =>
        blobKeyOf_le hP (hpost Q (by simp [hQ])) (rel_of_pairwise_cons hsorted hQ)
      refine safeFrom_bind (safeFrom_mono (hstep P s m hInv hP (hthere P (by simp))
        ((hfresh P (by simp)).elim .inr fun h => .inl h.1)) ?_)
      rintro _ s₁ m₁ ⟨hInv₁, hopen, hadv, hsame⟩
      have hother : ∀ Q ∈ l, blobKeyOf Q ≠ blobKeyOf P → Fresh (blobKeyOf Q) s := by
        intro Q hQ hne
        refine (hfresh Q (by simp [hQ])).resolve_right fun h => hne ?_
        exact le_antisymm (h.2 P (by simp)) (hle Q hQ)
      refine safeFrom_mono (ih (fun Q hQ => hpost Q (by simp [hQ])) hsorted.of_cons s₁ m₁ hInv₁
        (fun Q hQ => ?_) fun Q hQ => ?_) fun _ s₂ m₂ ⟨hInv₂, hadv₂⟩ => ⟨hInv₂, ?_⟩
      · have hgroup := hkey Q (hpost Q (by simp [hQ]))
        rcases eq_or_ne (blobKeyOf Q) (blobKeyOf P) with he | hne
        · rw [hsame _ (hgroup.trans (congrArg some he))]
          exact hthere Q (by simp [hQ])
        · rw [(hadv _ hne (hother Q hQ hne)).2 _ hgroup]
          exact hthere Q (by simp [hQ])
      · rcases eq_or_ne (blobKeyOf Q) (blobKeyOf P) with he | hne
        · refine .inr ⟨?_, fun Q' hQ' => he ▸ hle Q' hQ'⟩
          have hpair := (blobKeyOf_eq_iff (hpost Q (by simp [hQ]))
            ((segmentOf_lt hP.seqOf_lt).trans (by norm_num))).1 he
          rw [hopen, pairOf, pairOf, hpair.1, hpair.2]
        · exact .inl (hadv _ hne (hother Q hQ hne)).1
      · refine (hadv.mono fun g hg => ?_).trans (hadv₂.mono fun g hg => ?_)
        · exact ⟨P, by simp, hg⟩
        · obtain ⟨Q, hQ, he⟩ := hg
          exact ⟨Q, by simp [hQ], he⟩
  exact hgen l hpost hsorted s m hInv hthere fun P hP => .inl (hfresh P hP)

/-! ## The passes of a seal -/

lemma tagOf_livePrefixOf (h : IsPosting P) : tagOf (livePrefixOf P) = tagOf P := by
  obtain ⟨l, hl, id, -, rfl⟩ := h
  obtain ⟨t, -, body, rfl⟩ := lensCode_head hl
  rw [livePrefixOf_append]
  rfl

lemma tagOf_eq_of_group {P Q : Key} (hP : IsPosting P) (hQ : IsPosting Q)
    (h : blobKeyOf P = blobKeyOf Q) : tagOf P = tagOf Q := by
  have := (blobKeyOf_eq_iff hP ((segmentOf_lt hQ.seqOf_lt).trans (by norm_num))).1 h
  rw [← tagOf_livePrefixOf hP, ← tagOf_livePrefixOf hQ, this.1]

lemma mem_scan_key {pre k : Key} (h : k ∈ (scan m pre lower upper).map (·.1)) :
    m.get k ≠ none ∧ pre <+: k ∧ (∀ l ∈ lower, l ≤ k) ∧ ∀ u ∈ upper, k < u := by
  obtain ⟨⟨k, v⟩, he, rfl⟩ := List.mem_map.1 h
  obtain ⟨hget, hrest⟩ := mem_scan.1 he
  exact ⟨by rw [hget]; exact Option.some_ne_none v, hrest⟩

lemma scan_keys_sorted (m : Store) (pre : Key) (lower upper : Option Key) :
    ((scan m pre lower upper).map (·.1)).Pairwise (· < ·) :=
  pairwise_map.2 (scan_sorted m pre lower upper)

lemma tagOf_of_isPrefix {t : Byte} {x k : Key} (h : t :: x <+: k) : tagOf k = t := by
  obtain ⟨y, rfl⟩ := h
  rfl

lemma Tiers.isPosting_of_scan (h : Tiers W m.get) (htag : tag ∈ SEALABLE_TAGS) {x : Key}
    (hP : P ∈ (scan m (tag :: x) lower upper).map (·.1)) : IsPosting P ∧ m.get P ≠ none := by
  obtain ⟨hlive, hpre, -⟩ := mem_scan_key hP
  exact ⟨h.posting_shape P (by rwa [tagOf_of_isPrefix hpre]) hlive, hlive⟩

lemma forM_keys {l : List (Key × Stored)} : (l.map (·.1)).forM f = l.forM fun e => f e.1 :=
  List.forM_map

lemma sweepTag_safe (h : Sealing W m₀ b [] s m) (htag : tag ∈ SEALABLE_TAGS)
    (hfresh : ∀ P, IsPosting P → tagOf P = tag → Fresh (blobKeyOf P) s) :
    Prog.safeFrom (Sealed W m₀) (sweepTag claim tag) (fun _ s' m' =>
      (∃ b', Sealing W m₀ b' [] s' m') ∧ s'.opened = none ∧
      ∀ P, IsPosting P → tagOf P ≠ tag → Fresh (blobKeyOf P) s → Fresh (blobKeyOf P) s') s m := by
  have hscan : ∀ P ∈ (scan m [tag] none none).map (·.1),
      IsPosting P ∧ m.get P ≠ none ∧ tagOf P = tag := fun P hP =>
    ⟨(h.engine.isPosting_of_scan htag hP).1, (h.engine.isPosting_of_scan htag hP).2,
      tagOf_of_isPrefix (mem_scan_key hP).2.1⟩
  refine safeFrom_bind (safeFrom_lift (scanM_safe ?_))
  rw [← forM_keys]
  refine safeFrom_bind (safeFrom_mono (pass_safe id
    (fun P hP => groupOf_posting hP) (fun s m => ∃ b, Sealing W m₀ b [] s m)
    (fun P s m ⟨b, h⟩ hP hlive hg => take_safe h hP hlive hg) (fun P hP => (hscan P hP).1)
    (scan_keys_sorted m _ _ _) (fun P hP => (hscan P hP).2.1)
    (fun P hP => hfresh P (hscan P hP).1 (hscan P hP).2.2) ⟨b, h⟩) ?_)
  rintro _ s₁ m₁ ⟨⟨b₁, h₁⟩, hadv⟩
  obtain ⟨hflush, hclosed, hkeep⟩ := h₁.flush
  refine safeFrom_modify ⟨⟨_, hflush⟩, hclosed, fun P hP hne hfr => hkeep _ (hadv _ ?_ hfr).1⟩
  rintro ⟨Q, hQ, he⟩
  exact hne ((tagOf_eq_of_group hP (hscan Q hQ).1 he).trans (hscan Q hQ).2.2)

lemma Tiers.undirty (h : Tiers W c) (hk : ∀ k, tagOf k ≠ Tag.dirty → c' k = c k)
    (hdirty : ∀ k, tagOf k = Tag.dirty → c' k ≠ none → c k ≠ none) : Tiers W c' := by
  have hpost : ∀ k, tagOf k ∈ SEALABLE_TAGS → c' k = c k := fun k hkt =>
    hk k fun he => by rw [he] at hkt; exact absurd hkt (by decide)
  have hholds : ∀ {P}, Holds c' P ↔ Holds c P := fun {P} => by
    simp only [Holds, hk _ (show tagOf (manifestKey _) ≠ Tag.dirty by simp +decide)]
  have htomb : ∀ P, c' (tombstoneKey P) = c (tombstoneKey P) := fun P => hk _ (by simp +decide)
  have hseg : ∀ k, tagOf k = Tag.segment → c' k = c k := fun k hkt => hk k (by rw [hkt]; decide)
  refine ⟨fun k hkt hck => h.posting_shape k hkt (hpost k hkt ▸ hck),
    fun k hkt hck => h.tombstone_shape k hkt (hk k (by rw [hkt]; decide) ▸ hck),
    fun k hkt hck => h.dirty_shape k hkt (hdirty k hkt hck),
    fun k v hkt hck => h.blob_shape k v hkt (hseg k hkt ▸ hck),
    fun k v hkt hck => h.manifest_shape k v hkt (hk k (by rw [hkt]; decide) ▸ hck),
    fun P hP => ?_, fun P hP hck => ?_, fun h0 k hck => ?_,
    fun n hn man hck => h.manifests n hn man (hk (manifestKey n) (by simp +decide) ▸ hck),
    fun P hck => h.removed P (htomb P ▸ hck)⟩
  · rw [hholds, ← h.answer P hP, present, present, blobHas_congr hseg, hpost P hP.tag, htomb]
  · rw [htomb]
    exact h.live P hP (hpost P hP.tag ▸ hck)
  · rw [metaOf, hk _ (by simp +decide)] at h0
    by_cases hkd : tagOf k = Tag.dirty
    · rw [hkd]
      decide
    · exact h.unsealed h0 k (hk k hkd ▸ hck)

lemma Sealing.undirty (h : Sealing W m₀ b [] s m)
    (hmarks : ∀ k ∈ marks, tagOf k = Tag.dirty) : Sealing W m₀ (b ++ marks.map .delete) []
      { s with batch := s.batch ++ marks.map .delete } m := by
  have hkey : ∀ w ∈ marks.map (Write.delete : Key → Write Key Stored), tagOf w.key = Tag.dirty := by
    intro w hw
    obtain ⟨k, hk, rfl⟩ := List.mem_map.1 hw
    exact hmarks k hk
  refine ⟨by simp [h.batch], h.engine, ?_, h.frame, h.isSealed, fun w hw => ?_, h.closed,
    fun pre segment he => ?_⟩
  · rw [after_append]
    refine h.tiers.undirty (fun k hk => after_of_tag fun w hw he => hk (he ▸ hkey w hw))
      fun k _ hck => ?_
    obtain ⟨v, hv⟩ := Option.ne_none_iff_exists'.1 hck
    rcases of_after_eq_some hv with hv | hw
    · rw [hv]
      exact Option.some_ne_none v
    · simp at hw
  · rcases mem_append.1 hw with hw | hw
    · exact h.tags w hw
    · rw [hkey w hw]
      decide
  · have hg := h.group pre segment he
    refine ⟨hg.posting, fun w hw => ?_, hg.hadBlob, hg.gathered, hg.cleared, hg.buffer⟩
    rcases mem_append.1 hw with hw | hw
    · exact hg.fresh w hw
    · rw [groupOf_eq_none (by rw [hkey w hw]; decide)]
      simp

lemma Fresh.undirty {g : Key} (h : Fresh g s) (hmarks : ∀ k ∈ marks, tagOf k = Tag.dirty) :
    Fresh g { s with batch := s.batch ++ marks.map .delete } := by
  refine ⟨fun w hw => ?_, h.2⟩
  rcases mem_append.1 hw with hw | hw
  · exact h.1 w hw
  · obtain ⟨k, hk, rfl⟩ := List.mem_map.1 hw
    rw [groupOf_eq_none (by rw [Write.key, hmarks k hk]; decide)]
    simp

/-- The live postings of a marked group, and no others, are what a pass over its range meets. -/
theorem marked_scan (h : Tiers W m.get) {P Q : Key} (hP : IsPosting P) {upper : Option Key} (hupper : upper =
      if 0xffffffff < segmentOf (seqOf P) * SEGMENT_SPAN + SEGMENT_SPAN then none
      else some (livePrefixOf P ++ writeU32 (segmentOf (seqOf P) * SEGMENT_SPAN + SEGMENT_SPAN)))
    (hQ : Q ∈ (scan m (livePrefixOf P)
      (some (livePrefixOf P ++ writeU32 (segmentOf (seqOf P) * SEGMENT_SPAN))) upper).map (·.1)) :
    IsPosting Q ∧ m.get Q ≠ none ∧ blobKeyOf Q = blobKeyOf P := by
  obtain ⟨hlive, hpre, hlo, hhi⟩ := mem_scan_key hQ
  have hseg := segmentOf_lt hP.seqOf_lt
  have htag : tagOf Q ∈ SEALABLE_TAGS := by
    obtain ⟨t, ht, body, hbody⟩ := lensCode_head hP.prefix_mem
    rw [hbody] at hpre
    rw [tagOf_of_isPrefix hpre]
    exact ht
  have hpost := h.posting_shape Q htag hlive
  have hl : livePrefixOf P = livePrefixOf Q := by
    rw [hpost.eq] at hpre
    exact (lens_prefix_iff hP.prefix_mem hpost.prefix_mem).1 hpre
  refine ⟨hpost, hlive, (blobKeyOf_eq_iff hpost (hseg.trans (by norm_num))).2 ⟨hl.symm, ?_⟩⟩
  have hbase : segmentOf (seqOf P) * SEGMENT_SPAN < 2 ^ 32 := by
    rw [SEGMENT_SPAN]
    omega
  have hge : segmentOf (seqOf P) * SEGMENT_SPAN ≤ seqOf Q := by
    by_contra hlt
    refine absurd (hlo _ rfl) (not_le.2 ?_)
    rw [hpost.eq, posting_lt_iff hpost.prefix_mem hP.prefix_mem hpost.seqOf_lt hbase]
    exact .inr ⟨hl.symm, not_le.1 hlt⟩
  have hlt : seqOf Q < segmentOf (seqOf P) * SEGMENT_SPAN + SEGMENT_SPAN := by
    rw [hupper] at hhi
    split_ifs at hhi with hlast
    · have := hpost.seqOf_lt
      omega
    · have hQlt := hhi _ rfl
      rw [hpost.eq, posting_lt_iff hpost.prefix_mem hP.prefix_mem hpost.seqOf_lt (by omega), ← hl] at hQlt
      exact (hQlt.resolve_left (lt_irrefl _)).2
  simp only [segmentOf, SEGMENT_SPAN] at hge hlt ⊢
  omega

lemma takeMarked_safe (h : Sealing W m₀ b [] s m) (hP : IsPosting P) (hfresh : Fresh (blobKeyOf P) s) :
    Prog.safeFrom (Sealed W m₀) (takeMarked claim (markDirty P).key) (fun _ s' m' =>
      (∃ b', Sealing W m₀ b' [] s' m') ∧ ∀ g, g ≠ blobKeyOf P → Fresh g s → Fresh g s') s m := by
  have hread : readU32 (markDirty P).key ((markDirty P).key.length - 4) = segmentOf (seqOf P) := by
    have := seqOf_append (Tag.dirty :: livePrefixOf P) (segmentOf (seqOf P))
    rw [Nat.mod_eq_of_lt ((segmentOf_lt hP.seqOf_lt).trans (by norm_num))] at this
    exact this
  have hpre : ((markDirty P).key.drop 1).take ((markDirty P).key.length - 5) = livePrefixOf P := by
    simp [dirtyKey]
  rw [takeMarked, hread, hpre]
  refine safeFrom_bind (safeFrom_lift (scanM_safe ?_))
  rw [← forM_keys]
  refine safeFrom_bind (safeFrom_mono (pass_safe id
    (fun P hP => groupOf_posting hP) (fun s m => ∃ b, Sealing W m₀ b [] s m)
    (fun P s m ⟨b, h⟩ hP hlive hg => take_safe h hP hlive hg)
    (fun Q hQ => (marked_scan h.engine hP rfl hQ).1) (scan_keys_sorted m _ _ _)
    (fun Q hQ => (marked_scan h.engine hP rfl hQ).2.1)
    (fun Q hQ => (marked_scan h.engine hP rfl hQ).2.2 ▸ hfresh) ⟨b, h⟩) ?_)
  rintro _ s₁ m₁ ⟨⟨b₁, h₁⟩, hadv⟩
  have hmark : ∀ k ∈ [(markDirty P).key], tagOf k = Tag.dirty := by simp
  refine safeFrom_modify ⟨⟨_, h₁.undirty hmark⟩, fun g hg hfr => ?_⟩
  refine Fresh.undirty (hadv g ?_ hfr).1 hmark
  rintro ⟨Q, hQ, rfl⟩
  exact hg (marked_scan h.engine hP rfl hQ).2.2

lemma sweep_safe (h : Sealing W m₀ b [] s m) (hclosed : s.opened = none)
    (hfresh : ∀ P, IsPosting P → Fresh (blobKeyOf P) s) :
    Prog.safeFrom (Sealed W m₀) (SEALABLE_TAGS.forM (sweepTag claim)) (fun _ s' m' =>
      (∃ b', Sealing W m₀ b' [] s' m') ∧ s'.opened = none) s m := by
  refine safeFrom_forM (fun rest s m => (∃ b, Sealing W m₀ b [] s m) ∧ s.opened = none ∧
    rest.Nodup ∧ (∀ t ∈ rest, t ∈ SEALABLE_TAGS) ∧
    ∀ P, IsPosting P → tagOf P ∈ rest → Fresh (blobKeyOf P) s) ?_
    (fun s m h => ⟨h.1, h.2.1⟩) ⟨⟨b, h⟩, hclosed, by decide, fun t ht => ht, fun P hP _ => hfresh P hP⟩
  rintro tag rest s m ⟨⟨b, h⟩, hclosed, hnodup, hsub, hfresh⟩
  refine safeFrom_mono (sweepTag_safe h (hsub tag (by simp)) fun P hP ht =>
    hfresh P hP (by simp [ht])) ?_
  rintro _ s' m' ⟨h', hclosed', hkeep⟩
  have hnot := nodup_cons.1 hnodup
  refine ⟨h', hclosed', hnot.2, fun t ht => hsub t (by simp [ht]), fun P hP ht => ?_⟩
  exact hkeep P hP (fun he => hnot.1 (he ▸ ht)) (hfresh P hP (by simp [ht]))

lemma marks_safe (claim : WriterClaim) (h : Sealing W m₀ b [] s m)
    (hfresh : ∀ P, IsPosting P → Fresh (blobKeyOf P) s) :
    Prog.safeFrom (Sealed W m₀) (do
      (← StateT.lift (scanM [Tag.dirty] none none)).forM fun mark => takeMarked claim mark.1
      modify SealState.flush) (fun _ s' m' =>
      (∃ b', Sealing W m₀ b' [] s' m') ∧ s'.opened = none) s m := by
  refine safeFrom_bind (safeFrom_lift (scanM_safe ?_))
  rw [← forM_keys]
  have hmark : ∀ k ∈ (scan m [Tag.dirty] none none).map (·.1),
      ∃ P, IsPosting P ∧ k = (markDirty P).key := fun k hk =>
    h.engine.dirty_shape k (tagOf_of_isPrefix (mem_scan_key hk).2.1) (mem_scan_key hk).1
  refine safeFrom_bind (safeFrom_forM (fun rest s m => (∃ b, Sealing W m₀ b [] s m) ∧
    rest.Pairwise (· < ·) ∧
    ∀ k ∈ rest, ∃ P, IsPosting P ∧ k = (markDirty P).key ∧ Fresh (blobKeyOf P) s) ?_ ?_
    ⟨⟨b, h⟩, scan_keys_sorted m _ _ _, fun k hk => ?_⟩)
  · rintro mark rest s m ⟨⟨b, h⟩, hsorted, hrest⟩
    obtain ⟨P, hP, rfl, hfr⟩ := hrest mark (by simp)
    refine safeFrom_mono (takeMarked_safe h hP hfr) ?_
    rintro _ s' m' ⟨h', hkeep⟩
    refine ⟨h', hsorted.of_cons, fun k hk => ?_⟩
    obtain ⟨Q, hQ, rfl, hfrQ⟩ := hrest k (by simp [hk])
    refine ⟨Q, hQ, rfl, hkeep _ (fun he => ?_) hfrQ⟩
    -- marks of one group are one mark
    have hpair := (blobKeyOf_eq_iff hQ ((segmentOf_lt hP.seqOf_lt).trans (by norm_num))).1 he
    have hlt := rel_of_pairwise_cons hsorted hk
    rw [key_markDirty, key_markDirty, hpair.1, hpair.2] at hlt
    exact lt_irrefl _ hlt
  · rintro s' m' ⟨⟨b', h'⟩, -⟩
    obtain ⟨hflush, hclosed, -⟩ := h'.flush
    exact safeFrom_modify ⟨⟨_, hflush⟩, hclosed⟩
  · obtain ⟨P, hP, rfl⟩ := hmark k hk
    exact ⟨P, hP, rfl, hfresh P hP⟩

lemma tombstones_safe (claim : WriterClaim) (h : Sealing W m₀ b [] s m)
    (hfresh : ∀ P, IsPosting P → Fresh (blobKeyOf P) s) :
    Prog.safeFrom (Sealed W m₀) (do
      (← StateT.lift (scanM [Tag.tombstone] none none)).forM fun entry => clear claim entry.1
      modify SealState.flush) (fun _ s' m' =>
      (∃ b', Sealing W m₀ b' [] s' m') ∧ s'.opened = none) s m := by
  refine safeFrom_bind (safeFrom_lift (scanM_safe ?_))
  have hshape : ∀ k ∈ (scan m [Tag.tombstone] none none).map (·.1),
      IsPosting (k.drop 1) ∧ tombstoneKey (k.drop 1) = k ∧ m.get k ≠ none := by
    intro k hk
    obtain ⟨hget, hpre, -⟩ := mem_scan_key hk
    obtain ⟨P, hP, rfl⟩ := h.engine.tombstone_shape k (tagOf_of_isPrefix hpre) hget
    exact ⟨hP, rfl, hget⟩
  have hkeys : (((scan m [Tag.tombstone] none none).map (·.1)).map (·.drop 1)).map tombstoneKey =
      (scan m [Tag.tombstone] none none).map (·.1) := by
    rw [List.map_map]
    exact (map_congr_left fun k hk => (hshape k hk).2.1).trans (List.map_id _)
  have hpost : ∀ P ∈ ((scan m [Tag.tombstone] none none).map (·.1)).map (·.drop 1),
      IsPosting P ∧ m.get (tombstoneKey P) ≠ none := by
    intro P hP
    obtain ⟨k, hk, rfl⟩ := List.mem_map.1 hP
    exact ⟨(hshape k hk).1, by rw [(hshape k hk).2.1]; exact (hshape k hk).2.2⟩
  have hsorted := scan_keys_sorted m [Tag.tombstone] none none
  rw [← hkeys, pairwise_map] at hsorted
  replace hsorted := hsorted.imp fun {P Q} hlt => (cons_lt_cons_left_iff.1 hlt : P < Q)
  rw [← forM_keys, ← hkeys, show ∀ l : List Key, (l.map tombstoneKey).forM (clear claim) =
    l.forM fun P => clear claim (tombstoneKey P) from fun l => List.forM_map]
  refine safeFrom_bind (safeFrom_mono (pass_safe tombstoneKey
    (fun P _ => groupOf_tombstoneKey P) (fun s m => ∃ b T, Sealing W m₀ b T s m)
    (fun P s m ⟨b, T, h⟩ hP ht hg => clear_safe h hP ht hg) (fun P hP => (hpost P hP).1) hsorted
    (fun P hP => (hpost P hP).2) (fun P hP => hfresh P (hpost P hP).1) ⟨b, [], h⟩) ?_)
  rintro _ s₁ m₁ ⟨⟨b₁, T₁, h₁⟩, -⟩
  obtain ⟨hflush, hclosed, -⟩ := h₁.flush
  exact safeFrom_modify ⟨⟨_, hflush⟩, hclosed⟩

lemma writeRest_safe (h : Sealing W m₀ b [] s m) (hclosed : s.opened = none) {k : SealM PUnit}
    {R : PUnit → SealState → Store → Prop}
    (hk : ∀ b' s' m', Sealing W m₀ b' [] s' m' → s'.opened = none →
      (∀ P, IsPosting P → Fresh (blobKeyOf P) s') → Prog.safeFrom (Sealed W m₀) k R s' m') :
    Prog.safeFrom (Sealed W m₀) (do
      if (← get).batch ≠ [] then writeBatch claim
      k) R s m := by
  refine safeFrom_bind (safeFrom_get (safeFrom_ite (fun hne => ?_) fun hempty => ?_))
  · refine safeFrom_bind (safeFrom_mono (writeBatch_safe h hclosed) ?_)
    rintro _ s' m' ⟨h', hclosed', hbatch, -⟩
    exact hk _ s' m' h' hclosed' fun P _ =>
      ⟨by simp [hbatch], fun _ _ he => absurd he (by simp [hclosed'])⟩
  · refine hk b s m h hclosed fun P _ => ⟨fun w hw => ?_, fun _ _ he => absurd he (by simp [hclosed])⟩
    rw [not_not.1 hempty] at hw
    exact absurd hw not_mem_nil

end sealing

lemma metaOf_after_put (c : Contents) (name : Utf16) (n : ℕ) :
    metaOf (after c [.put (metaKey name) (.raw (writeU32 n))]) name = some (n % 2 ^ 32) := by
  rw [metaOf, after_put, if_pos rfl]
  exact recordU32_writeU32 n

lemma swept_safe {m₀ m : Store} (claim : WriterClaim) {b : List (Write Key Stored)}
    {s : SealState} (h : Sealing W m₀ b [] s m) (marks : List Key)
    (hmarks : ∀ k ∈ marks, tagOf k = Tag.dirty) :
    Prog.safeFrom (Sealed W m₀) (writeBatch claim) (fun _ _ _ => True)
      { s with batch := s.batch ++ marks.map .delete ++
        [.put (metaKey META_SWEPT) (.raw (writeU32 1))] } m := by
  have h' := h.undirty hmarks
  have hbatch := h'.batch
  rw [map_nil, append_nil] at hbatch
  refine safeFrom_bind (safeFrom_get (safeFrom_bind (safeFrom_lift
    (write_safe fun u => ⟨⟨?_, fun k hk hmeta => ?_⟩, safeFrom_set trivial⟩))))
  · rw [get_wrote, after_append]
    refine Tiers.congr (hbatch ▸ h'.tiers) (fun k hk => ?_) fun h0 => ?_
    · have hne : ∀ name, k ≠ metaKey name := fun name => ne_of_tag fun he => by
        rw [he] at hk
        exact absurd hk (by simp +decide)
      rw [revised_of_ne (hne _), after_put, if_neg (hne _)]
    · rwa [metaOf, revised_of_ne (by decide), after_put, if_neg (by decide)] at h0
  · simp only [SEAL_METAS, mem_cons, not_mem_nil, or_false, not_or] at hmeta
    rw [get_wrote, after_append, revised_of_ne hmeta.2.2, after_put, if_neg hmeta.2.1]
    rw [after_of_tag fun w hw he => hk (he ▸ h'.tags w (hbatch ▸ hw))]
    exact h.frame k hk (by simp [SEAL_METAS, hmeta])

def lastWrites (claim : WriterClaim) (first : Bool) : SealM PUnit := do
  if first then do
    let marks ← StateT.lift (scanM [Tag.dirty] none none)
    modify fun s => { s with
      batch := s.batch ++ marks.map (fun entry => .delete entry.1) ++
        [.put (metaKey META_SWEPT) (.raw (writeU32 1))] }
  if (← get).batch ≠ [] then writeBatch claim

/-- What is left once the live postings are folded: the tombstones, and where it is a first seal the
marks. -/
def afterFolding (claim : WriterClaim) (first : Bool) : SealM PUnit := do
  if (← get).batch ≠ [] then writeBatch claim
  (← StateT.lift (scanM [Tag.tombstone] none none)).forM fun entry => clear claim entry.1
  modify SealState.flush
  lastWrites claim first

lemma seal_safe {m : Store} {claim : WriterClaim} (h : Tiers W m.get) :
    (sealPostings claim).safe (Sealed W m) (fun _ _ => True) m := by
  refine exclusive_safe (safe_bind.2 (readMeta_safe fun swept _ => ?_))
  refine safe_bind.2 (write_safe fun u => ?_)
  set m₁ := wrote m [.put (metaKey META_SEALED) (.raw (writeU32 1))] u with hm₁
  have hget : ∀ k, k ≠ metaKey META_SEALED → k ≠ metaKey META_REVISION → m₁.get k = m.get k := by
    intro k hs hr
    rw [hm₁, get_wrote, revised_of_ne hr, after_put, if_neg hs]
  have hsealed : metaOf m₁.get META_SEALED = some 1 := by
    rw [metaOf, hm₁, get_wrote, revised_of_ne (by decide)]
    exact metaOf_after_put m.get META_SEALED 1
  have htiers : Tiers W m₁.get := by
    refine h.congr (fun k hk => ?_) fun h0 => absurd (hsealed.symm.trans h0) (by simp)
    have hne : ∀ name, k ≠ metaKey name := fun name => ne_of_tag fun he => by
      rw [he] at hk
      exact absurd hk (by simp +decide)
    exact hget k (hne _) (hne _)
  have hframe : SealFrame m m₁ := fun k _ hk =>
    hget k (fun he => hk (by simp [SEAL_METAS, he])) fun he => hk (by simp [SEAL_METAS, he])
  refine ⟨⟨htiers, hframe⟩, safe_bind.2 ?_⟩
  have hstart : Sealing W m [] [] { revision := some (.raw u) } m₁ :=
    ⟨rfl, htiers, htiers, hframe, hsealed, by simp, fun _ => ⟨rfl, rfl⟩, fun _ _ he => absurd he (by simp)⟩
  refine safe_mono (R := fun _ _ => True) ?_ fun _ _ _ => safe_pure.2 trivial
  have hfresh : ∀ P, IsPosting P → Fresh (blobKeyOf P) { revision := some (.raw u) } :=
    fun _ _ => ⟨by simp, fun _ _ he => absurd he (by simp)⟩
  change Prog.safeFrom (Sealed W m) _ (fun _ _ _ => True) _ m₁
  -- the tombstones and the last writes, once the live postings are folded
  have hrest : ∀ b s m', Sealing W m b [] s m' → s.opened = none →
      Prog.safeFrom (Sealed W m) (afterFolding claim (!decide (0 < swept))) (fun _ _ _ => True) s m' := by
    intro b s m' h' hclosed
    refine writeRest_safe h' hclosed fun b₁ s₁ m₁ h₁ _ hfresh₁ => ?_
    have hlast : ∀ b s m', Sealing W m b [] s m' → s.opened = none →
        Prog.safeFrom (Sealed W m) (lastWrites claim (!decide (0 < swept))) (fun _ _ _ => True) s m' := by
      intro b s m' h' hclosed
      refine safeFrom_ite (fun _ => ?_) fun _ => ?_
      · refine safeFrom_bind (safeFrom_lift (scanM_safe ?_))
        refine safeFrom_bind (safeFrom_modify (safeFrom_bind (safeFrom_get
          (safeFrom_ite (fun _ => ?_) fun _ => safeFrom_pure trivial))))
        have := swept_safe claim h'
          ((scan m' [Tag.dirty] none none).map (·.1))
          fun k hk => tagOf_of_isPrefix (mem_scan_key hk).2.1
        rwa [List.map_map] at this
      · refine safeFrom_bind (safeFrom_get (safeFrom_ite (fun _ => ?_)
          fun _ => safeFrom_pure trivial))
        exact safeFrom_mono (writeBatch_safe h' hclosed) fun _ _ _ _ => trivial
    have hclear := safeFrom_bind (safeFrom_mono (tombstones_safe claim h₁
      hfresh₁) fun _ s₂ m₂ hr => hlast _ s₂ m₂ hr.1.choose_spec hr.2)
    simpa only [bind_assoc] using hclear
  refine safeFrom_ite (fun _ => ?_) fun _ => ?_
  · refine safeFrom_bind (safeFrom_mono (sweep_safe hstart rfl hfresh) ?_)
    rintro _ s m' ⟨⟨b, h'⟩, hclosed⟩
    exact hrest b s m' h' hclosed
  · have hmarks := safeFrom_bind (safeFrom_mono (marks_safe claim hstart
      hfresh) fun _ s₂ m₂ hr => hrest _ s₂ m₂ hr.1.choose_spec hr.2)
    simpa only [afterFolding, lastWrites, bind_assoc] using hmarks

end Zelavis.Db
