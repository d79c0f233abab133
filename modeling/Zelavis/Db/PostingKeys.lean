import Zelavis.Db.Contents
import Zelavis.Db.KeyOrder

/-!
# The keys an object's manifest stands for
-/

namespace Zelavis.Db

open Lib OrderedMap List

variable {man : IndexManifest} {seq : Seq} {columns : List Key}

/-! ## Lenses of keys -/

def tagOf (key : Key) : Byte := key.headD 0

lemma ne_of_tag {k k' : Key} (h : tagOf k ≠ tagOf k') : k ≠ k' := fun he => h (he ▸ rfl)

variable {k : Key}

lemma after_of_tag {c : Contents} {ws : List (Write Key Stored)}
    (h : ∀ w ∈ ws, tagOf w.key ≠ tagOf k) : after c ws k = c k :=
  after_of_forall_ne fun w hw => ne_of_tag (h w hw)

lemma after_ite {p : Prop} [Decidable p] {v : Option Stored} {c : Contents}
    (hws : ∀ w ∈ ws, w.key = k → w.value = v ∧ p) (hp : p → ∃ w ∈ ws, w.key = k) :
    after c ws k = if p then v else c k := by
  split_ifs with h
  · exact after_of_exists (hp h) fun w hw hk => (hws w hw hk).1
  · exact after_of_forall_ne fun w hw hk => h (hws w hw hk).2

variable {t : Byte} {A B : List Byte}

lemma tag_notMem (h : (A.all fun t => !B.contains t) = true) (ht : t ∈ A) : t ∉ B := by
  simpa using List.all_eq_true.1 h t ht

lemma tag_mem (h : (A.all fun t => B.contains t) = true) (ht : t ∈ A) : t ∈ B := by
  simpa using List.all_eq_true.1 h t ht

@[simp] lemma tagOf_payloadKey (n : ℕ) : tagOf (payloadKey n) = Tag.payload := rfl
@[simp] lemma tagOf_manifestKey (n : ℕ) : tagOf (manifestKey n) = Tag.manifest := rfl
@[simp] lemma tagOf_measureKey (c : Utf16) (n : ℕ) : tagOf (measureKey c n) = Tag.measure := rfl
@[simp] lemma tagOf_identityKey (a b : Utf16) : tagOf (identityKey a b) = Tag.identity := rfl
@[simp] lemma tagOf_identityBySeqKey (n : ℕ) : tagOf (identityBySeqKey n) = Tag.identityBySeq := rfl
@[simp] lemma tagOf_metaKey (s : Utf16) : tagOf (metaKey s) = Tag.meta := rfl
@[simp] lemma tagOf_eventKey (n : ℕ) : tagOf (eventKey n) = Tag.event := rfl
@[simp] lemma tagOf_snapshotKey (n : ℕ) : tagOf (snapshotKey n) = Tag.snapshot := rfl
@[simp] lemma tagOf_tombstoneKey (k : Key) : tagOf (tombstoneKey k) = Tag.tombstone := rfl
@[simp] lemma tagOf_segmentKey (k : Key) (n : ℕ) : tagOf (segmentKey k n) = Tag.segment := rfl
@[simp] lemma tagOf_dirtyKey (k : Key) (n : ℕ) : tagOf (dirtyKey k n) = Tag.dirty := rfl

/-! ## Keys that spell identifiers -/

variable {m n : ℕ}

lemma cons_writeU32_inj : t :: writeU32 m = t :: writeU32 n ↔ m % 2 ^ 32 = n % 2 ^ 32 := by
  rw [List.cons.injEq, writeU32_inj]
  simp

lemma payloadKey_inj : payloadKey m = payloadKey n ↔ m % 2 ^ 32 = n % 2 ^ 32 :=
  cons_writeU32_inj

lemma manifestKey_inj : manifestKey m = manifestKey n ↔ m % 2 ^ 32 = n % 2 ^ 32 :=
  cons_writeU32_inj

lemma tombstoneKey_inj {P Q : Key} : tombstoneKey P = tombstoneKey Q ↔ P = Q := by
  simp [tombstoneKey, under]

lemma segmentKey_inj {l l' : Key} {n n' : ℕ} :
    segmentKey l n = segmentKey l' n' ↔ l = l' ∧ n % 2 ^ 32 = n' % 2 ^ 32 := by
  rw [segmentKey, segmentKey, under, under, cons_append, cons_append, List.cons.injEq, posting_inj]
  simp

/-! ## Postings -/

def IsPosting (key : Key) : Prop := ∃ l ∈ lensCode, ∃ id < 2 ^ 32, key = l ++ writeU32 id

lemma isPosting_append {l : Key} (hl : l ∈ lensCode) (n : ℕ) : IsPosting (l ++ writeU32 n) :=
  ⟨l, hl, n % 2 ^ 32, Nat.mod_lt _ (by norm_num), by rw [writeU32_mod]⟩

variable {P : Key}

lemma IsPosting.tag (h : IsPosting P) : tagOf P ∈ SEALABLE_TAGS := by
  obtain ⟨l, hl, id, -, rfl⟩ := h
  obtain ⟨t, ht, body, rfl⟩ := lensCode_head hl
  exact ht

lemma IsPosting.ne {P k : Key} (h : IsPosting P) (hk : tagOf k ∉ SEALABLE_TAGS) : P ≠ k :=
  fun he => hk (he ▸ h.tag)

lemma mem_postingKeys :
    P ∈ postingKeys seq man ↔ (∃ t ∈ man.terms, P = termKey t.1 t.2 seq) ∨
      (∃ c ∈ man.columns, orderedKey c.1 (.scalar c.2) seq = some P) ∨
      ∃ e ∈ man.edges, P = edgeKey e.1 seq e.2 ∨ P = reverseEdgeKey e.1 e.2 seq := by
  simp only [postingKeys, mem_append, List.mem_map, mem_filterMap, mem_flatMap,
    edgeKeys, mem_cons, not_mem_nil, or_false, or_assoc, eq_comm (a := P)]

lemma orderedKey_eq_some {c : Utf16} {v : OrderedValue} {n : ℕ} :
    orderedKey c v n = some P ↔ ∃ l, orderedValuePrefix c v = some l ∧ P = l ++ writeU32 n := by
  simp [orderedKey, eq_comm]

lemma isPosting_of_mem (h : P ∈ postingKeys seq man) : IsPosting P := by
  rcases mem_postingKeys.1 h with ⟨t, -, rfl⟩ | ⟨c, -, hc⟩ | ⟨e, -, rfl | rfl⟩
  · exact isPosting_append (termPrefix_mem_lensCode _ _) seq
  · obtain ⟨l, hl, rfl⟩ := orderedKey_eq_some.1 hc
    exact isPosting_append (orderedValuePrefix_mem_lensCode hl) seq
  · exact isPosting_append (edgePrefix_mem_lensCode _ _) e.2
  · exact isPosting_append (reverseEdgePrefix_mem_lensCode _ _) seq

/-- The object a posting belongs to: the source of an edge, else the trailing identifier. -/
def ownerOf (P : Key) : ℕ :=
  if tagOf P = Tag.edge then seqOf (livePrefixOf P) else seqOf P

lemma owner_of_mem
    (h : P ∈ postingKeys seq man) : ownerOf P = seq % 2 ^ 32 := by
  rcases mem_postingKeys.1 h with ⟨t, -, rfl⟩ | ⟨c, -, hc⟩ | ⟨e, -, rfl | rfl⟩
  · rw [ownerOf, if_neg (by simp +decide [termKey, termPrefix, tagOf]), termKey, seqOf_append]
  · obtain ⟨l, hl, rfl⟩ := orderedKey_eq_some.1 hc
    obtain ⟨w, -, rfl⟩ := orderedValuePrefix_eq_some.1 hl
    rw [ownerOf, if_neg (by simp +decide [orderedColumnPrefix, tagOf]), seqOf_append]
  · rw [ownerOf, if_pos (by simp [edgeKey, edgePrefix, tagOf]), edgeKey, livePrefixOf_append,
      edgePrefix, ← cons_append, seqOf_append]
  · rw [ownerOf, if_neg (by simp +decide [reverseEdgeKey, reverseEdgePrefix, tagOf]),
      reverseEdgeKey, seqOf_append]

lemma postingKeys_congr {seq' : Seq} (h : seq % 2 ^ 32 = seq' % 2 ^ 32)
    (man : IndexManifest) : postingKeys seq man = postingKeys seq' man := by
  have hw : writeU32 seq = writeU32 seq' := writeU32_inj.2 h
  have he : edgeKeys seq = edgeKeys seq' := funext fun e => by
    simp only [edgeKeys, edgeKey, reverseEdgeKey, edgePrefix, hw]
  simp only [postingKeys, termKey, orderedKey, hw, he]

lemma columnKeys_eq
    (h : columnKeys seq man = some columns) :
    man.columns.filterMap (fun c => orderedKey c.1 (.scalar c.2) seq) = columns := by
  rw [columnKeys] at h
  generalize man.columns = l at h ⊢
  induction l generalizing columns with
  | nil => simpa using h
  | cons c l ih =>
    simp only [mapM_cons, Option.bind_eq_bind, Option.bind_eq_some_iff, Option.pure_def,
      Option.some.injEq] at h
    obtain ⟨k, hk, ks, hks, rfl⟩ := h
    rw [filterMap_cons, hk, ih hks]

variable {v : OrderedScalar}

lemma writeOrderedValue_jsonScalar {w : Bytes}
    (h : writeOrderedValue (.scalar v) = some w) : writeOrderedValue (.scalar (jsonScalar v)) = some w := by
  cases v with
  | number n =>
    have hn : n.isFinite := by
      obtain ⟨w, hw, -⟩ := Option.map_eq_some_iff.1 h
      exact (writeNumber_eq_some hw).1
    simpa [jsonScalar, hn, writeOrderedValue, writeNumber] using h
  | _ => exact h

lemma orderedKey_jsonScalar {c : Utf16}
    (h : orderedKey c (.scalar v) seq = some P) : orderedKey c (.scalar (jsonScalar v)) seq = some P := by
  obtain ⟨l, hl, rfl⟩ := orderedKey_eq_some.1 h
  obtain ⟨w, hw, rfl⟩ := orderedValuePrefix_eq_some.1 hl
  exact orderedKey_eq_some.2 ⟨_, orderedValuePrefix_eq_some.2
    ⟨w, writeOrderedValue_jsonScalar hw, rfl⟩, rfl⟩

lemma postingKeys_jsonManifest
    (h : columnKeys seq man = some columns) : postingKeys seq (jsonManifest man) = postingKeys seq man := by
  have hcols : (jsonManifest man).columns.filterMap
      (fun c => orderedKey c.1 (.scalar c.2) seq) =
      man.columns.filterMap fun c => orderedKey c.1 (.scalar c.2) seq := by
    rw [jsonManifest, filterMap_map]
    refine filterMap_congr fun c hc => ?_
    obtain ⟨k, hk⟩ : ∃ k, orderedKey c.1 (.scalar c.2) seq = some k := by
      rw [columnKeys] at h
      generalize man.columns = l at h hc
      induction l generalizing columns with
      | nil => exact absurd hc not_mem_nil
      | cons c' l ih =>
        simp only [mapM_cons, Option.bind_eq_bind, Option.bind_eq_some_iff, Option.pure_def,
          Option.some.injEq] at h
        obtain ⟨k, hk, ks, hks, rfl⟩ := h
        rcases mem_cons.1 hc with rfl | hc
        · exact ⟨k, hk⟩
        · exact ih hks hc
    rw [Function.comp, hk]
    exact orderedKey_jsonScalar hk
  rw [postingKeys, hcols]
  rfl

/-! ## What dropping and adding write -/

variable {w : Write Key Stored}

lemma mem_retraction {sealed : Bool}
    (h : columnKeys seq man = some columns) :
    w ∈ retraction seq man columns sealed ↔ (∃ P ∈ postingKeys seq man, w ∈ dropPosting P sealed) ∨
      (∃ c ∈ man.measures, w = .delete (measureKey c.1 seq)) ∨ w = .delete (manifestKey seq) := by
  rw [← columnKeys_eq h]
  simp only [retraction, postingKeys, mem_append, mem_flatMap, List.mem_map,
    mem_filterMap, mem_cons, not_mem_nil, or_false]
  constructor
  · rintro ((((⟨t, ht, hw⟩ | ⟨P, hP, hw⟩) | ⟨c, hc, rfl⟩) | ⟨e, he, P, hP, hw⟩) | rfl)
    · exact .inl ⟨_, .inl (.inl ⟨t, ht, rfl⟩), hw⟩
    · exact .inl ⟨P, .inl (.inr hP), hw⟩
    · exact .inr (.inl ⟨c, hc, rfl⟩)
    · exact .inl ⟨P, .inr ⟨e, he, hP⟩, hw⟩
    · exact .inr (.inr rfl)
  · rintro (⟨P, (⟨t, ht, rfl⟩ | hP) | ⟨e, he, hP⟩, hw⟩ | ⟨c, hc, rfl⟩ | rfl)
    · exact .inl (.inl (.inl (.inl ⟨t, ht, hw⟩)))
    · exact .inl (.inl (.inl (.inr ⟨P, hP, hw⟩)))
    · exact .inl (.inr ⟨e, he, P, hP, hw⟩)
    · exact .inl (.inl (.inr ⟨c, hc, rfl⟩))
    · exact .inr rfl

lemma mem_projection {version : ℕ} {body : Bytes} {sealed : Bool} (h : columnKeys seq man = some columns) :
    w ∈ projection seq version body man columns sealed ↔
      w = .put (payloadKey seq) (encodePayload version body) ∨
      (∃ P ∈ postingKeys seq man, w ∈ addPosting P EMPTY sealed) ∨
      (∃ c ∈ man.measures, w = .put (measureKey c.1 seq) (f64 c.2)) ∨
      w = .put (manifestKey seq) (.manifest (jsonManifest man)) := by
  rw [← columnKeys_eq h]
  simp only [projection, postingKeys, mem_append, mem_flatMap, List.mem_map,
    mem_filterMap, mem_cons, not_mem_nil, or_false]
  constructor
  · rintro (((((rfl | ⟨t, ht, hw⟩) | ⟨P, hP, hw⟩) | ⟨c, hc, rfl⟩) | ⟨e, he, P, hP, hw⟩) | rfl)
    · exact .inl rfl
    · exact .inr (.inl ⟨_, .inl (.inl ⟨t, ht, rfl⟩), hw⟩)
    · exact .inr (.inl ⟨P, .inl (.inr hP), hw⟩)
    · exact .inr (.inr (.inl ⟨c, hc, rfl⟩))
    · exact .inr (.inl ⟨P, .inr ⟨e, he, hP⟩, hw⟩)
    · exact .inr (.inr (.inr rfl))
  · rintro (rfl | ⟨P, (⟨t, ht, rfl⟩ | hP) | ⟨e, he, hP⟩, hw⟩ | ⟨c, hc, rfl⟩ | rfl)
    · exact .inl (.inl (.inl (.inl (.inl rfl))))
    · exact .inl (.inl (.inl (.inl (.inr ⟨t, ht, hw⟩))))
    · exact .inl (.inl (.inl (.inr ⟨P, hP, hw⟩)))
    · exact .inl (.inr ⟨e, he, P, hP, hw⟩)
    · exact .inl (.inl (.inr ⟨c, hc, rfl⟩))
    · exact .inr rfl

/-! ## What dropping leaves -/

variable {c' : Contents}

section retraction

variable {c : Contents} {seq : Seq} {man : IndexManifest} {columns : List Key} {sealed : Bool}

lemma mem_dropPosting : w ∈ dropPosting P sealed ↔ w = .delete P ∨
      sealed = true ∧ (w = .put (tombstoneKey P) EMPTY ∨ w = markDirty P) := by
  cases sealed <;> simp [dropPosting]

lemma mem_addPosting {v : Stored} : w ∈ addPosting P v sealed ↔ w = .put P v ∨
      sealed = true ∧ (w = .delete (tombstoneKey P) ∨ w = markDirty P) := by
  cases sealed <;> simp [addPosting]

@[simp] lemma key_markDirty (P : Key) :
    (markDirty P).key = dirtyKey (livePrefixOf P) (segmentOf (seqOf P)) := rfl

section

variable (h : columnKeys seq man = some columns)
include h

lemma retraction_tag (hw : w ∈ retraction seq man columns sealed) :
    tagOf w.key ∈ SEALABLE_TAGS ++ [Tag.tombstone, Tag.dirty, Tag.measure, Tag.manifest] := by
  rw [mem_append]
  rcases (mem_retraction h).1 hw with ⟨P, hP, hw⟩ | ⟨c, -, rfl⟩ | rfl
  · rcases mem_dropPosting.1 hw with rfl | ⟨-, rfl | rfl⟩
    · exact .inl (isPosting_of_mem hP).tag
    · exact .inr (by simp [Write.key])
    · exact .inr (by simp)
  · exact .inr (by simp [Write.key])
  · exact .inr (by simp [Write.key])

lemma after_retraction_posting (hP : IsPosting P) :
    after c (retraction seq man columns sealed) P = if P ∈ postingKeys seq man then none else c P := by
  refine after_ite (fun w hw hk => ?_) fun hmem => ?_
  · rcases (mem_retraction h).1 hw with ⟨Q, hQ, hw⟩ | ⟨c, -, rfl⟩ | rfl
    · rcases mem_dropPosting.1 hw with rfl | ⟨-, rfl | rfl⟩
      · obtain rfl : Q = P := hk
        exact ⟨rfl, hQ⟩
      · exact absurd hk.symm (hP.ne (by simp +decide [Write.key]))
      · exact absurd hk.symm (hP.ne (by simp +decide))
    · exact absurd hk.symm (hP.ne (by simp +decide [Write.key]))
    · exact absurd hk.symm (hP.ne (by simp +decide [Write.key]))
  · exact ⟨_, (mem_retraction h).2 (.inl ⟨P, hmem, mem_dropPosting.2 (.inl rfl)⟩), rfl⟩

lemma after_retraction_tombstone (P : Key) :
    after c (retraction seq man columns sealed) (tombstoneKey P) =
      if sealed = true ∧ P ∈ postingKeys seq man then some EMPTY else c (tombstoneKey P) := by
  refine after_ite (fun w hw hk => ?_) fun hmem => ?_
  · rcases (mem_retraction h).1 hw with ⟨Q, hQ, hw⟩ | ⟨c, -, rfl⟩ | rfl
    · rcases mem_dropPosting.1 hw with rfl | ⟨hs, rfl | rfl⟩
      · exact absurd hk ((isPosting_of_mem hQ).ne (by simp +decide))
      · obtain rfl := tombstoneKey_inj.1 hk
        exact ⟨rfl, hs, hQ⟩
      · exact absurd hk (ne_of_tag (by simp +decide))
    · exact absurd hk (ne_of_tag (by simp +decide [Write.key]))
    · exact absurd hk (ne_of_tag (by simp +decide [Write.key]))
  · exact ⟨_, (mem_retraction h).2
      (.inl ⟨P, hmem.2, mem_dropPosting.2 (.inr ⟨hmem.1, .inl rfl⟩)⟩), rfl⟩

lemma after_retraction_manifest (n : Seq) :
    after c (retraction seq man columns sealed) (manifestKey n) =
      if n % 2 ^ 32 = seq % 2 ^ 32 then none else c (manifestKey n) := by
  refine after_ite (fun w hw hk => ?_) fun hmem => ?_
  · rcases (mem_retraction h).1 hw with ⟨Q, hQ, hw⟩ | ⟨c, -, rfl⟩ | rfl
    · rcases mem_dropPosting.1 hw with rfl | ⟨-, rfl | rfl⟩
      · exact absurd hk ((isPosting_of_mem hQ).ne (by simp +decide))
      · exact absurd hk (ne_of_tag (by simp +decide [Write.key]))
      · exact absurd hk (ne_of_tag (by simp +decide))
    · exact absurd hk (ne_of_tag (by simp +decide [Write.key]))
    · exact ⟨rfl, (manifestKey_inj.1 hk).symm⟩
  · exact ⟨_, (mem_retraction h).2 (.inr (.inr rfl)), manifestKey_inj.2 hmem.symm⟩

lemma after_retraction_dirty (hk : tagOf k = Tag.dirty) :
    after c (retraction seq man columns sealed) k = c k ∨
      ∃ P ∈ postingKeys seq man, k = (markDirty P).key := by
  by_cases hmem : ∃ P ∈ postingKeys seq man, k = (markDirty P).key
  · exact .inr hmem
  · refine .inl (after_of_forall_ne fun w hw he => ?_)
    rcases (mem_retraction h).1 hw with ⟨Q, hQ, hw⟩ | ⟨c, -, rfl⟩ | rfl
    · rcases mem_dropPosting.1 hw with rfl | ⟨-, rfl | rfl⟩
      · exact (isPosting_of_mem hQ).ne (by rw [hk]; decide) he
      · subst he
        simp +decide [Write.key] at hk
      · exact hmem ⟨Q, hQ, he.symm⟩
    · subst he
      simp +decide [Write.key] at hk
    · subst he
      simp +decide [Write.key] at hk

end

lemma forgetIdentity_frame (h : forgetIdentity seq c = some c')
    (hk : tagOf k ∉ [Tag.identity, Tag.identityBySeq]) : c' k = c k := by
  rw [forgetIdentity] at h
  cases hs : c (identityBySeqKey seq) with
  | none =>
    rw [hs] at h
    rw [← Option.some.inj h]
  | some stored =>
    rw [hs] at h
    obtain ⟨identity, -, rfl⟩ := Option.map_eq_some_iff.1 h
    refine after_of_tag fun w hw he => hk ?_
    rw [← he]
    rcases mem_cons.1 hw with rfl | hw
    · simp [Write.key]
    · rw [mem_singleton.1 hw]
      simp [Write.key]

/-- What dropping an object does: nothing without a manifest, else its postings go and its identity
is forgotten. -/
theorem unproject_cases (h : unprojectC seq sealed c = some c') : c (manifestKey seq) = none ∧ c' = c ∨
    ∃ man columns, c (manifestKey seq) = some (.manifest man) ∧ manifestRecord man ∧
      columnKeys seq man = some columns ∧
      forgetIdentity seq (after c (retraction seq man columns sealed)) = some c' := by
  rw [unprojectC] at h
  cases hs : c (manifestKey seq) with
  | none =>
    rw [hs] at h
    exact .inl ⟨rfl, (Option.some.inj h).symm⟩
  | some stored =>
    rw [hs] at h
    simp only [Option.bind_eq_bind, Option.bind_eq_some_iff] at h
    obtain ⟨man, hman, columns, hcol, hc'⟩ := h
    have hrec : stored = .manifest man ∧ manifestRecord man := by
      cases stored with
      | manifest m =>
        rw [unjsonManifest] at hman
        split_ifs at hman with hr
        obtain rfl := Option.some.inj hman
        exact ⟨rfl, hr⟩
      | _ => exact absurd hman (by simp [unjsonManifest])
    exact .inr ⟨man, columns, by rw [hrec.1], hrec.2, hcol, hc'⟩

end retraction

/-! ## What adding leaves -/

variable {identity : Option ObjectIdentity}

section projection

variable {c : Contents} {seq : Seq} {version : ℕ} {body : Bytes} {man : IndexManifest}
  {columns : List Key} {sealed : Bool}

section

variable (h : columnKeys seq man = some columns)
include h

lemma projection_tag
    (hw : w ∈ projection seq version body man columns sealed) : tagOf w.key ∈
      SEALABLE_TAGS ++ [Tag.tombstone, Tag.dirty, Tag.measure, Tag.manifest, Tag.payload] := by
  rw [mem_append]
  rcases (mem_projection h).1 hw with rfl | ⟨P, hP, hw⟩ | ⟨c, -, rfl⟩ | rfl
  · exact .inr (by simp [Write.key])
  · rcases mem_addPosting.1 hw with rfl | ⟨-, rfl | rfl⟩
    · exact .inl (isPosting_of_mem hP).tag
    · exact .inr (by simp [Write.key])
    · exact .inr (by simp)
  · exact .inr (by simp [Write.key])
  · exact .inr (by simp [Write.key])

lemma after_projection_posting (hP : IsPosting P) :
    after c (projection seq version body man columns sealed) P =
      if P ∈ postingKeys seq man then some EMPTY else c P := by
  refine after_ite (fun w hw hk => ?_) fun hmem => ?_
  · rcases (mem_projection h).1 hw with rfl | ⟨Q, hQ, hw⟩ | ⟨c, -, rfl⟩ | rfl
    · exact absurd hk.symm (hP.ne (by simp +decide [Write.key]))
    · rcases mem_addPosting.1 hw with rfl | ⟨-, rfl | rfl⟩
      · obtain rfl : Q = P := hk
        exact ⟨rfl, hQ⟩
      · exact absurd hk.symm (hP.ne (by simp +decide [Write.key]))
      · exact absurd hk.symm (hP.ne (by simp +decide))
    · exact absurd hk.symm (hP.ne (by simp +decide [Write.key]))
    · exact absurd hk.symm (hP.ne (by simp +decide [Write.key]))
  · exact ⟨_, (mem_projection h).2
      (.inr (.inl ⟨P, hmem, mem_addPosting.2 (.inl rfl)⟩)), rfl⟩

lemma after_projection_tombstone (P : Key) :
    after c (projection seq version body man columns sealed) (tombstoneKey P) =
      if sealed = true ∧ P ∈ postingKeys seq man then none else c (tombstoneKey P) := by
  refine after_ite (fun w hw hk => ?_) fun hmem => ?_
  · rcases (mem_projection h).1 hw with rfl | ⟨Q, hQ, hw⟩ | ⟨c, -, rfl⟩ | rfl
    · exact absurd hk (ne_of_tag (by simp +decide [Write.key]))
    · rcases mem_addPosting.1 hw with rfl | ⟨hs, rfl | rfl⟩
      · exact absurd hk ((isPosting_of_mem hQ).ne (by simp +decide))
      · obtain rfl := tombstoneKey_inj.1 hk
        exact ⟨rfl, hs, hQ⟩
      · exact absurd hk (ne_of_tag (by simp +decide))
    · exact absurd hk (ne_of_tag (by simp +decide [Write.key]))
    · exact absurd hk (ne_of_tag (by simp +decide [Write.key]))
  · exact ⟨_, (mem_projection h).2
      (.inr (.inl ⟨P, hmem.2, mem_addPosting.2 (.inr ⟨hmem.1, .inl rfl⟩)⟩)), rfl⟩

lemma after_projection_manifest (n : Seq) :
    after c (projection seq version body man columns sealed) (manifestKey n) =
      if n % 2 ^ 32 = seq % 2 ^ 32 then some (.manifest (jsonManifest man)) else c (manifestKey n) := by
  refine after_ite (fun w hw hk => ?_) fun hmem => ?_
  · rcases (mem_projection h).1 hw with rfl | ⟨Q, hQ, hw⟩ | ⟨c, -, rfl⟩ | rfl
    · exact absurd hk (ne_of_tag (by simp +decide [Write.key]))
    · rcases mem_addPosting.1 hw with rfl | ⟨-, rfl | rfl⟩
      · exact absurd hk ((isPosting_of_mem hQ).ne (by simp +decide))
      · exact absurd hk (ne_of_tag (by simp +decide [Write.key]))
      · exact absurd hk (ne_of_tag (by simp +decide))
    · exact absurd hk (ne_of_tag (by simp +decide [Write.key]))
    · exact ⟨rfl, (manifestKey_inj.1 hk).symm⟩
  · exact ⟨_, (mem_projection h).2 (.inr (.inr (.inr rfl))),
      manifestKey_inj.2 hmem.symm⟩

lemma after_projection_payload (n : Seq) :
    after c (projection seq version body man columns sealed) (payloadKey n) =
      if n % 2 ^ 32 = seq % 2 ^ 32 then some (encodePayload version body) else c (payloadKey n) := by
  refine after_ite (fun w hw hk => ?_) fun hmem => ?_
  · rcases (mem_projection h).1 hw with rfl | ⟨Q, hQ, hw⟩ | ⟨c, -, rfl⟩ | rfl
    · exact ⟨rfl, (payloadKey_inj.1 hk).symm⟩
    · rcases mem_addPosting.1 hw with rfl | ⟨-, rfl | rfl⟩
      · exact absurd hk ((isPosting_of_mem hQ).ne (by simp +decide))
      · exact absurd hk (ne_of_tag (by simp +decide [Write.key]))
      · exact absurd hk (ne_of_tag (by simp +decide))
    · exact absurd hk (ne_of_tag (by simp +decide [Write.key]))
    · exact absurd hk (ne_of_tag (by simp +decide [Write.key]))
  · exact ⟨_, (mem_projection h).2 (.inl rfl), payloadKey_inj.2 hmem.symm⟩

end

lemma recordIdentity_frame
    (hk : tagOf k ∉ [Tag.identity, Tag.identityBySeq]) : recordIdentity seq identity c k = c k := by
  cases identity with
  | none => rfl
  | some identity =>
    refine after_of_tag fun w hw he => hk ?_
    rw [← he]
    rcases mem_cons.1 hw with rfl | hw
    · simp [Write.key]
    · rw [mem_singleton.1 hw]
      simp [Write.key]

/-- What writing an object does: the old one is dropped, the new one is added and its identity is
recorded. -/
theorem project_cases (h : projectC seq version body man sealed identity c = some c') :
    ∃ c₁ columns, unprojectC seq sealed c = some c₁ ∧ columnKeys seq man = some columns ∧
      c' = recordIdentity seq identity (after c₁ (projection seq version body man columns sealed)) := by
  simp only [projectC, Option.bind_eq_bind, Option.bind_eq_some_iff, Option.pure_def, Option.some.injEq] at h
  obtain ⟨c₁, h₁, columns, hcol, rfl⟩ := h
  exact ⟨c₁, columns, h₁, hcol, rfl⟩

end projection

end Zelavis.Db
