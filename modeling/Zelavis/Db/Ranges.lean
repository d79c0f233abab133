import Zelavis.Db.Answers

/-!
# Ranges of the ordered lens

The key range `rangeBounds` computes covers the values the range asks for, and `rangePostings`
answers with the identifiers that hold one.
-/

namespace Zelavis.Db

open Lib OrderedMap List Option

/-! ## Encodings -/

lemma JsNumber.toInt_eq_iff {a b : JsNumber} : a.toInt = b.toInt ↔ a.normal = b.normal := by
  constructor
  · intro h
    obtain ⟨x⟩ := a
    obtain ⟨y⟩ := b
    simp only [toInt] at h
    by_cases hzero : x.val % 0x8000000000000000 = 0 ∧ y.val % 0x8000000000000000 = 0
    · simp [normal, isZero, hzero.1, hzero.2]
    · have hxy : x = y := by
        apply Fin.ext
        split_ifs at h <;> omega
      rw [hxy]
  · intro h
    rw [← toInt_normal a, h, toInt_normal]

lemma encode_eq_iff {a b : OrderedScalar} {v w : Bytes}
    (ha : writeOrderedValue (.scalar a) = some v) (hb : writeOrderedValue (.scalar b) = some w)
    (htold : ∀ s ∈ a.strings, ∀ t ∈ b.strings, utf8 s = utf8 t → s = t) : v = w ↔ a.same b := by
  have horder := writeOrderedValue_lt_iff ha hb
  have horder' := writeOrderedValue_lt_iff hb ha
  have heq : v = w ↔ ¬ a.lt b ∧ ¬ b.lt a := by
    rw [← horder, ← horder', not_lt, not_lt]
    exact ⟨fun h => ⟨h.ge, h.le⟩, fun h => le_antisymm h.2 h.1⟩
  rw [heq]
  rcases a with _ | x | x | x <;> rcases b with _ | y | y | y <;>
    simp only [OrderedScalar.lt, OrderedScalar.same, OrderedScalar.kind, lt_irrefl, not_false_eq_true,
      and_self, reduceCtorEq, OrderedScalar.boolean.injEq,
      OrderedScalar.string.injEq, iff_false, not_and, not_not]
  all_goals first
    | omega
    | (cases x <;> cases y <;> decide)
    | skip
  · rw [← JsNumber.toInt_eq_iff]
    omega
  · rw [not_lt, not_lt]
    have htold' := htold x (mem_singleton_self x) y (mem_singleton_self y)
    constructor
    · rintro ⟨h₁, h₂⟩
      exact htold' (by rw [utf8, utf8, le_antisymm h₂ h₁])
    · rintro rfl
      exact ⟨le_rfl, le_rfl⟩

lemma rank_of_write {v : OrderedScalar} {w : Bytes} (h : writeOrderedValue (.scalar v) = some w) :
    ∃ r body, w = r :: body ∧ ∀ u : OrderedScalar, ((kindOf (.scalar u)).1 ≤ r ↔ u.kind ≤ v.kind) ∧
        (r < (kindOf (.scalar u)).2 + 1 ↔ v.kind ≤ u.kind) := by
  rcases v with _ | (_ | _) | n | s
  · refine ⟨Rank.null, [], (some.inj h).symm, fun u => ?_⟩
    cases u <;> simp +decide [kindOf, OrderedScalar.kind]
  · refine ⟨Rank.false, [], (some.inj h).symm, fun u => ?_⟩
    cases u <;> simp +decide [kindOf, OrderedScalar.kind]
  · refine ⟨Rank.true, [], (some.inj h).symm, fun u => ?_⟩
    cases u <;> simp +decide [kindOf, OrderedScalar.kind]
  · obtain ⟨body, -, rfl⟩ := map_eq_some_iff.1 h
    refine ⟨Rank.number, body, rfl, fun u => ?_⟩
    cases u <;> simp +decide [kindOf, OrderedScalar.kind]
  · refine ⟨Rank.string, writeString s, (some.inj h).symm, fun u => ?_⟩
    cases u <;> simp +decide [kindOf, OrderedScalar.kind]

/-! ## Bounds -/

variable {column : Utf16} {a v : OrderedScalar} {p : Key} {w : Bytes}

lemma key_lt_iff (hp : orderedValuePrefix column (.scalar a) = some p)
    (hw : writeOrderedValue (.scalar v) = some w) (x : Bytes) :
    orderedColumnPrefix column ++ w ++ x < p ↔ v.lt a := by
  obtain ⟨wa, hwa, rfl⟩ := orderedValuePrefix_eq_some.1 hp
  have h := valueCode_prefixCode.append_lt_iff ⟨_, hw⟩ ⟨_, hwa⟩ x []
  rw [append_nil] at h
  rw [append_assoc, append_lt_append_left_iff, h, writeOrderedValue_lt_iff hw hwa]
  exact or_iff_left fun hx => not_lt_nil x hx.2

variable {wa : Bytes}

lemma prefix_key_iff (hwa : writeOrderedValue (.scalar a) = some wa)
    (hw : writeOrderedValue (.scalar v) = some w) (x : Bytes) :
    orderedColumnPrefix column ++ wa <+: orderedColumnPrefix column ++ w ++ x ↔ wa = w := by
  rw [append_assoc, prefix_append_right_inj]
  constructor
  · exact valueCode_prefixCode.eq_of_isPrefix ⟨_, hwa⟩ ⟨_, hw⟩
  · rintro rfl
    exact prefix_append _ _

variable {inclusive : Bool}

lemma lower_key_iff {p k : Key} (hp : (prefixEnd p).isSome) :
    (∀ l ∈ (if inclusive then some p else prefixEnd p), l ≤ k) ↔
      ¬ k < p ∧ (inclusive = true ∨ ¬ p <+: k) := by
  obtain ⟨e, he⟩ := isSome_iff_exists.1 hp
  cases inclusive with
  | true => simp
  | false =>
    simp only [he, Bool.false_eq_true, if_false, mem_def, Option.some.injEq, forall_eq',
      false_or, prefixEnd_le_iff he, not_lt]
    exact and_congr_left fun hno => ⟨le_of_lt, fun h => lt_of_le_of_ne h
      fun heq => hno (heq ▸ prefix_refl p)⟩

lemma upper_key_iff {p k : Key} :
    (∀ u ∈ (if inclusive then prefixEnd p else some p), k < u) ↔ k < p ∨ inclusive = true ∧ p <+: k := by
  cases inclusive with
  | false => simp
  | true =>
    simp only [if_true, true_and]
    constructor
    · intro h
      by_cases hle : p ≤ k
      · exact .inr ((prefixEnd_range _ _).1 ⟨hle, h⟩)
      · exact .inl (not_le.1 hle)
    · rintro (h | h) e he
      · exact h.trans (lt_prefixEnd_of_isPrefix he (prefix_refl p))
      · exact lt_prefixEnd_of_isPrefix he h

lemma prefixEnd_column_isSome (column : Utf16) (x : Bytes) :
    (prefixEnd (orderedColumnPrefix column ++ x)).isSome :=
  prefixEnd_cons_isSome (show Tag.ordered < 0xff by decide) (writeString column ++ x)

variable {bound : RangeBound}

section

variable (hwa : writeOrderedValue (.scalar bound.value) = some wa)
  (hw : writeOrderedValue (.scalar v) = some w)
  (htold : ∀ s ∈ bound.value.strings, ∀ t ∈ v.strings, utf8 s = utf8 t → s = t)
include hwa hw htold

lemma below_iff :
    ¬ v.lt bound.value ∧ (bound.inclusive = true ∨ ¬ wa = w) ↔ bound.below v := by
  rw [RangeBound.below, ← writeOrderedValue_lt_iff hw hwa, ← writeOrderedValue_lt_iff hwa hw,
    ← encode_eq_iff hwa hw htold, not_lt, le_iff_lt_or_eq]
  constructor
  · rintro ⟨h | h, hi | hne⟩
    · exact .inl h
    · exact .inl h
    · exact .inr ⟨hi, h⟩
    · exact absurd h hne
  · rintro (h | ⟨hi, h⟩)
    · exact ⟨.inl h, .inr h.ne⟩
    · exact ⟨.inr h, .inl hi⟩

lemma above_iff :
    v.lt bound.value ∨ bound.inclusive = true ∧ wa = w ↔ bound.above v := by
  rw [RangeBound.above, ← encode_eq_iff hwa hw htold]

end

lemma kind_le_of_below (h : bound.below v) : bound.value.kind ≤ v.kind := by
  obtain ⟨a, i⟩ := bound
  rcases h with h | ⟨-, h⟩ <;> rcases a with _ | a | a | a <;> rcases v with _ | v | v | v <;>
    simp_all [OrderedScalar.lt, OrderedScalar.same, OrderedScalar.kind]

lemma kind_le_of_above (h : bound.above v) : v.kind ≤ bound.value.kind := by
  obtain ⟨a, i⟩ := bound
  rcases h with h | ⟨-, h⟩ <;> rcases a with _ | a | a | a <;> rcases v with _ | v | v | v <;>
    simp_all [OrderedScalar.lt, OrderedScalar.same, OrderedScalar.kind]

def BoundsTold (lower upper : Option RangeBound) (v : OrderedScalar) : Prop :=
  ∀ b ∈ lower.toList ++ upper.toList, ∀ s ∈ b.value.strings, ∀ t ∈ v.strings, utf8 s = utf8 t → s = t

def KeyBounds.Between (bounds : KeyBounds) (k : Key) : Prop :=
  (∀ l ∈ bounds.lo, l ≤ k) ∧ ∀ u ∈ bounds.hi, k < u

variable {lower upper : Option RangeBound}

/-- Whether a key lies between the bounds is decided by its value alone, and the values are those
in the range. -/
theorem rangeBounds_iff {bounds : KeyBounds} (hb : rangeBounds column lower upper = some bounds)
    (hw : writeOrderedValue (.scalar v) = some w) :
    ∃ Q : Prop, (∀ x, bounds.Between (orderedColumnPrefix column ++ w ++ x) ↔ Q) ∧
      (BoundsTold lower upper v → (Q ↔ inRange lower upper v)) := by
  have hstart : ∀ (u : OrderedScalar) (x : Bytes), (orderedKindRange column (.scalar u)).1 ≤
      orderedColumnPrefix column ++ w ++ x ↔ u.kind ≤ v.kind := by
    obtain ⟨r, body, rfl, hrank⟩ := rank_of_write hw
    intro u x
    rw [orderedKindRange, append_assoc, ← (hrank u).1, ← not_lt, append_lt_append_left_iff,
      not_lt, cons_append, cons_le_cons_list]
    exact (or_congr_right (and_iff_left (nil_le_list (body ++ x)))).trans le_iff_lt_or_eq.symm
  have hend : ∀ (u : OrderedScalar) (x : Bytes), orderedColumnPrefix column ++ w ++ x <
      (orderedKindRange column (.scalar u)).2 ↔ v.kind ≤ u.kind := by
    obtain ⟨r, body, rfl, hrank⟩ := rank_of_write hw
    intro u x
    rw [orderedKindRange, append_assoc, ← (hrank u).2, append_lt_append_left_iff,
      cons_append, cons_lt_cons_iff]
    exact or_iff_left fun h => not_lt_nil (body ++ x) h.2
  rcases lower with _ | l <;> rcases upper with _ | u
  · obtain rfl : bounds = ⟨_, none, none⟩ := (some.inj hb).symm
    exact ⟨True, fun x => by simp [KeyBounds.Between], fun _ => by simp [inRange]⟩
  · simp only [rangeBounds, rangeFrom, rangeTo, bind_eq_bind, Option.pure_def,
      bind_some, bind_map, bind_eq_some_iff, Option.some.injEq,
      Function.comp_apply] at hb
    obtain ⟨p, hp, rfl⟩ := hb
    obtain ⟨wu, hwu, rfl⟩ := orderedValuePrefix_eq_some.1 hp
    refine ⟨u.value.kind ≤ v.kind ∧ (v.lt u.value ∨ u.inclusive = true ∧ wu = w), fun x => ?_,
      fun htold => ?_⟩
    · simp only [KeyBounds.Between, mem_def, Option.some.injEq, forall_eq', hstart]
      rw [← key_lt_iff hp hw x, ← prefix_key_iff hwu hw x]
      exact and_congr_right fun _ => upper_key_iff
    · rw [above_iff hwu hw (htold u (by simp))]
      simp only [inRange, mem_def, Option.some.injEq, forall_eq', reduceCtorEq,
        false_imp_iff, implies_true, true_and]
      exact ⟨fun h => ⟨h.2, fun _ => le_antisymm (kind_le_of_above h.2) h.1⟩,
        fun h => ⟨(h.2 trivial).ge, h.1⟩⟩
  · simp only [rangeBounds, rangeFrom, rangeTo, bind_eq_bind, Option.pure_def,
      bind_some, bind_map, bind_eq_some_iff, Option.some.injEq,
      Function.comp_apply] at hb
    obtain ⟨p, hp, rfl⟩ := hb
    obtain ⟨wl, hwl, rfl⟩ := orderedValuePrefix_eq_some.1 hp
    refine ⟨(¬ v.lt l.value ∧ (l.inclusive = true ∨ ¬ wl = w)) ∧ v.kind ≤ l.value.kind,
      fun x => ?_, fun htold => ?_⟩
    · simp only [KeyBounds.Between, mem_def, Option.some.injEq, forall_eq', hend]
      rw [← key_lt_iff hp hw x, ← prefix_key_iff hwl hw x]
      exact and_congr_left fun _ => lower_key_iff (prefixEnd_column_isSome column wl)
    · rw [below_iff hwl hw (htold l (by simp))]
      simp only [inRange, mem_def, Option.some.injEq, forall_eq', reduceCtorEq,
        false_imp_iff, implies_true, and_true]
      exact ⟨fun h => ⟨h.1, fun _ => le_antisymm h.2 (kind_le_of_below h.1)⟩,
        fun h => ⟨h.1, (h.2 trivial).le⟩⟩
  · simp only [rangeBounds, rangeFrom, rangeTo, bind_eq_bind, Option.pure_def,
      bind_map, bind_eq_some_iff, Option.some.injEq, Function.comp_apply] at hb
    obtain ⟨p, hp, q, hq, rfl⟩ := hb
    obtain ⟨wl, hwl, rfl⟩ := orderedValuePrefix_eq_some.1 hp
    obtain ⟨wu, hwu, rfl⟩ := orderedValuePrefix_eq_some.1 hq
    refine ⟨(¬ v.lt l.value ∧ (l.inclusive = true ∨ ¬ wl = w)) ∧
      (v.lt u.value ∨ u.inclusive = true ∧ wu = w), fun x => ?_, fun htold => ?_⟩
    · rw [← key_lt_iff hp hw x, ← prefix_key_iff hwl hw x, ← key_lt_iff hq hw x, ← prefix_key_iff hwu hw x]
      exact and_congr (lower_key_iff (prefixEnd_column_isSome column wl)) upper_key_iff
    · rw [below_iff hwl hw (htold l (by simp)), above_iff hwu hw (htold u (by simp))]
      simp [inRange]

/-! ## The postings of a range -/

variable {W : Seq → IndexManifest → Prop} {m : Store} {bounds : KeyBounds} {id : ℕ}

lemma cuts_column (column : Utf16) : Cuts (orderedColumnPrefix column) where
  tag := show Tag.ordered ∈ SEALABLE_TAGS by decide
  cut l hl x h := by
    obtain ⟨tag, body, hbody, rfl⟩ := hl
    obtain ⟨htag, h⟩ := cons_prefix_cons.1 h
    rw [← htag, lensBody, if_neg (by decide), if_pos rfl] at hbody
    obtain ⟨_, ⟨c, rfl⟩, w, -, rfl⟩ := hbody
    rw [append_eq, append_assoc] at h
    rw [← htag, orderedColumnPrefix, stringCode_prefixCode.eq_of_isPrefix ⟨column, rfl⟩ ⟨c, rfl⟩ h]
    exact cons_prefix_cons.2 ⟨rfl, prefix_append _ _⟩

variable {P : Key}

lemma Written.scalar (h : Written W P) (hp : orderedColumnPrefix column <+: P) :
    ∃ v w, writeOrderedValue (.scalar v) = some w ∧ livePrefixOf P = orderedColumnPrefix column ++ w := by
  obtain ⟨n, man, -, hP⟩ := h
  rcases mem_postingKeys.1 hP with ⟨t, -, rfl⟩ | ⟨c, -, hc⟩ | ⟨e, -, rfl | rfl⟩
  · exact absurd (cons_prefix_cons.1 hp).1 (by decide)
  · obtain ⟨l, hl, rfl⟩ := orderedKey_eq_some.1 hc
    obtain ⟨w, hw, rfl⟩ := orderedValuePrefix_eq_some.1 hl
    rw [append_assoc] at hp
    have hcol := stringCode_prefixCode.eq_of_isPrefix ⟨column, rfl⟩ ⟨c.1, rfl⟩
      (cons_prefix_cons.1 hp).2
    refine ⟨c.2, w, hw, ?_⟩
    rw [livePrefixOf_append, orderedColumnPrefix, orderedColumnPrefix, hcol]
  · exact absurd (cons_prefix_cons.1 hp).1 (by decide)
  · exact absurd (cons_prefix_cons.1 hp).1 (by decide)

lemma between_congr (hb : rangeBounds column lower upper = some bounds) (h : Written W P)
    (hp : orderedColumnPrefix column <+: P) (x y : Bytes) :
    bounds.Between (livePrefixOf P ++ x) ↔ bounds.Between (livePrefixOf P ++ y) := by
  obtain ⟨v, w, hw, hl⟩ := h.scalar hp
  obtain ⟨Q, hQ, -⟩ := rangeBounds_iff hb hw
  rw [hl, hQ, hQ]

lemma rangeBounds_pre (hb : rangeBounds column lower upper = some bounds) :
    bounds.pre = orderedColumnPrefix column := by
  simp only [rangeBounds, bind_eq_bind, bind_eq_some_iff, Option.pure_def,
    Option.some.injEq] at hb
  obtain ⟨_, -, _, -, rfl⟩ := hb
  rfl

lemma between_under {t : Byte} {k : Key} {lo hi : Option Key} :
    ((∀ l ∈ lo.map (under t), l ≤ under t k) ∧ ∀ u ∈ hi.map (under t), under t k < u) ↔
      (∀ l ∈ lo, l ≤ k) ∧ ∀ u ∈ hi, k < u := by
  simp only [mem_def, map_eq_some_iff, forall_exists_index, and_imp, forall_apply_eq_imp_iff₂,
    under, ← not_lt, cons_lt_cons_left_iff]

lemma mem_tombstonesIn (h : Tiers W m.get) : P ∈ tombstonesIn m bounds ↔
      m.get (tombstoneKey P) ≠ none ∧ bounds.pre <+: P ∧ bounds.Between P := by
  rw [tombstonesIn, List.mem_map]
  constructor
  · rintro ⟨⟨k, v⟩, he, rfl⟩
    obtain ⟨hget, hp, hbetween⟩ := mem_scan.1 he
    obtain ⟨P, -, rfl⟩ := h.tombstone_shape k (tagOf_of_isPrefix hp) (by simp [hget])
    refine ⟨?_, (cons_prefix_cons.1 hp).2, between_under.1 hbetween⟩
    change m.get (tombstoneKey P) ≠ none
    rw [hget]
    exact some_ne_none v
  · rintro ⟨htomb, hp, hbetween⟩
    obtain ⟨v, hv⟩ := ne_none_iff_exists'.1 htomb
    exact ⟨(tombstoneKey P, v), mem_scan.2 ⟨hv, cons_prefix_cons.2 ⟨rfl, hp⟩, between_under.2 hbetween⟩, rfl⟩

lemma mem_blobIds {Q : Key} (hQ : IsPosting Q) {v : Stored} {removed : List Key}
    (hv : m.get (blobKeyOf Q) = some v) : id ∈ blobIds removed (blobKeyOf Q, v) ↔ ∃ P, IsPosting P ∧
      livePrefixOf P = livePrefixOf Q ∧ blobKeyOf P = blobKeyOf Q ∧ seqOf P = id ∧
        blobHas m.get P ∧ P ∉ removed := by
  have hstarts : blobPrefixOf (blobKeyOf Q) = livePrefixOf Q := livePrefixOf_append _ _
  rw [blobIds]
  split_ifs with h0
  · rw [length_eq_zero_iff] at h0
    rw [mem_blob hQ hv, h0]
    simp
  · have hexpand : ∀ P, P ∈ expandBlob (blobKeyOf Q, v) none none ↔ IsPosting P ∧
        livePrefixOf P = livePrefixOf Q ∧ blobKeyOf P = blobKeyOf Q ∧ blobHas m.get P := by
      intro P
      simp only [expandBlob, all_none, Bool.and_self, filter_true, List.mem_map, hstarts]
      constructor
      · rintro ⟨id, hid, rfl⟩
        obtain ⟨P, hP, hl, hkey, rfl, hblob⟩ := (mem_blob hQ hv).1 hid
        have he : livePrefixOf Q ++ writeU32 (seqOf P) = P := by rw [← hl, ← hP.eq]
        rw [he]
        exact ⟨hP, hl, hkey, hblob⟩
      · rintro ⟨hP, hl, hkey, hblob⟩
        exact ⟨seqOf P, (mem_blob hQ hv).2 ⟨P, hP, hl, hkey, rfl, hblob⟩, by rw [← hl, ← hP.eq]⟩
    simp only [List.mem_map, mem_filter, hexpand, decide_eq_true_eq]
    constructor
    · rintro ⟨P, ⟨⟨hP, hl, hkey, hblob⟩, hnot⟩, rfl⟩
      exact ⟨P, hP, hl, hkey, rfl, hblob, hnot⟩
    · rintro ⟨P, hP, hl, hkey, rfl, hblob, hnot⟩
      exact ⟨P, ⟨⟨hP, hl, hkey, hblob⟩, hnot⟩, rfl⟩

lemma mem_foundIn (h : Tiers W m.get) (hb : rangeBounds column lower upper = some bounds) :
    id ∈ foundIn m bounds ↔ ∃ P, IsPosting P ∧ orderedColumnPrefix column <+: P ∧
      bounds.Between P ∧ seqOf P = id ∧ present m.get P := by
  have hpre := rangeBounds_pre hb
  have hcuts := cuts_column column
  rw [foundIn, mem_append, List.mem_map, mem_flatMap, hpre]
  constructor
  · rintro (⟨⟨P, v⟩, he, rfl⟩ | ⟨⟨k, v⟩, he, hid⟩)
    · obtain ⟨hget, hp, hbetween⟩ := mem_scan.1 he
      have hlive : m.get P ≠ none := by simp [hget]
      have hP := h.posting_shape P (hcuts.tag_of_isPrefix hp) hlive
      exact ⟨P, hP, hp, hbetween, rfl, .inl hlive, h.live P hP hlive⟩
    · obtain ⟨hget, hp, hbounds⟩ := mem_scan.1 he
      obtain ⟨Q, hQ, rfl, -⟩ := h.blob_shape k v (tagOf_of_isPrefix hp) hget
      obtain ⟨P, hP, hl, hkey, rfl, hblob, hnot⟩ := (mem_blobIds hQ hget).1 hid
      have hpl : orderedColumnPrefix column <+: livePrefixOf P := by
        rw [hl]
        exact (hcuts.prefix_iff hQ.prefix_mem).1 (cons_prefix_cons.1 hp).2
      have hpP : orderedColumnPrefix column <+: P := by
        rw [hP.eq]
        exact hpl.trans (prefix_append _ _)
      have hblobBetween : bounds.Between (livePrefixOf P ++ writeU32 (segmentOf (seqOf Q))) := by
        rw [hl]
        exact between_under.1 hbounds
      have hbetween : bounds.Between P := by
        rw [hP.eq]
        exact (between_congr hb (h.written_of_tier hP (.inr hblob)) hpP _ _).1 hblobBetween
      refine ⟨P, hP, hpP, hbetween, rfl, .inr hblob, by_contra fun htomb => hnot ?_⟩
      exact (mem_tombstonesIn h).2 ⟨htomb, hpre ▸ hpP, hbetween⟩
  · rintro ⟨P, hP, hp, hbetween, rfl, hlive | hblob, htomb⟩
    · obtain ⟨v, hv⟩ := ne_none_iff_exists'.1 hlive
      exact .inl ⟨(P, v), mem_scan.2 ⟨hv, hp, hbetween⟩, rfl⟩
    · obtain ⟨v, hv⟩ := exists_blob hblob
      have hblobBetween : bounds.Between (livePrefixOf P ++ writeU32 (segmentOf (seqOf P))) := by
        rw [hP.eq] at hbetween
        exact (between_congr hb (h.written_of_tier hP (.inr hblob)) hp _ _).1 hbetween
      refine .inr ⟨(blobKeyOf P, v), mem_scan.2 ⟨hv, ?_, between_under.2 hblobBetween⟩,
        (mem_blobIds hP hv).2 ⟨P, hP, rfl, rfl, rfl, hblob, fun hmem =>
          ((mem_tombstonesIn h).1 hmem).1 htomb⟩⟩
      rw [hP.eq, hcuts.prefix_iff hP.prefix_mem] at hp
      exact cons_prefix_cons.2 ⟨rfl, hp.trans (prefix_append _ _)⟩

lemma dropRepeats_spec {l : List ℕ} (previous : Option ℕ) (hl : l.Pairwise (· ≤ ·))
    (hprev : ∀ p ∈ previous, ∀ x ∈ l, p ≤ x) : Ascending (dropRepeats previous l) ∧
      ∀ x, x ∈ dropRepeats previous l ↔ x ∈ l ∧ previous ≠ some x := by
  induction l generalizing previous with
  | nil => simp [dropRepeats]
  | cons a rest ih =>
    obtain ⟨ha, hrest⟩ := pairwise_cons.1 hl
    obtain ⟨hasc, hmem⟩ := ih (some a) hrest (by simpa using ha)
    rw [dropRepeats]
    split_ifs with h
    · refine ⟨hasc, fun x => ?_⟩
      rw [hmem, h]
      constructor
      · rintro ⟨hx, hne⟩
        exact ⟨mem_cons_of_mem a hx, hne⟩
      · rintro ⟨hx, hne⟩
        exact ⟨(mem_cons.1 hx).resolve_left fun he => hne (by rw [he]), hne⟩
    · refine ⟨Ascending.cons.2 ⟨fun b hb => ?_, hasc⟩, fun x => ?_⟩
      · obtain ⟨hb, hne⟩ := (hmem b).1 hb
        exact lt_of_le_of_ne (ha b hb) fun he => hne (by rw [he])
      · rw [mem_cons, mem_cons, hmem]
        constructor
        · rintro (rfl | ⟨hx, hne⟩)
          · exact ⟨.inl rfl, h⟩
          · refine ⟨.inr hx, fun hp => ?_⟩
            have hxa := hprev x hp a (mem_cons_self ..)
            exact hne (by rw [le_antisymm (ha x hx) hxa])
        · rintro ⟨rfl | hx, hne⟩
          · exact .inl rfl
          · by_cases hxa : x = a
            · exact .inl hxa
            · exact .inr ⟨hx, fun he => hxa (some.inj he).symm⟩

lemma rangePostings_valid (h : Tiers W m.get) (hW : Below W)
    (hb : rangeBounds column lower upper = some bounds) :
    ∃ run, rangePostings m column lower upper = some run ∧ run.Valid ∧
      ∀ id, run.Mem id ↔ ∃ P, IsPosting P ∧ orderedColumnPrefix column <+: P ∧
        bounds.Between P ∧ seqOf P = id ∧ Holds m.get P := by
  have hsorted : ((foundIn m bounds).insertionSort (· ≤ ·)).Pairwise (· ≤ ·) :=
    pairwise_insertionSort _ _
  obtain ⟨hasc, hmem⟩ := dropRepeats_spec none hsorted (by simp)
  have hmem' : ∀ id, id ∈ dropRepeats none ((foundIn m bounds).insertionSort (· ≤ ·)) ↔
      ∃ P, IsPosting P ∧ orderedColumnPrefix column <+: P ∧ bounds.Between P ∧ seqOf P = id ∧
        present m.get P := by
    intro id
    rw [hmem, mem_insertionSort, mem_foundIn h hb]
    exact and_iff_left (by simp)
  obtain ⟨hvalid, hrun⟩ := build_valid (fun id hid => by
    obtain ⟨P, hP, -, -, rfl, hpresent⟩ := (hmem' id).1 hid
    exact hW.seqOf_lt (h.written_of_tier hP hpresent.1)) (.inl hasc)
  refine ⟨_, by rw [rangePostings, hb]; rfl, hvalid, fun id => ?_⟩
  rw [hrun, hmem']
  exact exists_congr fun P => and_congr_right fun hP => by rw [h.answer P hP]

end Zelavis.Db
