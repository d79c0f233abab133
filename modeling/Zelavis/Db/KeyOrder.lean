import Zelavis.Db.Keys

/-!
# Byte order is logical order

What the key layout of `Keys.lean` guarantees, and every scan of the store relies on.
-/

namespace Zelavis.Db

open Lib List

/-! ## Escaped strings -/

lemma escapeByte_orderedCode : OrderedCode escapeByte where
  ne_nil b := by
    rw [escapeByte]
    split_ifs <;> simp
  mono := by
    intro a b hab x y
    rw [escapeByte, escapeByte]
    split_ifs with h₁ h₂ h₃ h₄ h₅ <;>
      simp only [cons_append, nil_append, cons_lt_cons_iff] <;> grind

lemma escapeByte_terminates : OrderedCode.Terminates escapeByte 0x00 := by
  intro b x y
  rw [escapeByte]
  split_ifs <;> simp only [cons_append, nil_append, cons_lt_cons_iff] <;> grind

lemma writeEscaped_append (b x : Bytes) : writeEscaped b ++ x = b.flatMap escapeByte ++ 0x00 :: x := by
  simp [writeEscaped, writeEscapedPrefix]

lemma writeEscaped_append_lt_iff (a b x y : Bytes) :
    writeEscaped a ++ x < writeEscaped b ++ y ↔ a < b ∨ a = b ∧ x < y := by
  rw [writeEscaped_append, writeEscaped_append]
  exact escapeByte_orderedCode.terminated_lt_iff escapeByte_terminates a b x y

lemma writeEscaped_append_inj {a b x y : Bytes}
    (h : writeEscaped a ++ x = writeEscaped b ++ y) : a = b ∧ x = y := by
  rw [writeEscaped_append, writeEscaped_append] at h
  obtain rfl := escapeByte_orderedCode.eq_of_terminated_eq escapeByte_terminates h
  exact ⟨rfl, (List.cons.inj (append_cancel_left h)).2⟩

@[simp] lemma writeEscaped_inj {a b : Bytes} : writeEscaped a = writeEscaped b ↔ a = b :=
  ⟨fun h => (writeEscaped_append_inj (x := []) (y := []) (by simpa using h)).1, congrArg _⟩

lemma writeEscaped_prefixCode : PrefixCode (Set.range writeEscaped) := by
  rintro _ ⟨a, rfl⟩ _ ⟨b, rfl⟩ x y h
  rw [(writeEscaped_append_inj h).1]

lemma writeEscapedPrefix_prefix_iff (p t y : Bytes) :
    writeEscapedPrefix p <+: writeEscaped t ++ y ↔ p <+: t := by
  rw [writeEscaped_append]
  exact escapeByte_orderedCode.prefix_terminated_iff escapeByte_terminates p t y

lemma readEscaped_writeEscaped (b rest : Bytes) : readEscaped (writeEscaped b ++ rest) = (b, rest) := by
  rw [writeEscaped_append]
  induction b with
  | nil =>
    cases rest with
    | nil => rfl
    | cons c rest => simp [readEscaped]
  | cons b bs ih =>
    obtain ⟨c, l, hcl⟩ : ∃ c l, bs.flatMap escapeByte ++ (0x00 : Byte) :: rest = c :: l := by
      cases bs.flatMap escapeByte <;> simp
    rw [flatMap_cons, append_assoc, escapeByte]
    split_ifs with h₀ h₁
    · simp [readEscaped, ih, h₀]
    · simp [readEscaped, ih, h₁]
    · rw [singleton_append, hcl, readEscaped, if_neg h₀, if_neg h₁, ← hcl, ih]

lemma writeString_lt_iff (s t : Utf16) : writeString s < writeString t ↔ codePoints s < codePoints t := by
  rw [← utf8_lt_iff]
  simpa [writeString] using writeEscaped_append_lt_iff (utf8 s) (utf8 t) [] []

/-! ## Numbers -/

lemma readBigEndian_map_rev (l : Bytes) :
    readBigEndian (l.map Fin.rev) + readBigEndian l + 1 = 256 ^ l.length := by
  induction l with
  | nil => simp [readBigEndian]
  | cons b l ih =>
    rw [map_cons, readBigEndian_cons, readBigEndian_cons, length_map, length_cons, pow_succ]
    have hb : (Fin.rev b).val = 255 - b.val := by rw [Fin.val_rev]; omega
    have hsum : (Fin.rev b).val + b.val = 255 := by omega
    have hmul : (Fin.rev b).val * 256 ^ l.length + b.val * 256 ^ l.length =
        255 * 256 ^ l.length := by rw [← add_mul, hsum]
    omega

lemma xor_top_bit {b : Byte} (h : b < 0x80) : (b ^^^ 0x80).val = b.val + 0x80 := by
  revert b
  decide +kernel

lemma flipNumber_length (l : Bytes) : (flipNumber l).length = l.length := by
  cases l with
  | nil => rfl
  | cons b l =>
    rw [flipNumber]
    split_ifs <;> simp

/-- The flipped bits as a number: positive numbers above the middle, negative ones mirrored
below it. -/
theorem readBigEndian_flipNumber {l : Bytes} (h : l.length = 8) : readBigEndian (flipNumber l) =
      if readBigEndian l < 0x8000000000000000 then readBigEndian l + 0x8000000000000000
      else 0xffffffffffffffff - readBigEndian l := by
  cases l with
  | nil => simp at h
  | cons b l =>
    have hlen : l.length = 7 := by simpa using h
    have hl := readBigEndian_lt l
    have hrev := readBigEndian_map_rev (b :: l)
    rw [flipNumber]
    rw [hlen] at hl
    rw [length_cons, hlen] at hrev
    by_cases hb : 0x80 ≤ b
    · have hbv : 0x80 ≤ b.val := hb
      rw [if_pos hb]
      rw [readBigEndian_cons, hlen] at hrev ⊢
      split_ifs <;> omega
    · have hbv : b.val < 0x80 := not_le.1 hb
      rw [if_neg hb, readBigEndian_cons, readBigEndian_cons, hlen, xor_top_bit (not_le.1 hb)]
      split_ifs <;> omega

variable {w : Bytes}

lemma writeNumber_eq_some {n : JsNumber} (h : writeNumber n = some w) :
    n.isFinite ∧ w.length = 8 ∧ w = flipNumber (bigEndian 8 n.normal.bits.val) := by
  rw [writeNumber] at h
  split_ifs at h with hf
  obtain rfl := Option.some.inj h
  exact ⟨hf, by rw [flipNumber_length, bigEndian_length], rfl⟩

lemma JsNumber.toInt_normal (n : JsNumber) : n.normal.toInt = n.toInt := by
  rw [JsNumber.normal]
  split_ifs with h
  · have hz : n.bits.val % 0x8000000000000000 = 0 := by simpa [JsNumber.isZero] using h
    have hlt := n.bits.isLt
    simp only [JsNumber.toInt, JsNumber.zero]
    norm_num at hlt hz ⊢
    split_ifs <;> omega
  · rfl

lemma writeNumber_lt_iff {m n : JsNumber} {v w : Bytes} (hv : writeNumber m = some v)
    (hw : writeNumber n = some w) : v < w ↔ m.toInt < n.toInt := by
  obtain ⟨-, hvl, rfl⟩ := writeNumber_eq_some hv
  obtain ⟨-, hwl, rfl⟩ := writeNumber_eq_some hw
  have nz : ∀ k : JsNumber, k.normal.bits.val ≠ 0x8000000000000000 := by
    intro k hk
    by_cases h : k.isZero
    · simp [JsNumber.normal, h, JsNumber.zero] at hk
    · rw [JsNumber.normal, if_neg h] at hk
      simp [JsNumber.isZero, hk] at h
  have hm := m.normal.bits.isLt
  have hn := n.normal.bits.isLt
  have hmz := nz m
  rw [lt_iff_readBigEndian_lt (by rw [hvl, hwl]), readBigEndian_flipNumber (by simp),
    readBigEndian_flipNumber (by simp), readBigEndian_bigEndian, readBigEndian_bigEndian,
    ← JsNumber.toInt_normal m, ← JsNumber.toInt_normal n]
  simp only [JsNumber.toInt]
  norm_num at hm hn ⊢
  rw [Nat.mod_eq_of_lt hm, Nat.mod_eq_of_lt hn]
  split_ifs <;> omega

/-! ## Values -/

def OrderedScalar.kind : OrderedScalar → ℕ
  | .boolean _ => 0
  | .number _ => 1
  | .string _ => 2
  | .null => 3

/-- The order of the ordered lens: by kind, then false before true, numbers by value and strings
by code point. Source: `query.ts` `RangeQuery`. -/
def OrderedScalar.lt : OrderedScalar → OrderedScalar → Prop
  | .boolean a, .boolean b => a < b
  | .number a, .number b => a.toInt < b.toInt
  | .string a, .string b => codePoints a < codePoints b
  | a, b => a.kind < b.kind

instance OrderedScalar.decidableLt : DecidableRel OrderedScalar.lt := by
  intro a b
  cases a <;> cases b <;> simp only [OrderedScalar.lt] <;> infer_instance

def valueCode : Set Bytes := {w | ∃ v, writeOrderedValue v = some w}

variable {v : OrderedValue}

lemma writeOrderedValue_eq_some (h : writeOrderedValue v = some w) :
    ∃ b body, w = b :: body ∧ (b = Rank.number ∧ body.length = 8 ∨
      (b = Rank.string ∨ b = Rank.bytes) ∧ body ∈ Set.range writeEscaped ∨
      (b = Rank.null ∨ b = Rank.false ∨ b = Rank.true) ∧ body = []) := by
  rcases v with (_ | (_ | _) | n | s) | b <;>
    simp [writeOrderedValue] at h
  · exact ⟨_, [], h.symm, by simp⟩
  · exact ⟨_, [], h.symm, by simp⟩
  · exact ⟨_, [], h.symm, by simp⟩
  · obtain ⟨w, hw, rfl⟩ := h
    exact ⟨_, w, rfl, by simp [(writeNumber_eq_some hw).2.1]⟩
  · exact ⟨_, writeEscaped (utf8 s), h.symm, by simp⟩
  · exact ⟨_, writeEscaped b, h.symm, by simp⟩

lemma valueCode_prefixCode : PrefixCode valueCode := by
  rintro u ⟨v, hu⟩ u' ⟨v', hu'⟩ x y h
  obtain ⟨b, l, rfl, hl⟩ := writeOrderedValue_eq_some hu
  obtain ⟨b', l', rfl, hl'⟩ := writeOrderedValue_eq_some hu'
  obtain ⟨rfl, hxy⟩ := List.cons.inj h
  rcases hl with ⟨hb, hl⟩ | ⟨hb, hl⟩ | ⟨hb, rfl⟩ <;>
    rcases hl' with ⟨hb', hl'⟩ | ⟨hb', hl'⟩ | ⟨hb', rfl⟩
  · rw [(append_inj hxy (by rw [hl, hl'])).1]
  · rcases hb' with rfl | rfl <;> exact absurd hb (by decide)
  · rcases hb' with rfl | rfl | rfl <;> exact absurd hb (by decide)
  · rcases hb with rfl | rfl <;> exact absurd hb' (by decide)
  · rw [writeEscaped_prefixCode l hl l' hl' x y hxy]
  · rcases hb with rfl | rfl <;> exact absurd hb' (by decide)
  · rcases hb with rfl | rfl | rfl <;> exact absurd hb' (by decide)
  · rcases hb' with rfl | rfl <;> exact absurd hb (by decide)
  · rfl

lemma writeOrderedValue_lt_iff {a b : OrderedScalar} {v w : Bytes}
    (hv : writeOrderedValue (.scalar a) = some v) (hw : writeOrderedValue (.scalar b) = some w) :
    v < w ↔ a.lt b := by
  rcases a with _ | (_ | _) | m | s <;> rcases b with _ | (_ | _) | n | t <;>
    simp [writeOrderedValue] at hv hw
  case number.number =>
    obtain ⟨v', hv', rfl⟩ := hv
    obtain ⟨w', hw', rfl⟩ := hw
    simp [OrderedScalar.lt, writeNumber_lt_iff hv' hw']
  case string.string =>
    subst hv hw
    rw [cons_lt_cons_left_iff]
    exact writeString_lt_iff s t
  -- what is left is decided by the rank
  all_goals
    obtain ⟨v', -, rfl⟩ := hv
    obtain ⟨w', -, rfl⟩ := hw
    simp +decide [cons_lt_cons_iff, OrderedScalar.lt, OrderedScalar.kind]

/-! ## Lenses -/

def stringCode : Set Bytes := Set.range writeString

lemma stringCode_prefixCode : PrefixCode stringCode :=
  writeEscaped_prefixCode.mono (by rintro _ ⟨s, rfl⟩; exact ⟨utf8 s, rfl⟩)

def idCode : Set Bytes := Set.range writeU32

lemma idCode_prefixCode : PrefixCode idCode :=
  .of_length (by rintro _ ⟨n, rfl⟩; exact writeU32_length n)

def lensBody (tag : Byte) : Set Bytes :=
  if tag = Tag.term then Set.image2 (· ++ ·) stringCode stringCode
  else if tag = Tag.ordered then Set.image2 (· ++ ·) stringCode valueCode
  else if tag = Tag.edge ∨ tag = Tag.edgeReverse then Set.image2 (· ++ ·) stringCode idCode
  else ∅

lemma lensBody_prefixCode (tag : Byte) : PrefixCode (lensBody tag) := by
  rw [lensBody]
  split_ifs
  · exact stringCode_prefixCode.append stringCode_prefixCode
  · exact stringCode_prefixCode.append valueCode_prefixCode
  · exact stringCode_prefixCode.append idCode_prefixCode
  · exact fun u hu => absurd hu (Set.notMem_empty u)

def lensCode : Set Key := {l | ∃ tag, ∃ body ∈ lensBody tag, l = tag :: body}

lemma lensCode_prefixCode : PrefixCode lensCode := by
  rintro _ ⟨t, b, hb, rfl⟩ _ ⟨t', b', hb', rfl⟩ x y h
  obtain ⟨rfl, hxy⟩ := List.cons.inj h
  rw [lensBody_prefixCode t b hb b' hb' x y hxy]

lemma lens_prefix_iff {l l' x : Key} (hl : l ∈ lensCode) (hl' : l' ∈ lensCode) : l <+: l' ++ x ↔ l = l' :=
  ⟨lensCode_prefixCode.eq_of_isPrefix hl hl', fun h => h ▸ prefix_append l x⟩

@[simp] lemma termPrefix_mem_lensCode (f t : Utf16) : termPrefix f t ∈ lensCode :=
  ⟨Tag.term, _, by simpa [lensBody] using ⟨_, ⟨f, rfl⟩, _, ⟨t, rfl⟩, rfl⟩, rfl⟩

variable {l : Key} {c : Utf16}

lemma orderedValuePrefix_eq_some : orderedValuePrefix c v = some l ↔
      ∃ w, writeOrderedValue v = some w ∧ l = orderedColumnPrefix c ++ w := by
  simp [orderedValuePrefix, orderedColumnPrefix, eq_comm]

lemma orderedValuePrefix_mem_lensCode (h : orderedValuePrefix c v = some l) : l ∈ lensCode := by
  obtain ⟨w, hw, rfl⟩ := orderedValuePrefix_eq_some.1 h
  exact ⟨Tag.ordered, _, by simpa [lensBody] using ⟨_, ⟨c, rfl⟩, w, ⟨v, hw⟩, rfl⟩, rfl⟩

@[simp] lemma edgePrefix_mem_lensCode (e : Utf16) (n : ℕ) : edgePrefix e n ∈ lensCode :=
  ⟨Tag.edge, _, by simpa [lensBody] using ⟨_, ⟨e, rfl⟩, _, ⟨n, rfl⟩, rfl⟩, rfl⟩

@[simp] lemma reverseEdgePrefix_mem_lensCode (e : Utf16) (n : ℕ) : reverseEdgePrefix e n ∈ lensCode :=
  ⟨Tag.edgeReverse, _, by simpa [lensBody] using ⟨_, ⟨e, rfl⟩, _, ⟨n, rfl⟩, rfl⟩, rfl⟩

lemma lensCode_head (h : l ∈ lensCode) :
    ∃ tag ∈ [Tag.term, Tag.ordered, Tag.edge, Tag.edgeReverse], ∃ body, l = tag :: body := by
  obtain ⟨tag, body, hbody, rfl⟩ := h
  refine ⟨tag, ?_, body, rfl⟩
  rw [lensBody] at hbody
  split_ifs at hbody with h₁ h₂ h₃
  · simp [h₁]
  · simp [h₂]
  · rcases h₃ with rfl | rfl <;> simp
  · exact absurd hbody (Set.notMem_empty body)

/-! ## Which postings share a live prefix -/

variable {s t : Utf16} {x y : Bytes}

lemma writeString_append_inj : writeString s ++ x = writeString t ++ y ↔ utf8 s = utf8 t ∧ x = y := by
  constructor
  · exact fun h => writeEscaped_append_inj h
  · rintro ⟨h, rfl⟩
    rw [writeString, writeString, h]

lemma writeString_inj : writeString s = writeString t ↔ utf8 s = utf8 t := by
  simp [writeString]

lemma termPrefix_inj {f t f' t' : Utf16} :
    termPrefix f t = termPrefix f' t' ↔ utf8 f = utf8 f' ∧ utf8 t = utf8 t' := by
  simp [termPrefix, writeString_append_inj, writeString_inj]

variable {n n' : ℕ} {e e' : Utf16}

lemma edgePrefix_inj : edgePrefix e n = edgePrefix e' n' ↔ utf8 e = utf8 e' ∧ n % 2 ^ 32 = n' % 2 ^ 32 := by
  simp [edgePrefix, writeString_append_inj, writeU32_inj]

lemma reverseEdgePrefix_inj : reverseEdgePrefix e n = reverseEdgePrefix e' n' ↔
      utf8 e = utf8 e' ∧ n % 2 ^ 32 = n' % 2 ^ 32 := by
  simp [reverseEdgePrefix, writeString_append_inj, writeU32_inj]

lemma orderedColumnPrefix_append_inj {c c' : Utf16} :
    orderedColumnPrefix c ++ x = orderedColumnPrefix c' ++ y ↔ utf8 c = utf8 c' ∧ x = y := by
  simp [orderedColumnPrefix, writeString_append_inj]

lemma termPrefixKey_prefix_iff (f p f' t : Utf16) (x : Key) :
    termPrefixKey f p <+: termPrefix f' t ++ x ↔ utf8 f = utf8 f' ∧ utf8 p <+: utf8 t := by
  simp only [termPrefixKey, termPrefix, cons_append, append_assoc, prefix_cons_inj]
  constructor
  · rintro ⟨z, hz⟩
    rw [append_assoc] at hz
    obtain ⟨hf, hz⟩ := writeString_append_inj.1 hz
    exact ⟨hf, (writeEscapedPrefix_prefix_iff _ _ x).1 ⟨z, hz⟩⟩
  · rintro ⟨hf, hp⟩
    obtain ⟨z, hz⟩ := (writeEscapedPrefix_prefix_iff _ _ x).2 hp
    exact ⟨z, by rw [append_assoc, hz, writeString, hf, writeString, writeString]⟩

/-! ## Posting keys -/

lemma posting_lt_iff {l l' : Key} (hl : l ∈ lensCode) (hl' : l' ∈ lensCode)
    (hn : n < 2 ^ 32) (hn' : n' < 2 ^ 32) :
    l ++ writeU32 n < l' ++ writeU32 n' ↔ l < l' ∨ l = l' ∧ n < n' := by
  rw [lensCode_prefixCode.append_lt_iff hl hl', writeU32_lt_iff hn hn']

lemma posting_inj {l l' : Key} :
    l ++ writeU32 n = l' ++ writeU32 n' ↔ l = l' ∧ n % 2 ^ 32 = n' % 2 ^ 32 := by
  constructor
  · intro h
    obtain ⟨h₁, h₂⟩ := append_inj' h (by simp)
    exact ⟨h₁, writeU32_inj.1 h₂⟩
  · rintro ⟨rfl, h⟩
    rw [writeU32_inj.2 h]

end Zelavis.Db
