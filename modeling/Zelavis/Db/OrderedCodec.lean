import Zelavis.Db.KeyOrder

/-!
# The codec of ordered keys

`keys.ts`, `orderedKey` and `decodeOrderedKey` over every ordered value: booleans, finite numbers,
strings, byte strings and null.
-/

namespace Zelavis.Db

open Lib List

/-! ## Numbers -/

/-- The magnitude of the lower 63 bits of a float64, in units of `2 ^ -1074`. -/
def magnitude (bits : ℕ) : ℕ :=
  let exponent := bits / 0x10000000000000
  let fraction := bits % 0x10000000000000
  if exponent = 0 then fraction else (0x10000000000000 + fraction) * 2 ^ (exponent - 1)

lemma magnitude_lt_succ (bits : ℕ) : magnitude bits < magnitude (bits + 1) := by
  obtain ⟨e, f, hf, rfl⟩ : ∃ e f, f < 0x10000000000000 ∧ bits = 0x10000000000000 * e + f :=
    ⟨_, _, Nat.mod_lt _ (by norm_num), (Nat.div_add_mod bits 0x10000000000000).symm⟩
  have hdiv : (0x10000000000000 * e + f) / 0x10000000000000 = e := by omega
  have hmod : (0x10000000000000 * e + f) % 0x10000000000000 = f := by omega
  rcases Nat.lt_or_ge (f + 1) 0x10000000000000 with hnext | hcarry
  · have hdiv' : (0x10000000000000 * e + f + 1) / 0x10000000000000 = e := by omega
    have hmod' : (0x10000000000000 * e + f + 1) % 0x10000000000000 = f + 1 := by omega
    simp only [magnitude, hdiv, hmod, hdiv', hmod']
    split_ifs
    · exact Nat.lt_succ_self f
    · exact Nat.mul_lt_mul_of_pos_right (by omega) (by positivity)
  · have hdiv' : (0x10000000000000 * e + f + 1) / 0x10000000000000 = e + 1 := by omega
    have hmod' : (0x10000000000000 * e + f + 1) % 0x10000000000000 = 0 := by omega
    simp only [magnitude, hdiv, hmod, hdiv', hmod', if_neg (Nat.succ_ne_zero e),
      Nat.add_sub_cancel, Nat.add_zero]
    split_ifs with he
    · subst he
      omega
    · obtain ⟨k, rfl⟩ := Nat.exists_eq_succ_of_ne_zero he
      calc (0x10000000000000 + f) * 2 ^ k < (0x10000000000000 * 2) * 2 ^ k :=
            Nat.mul_lt_mul_of_pos_right (by omega) (by positivity)
        _ = 0x10000000000000 * 2 ^ (k + 1) := by ring

lemma magnitude_strictMono : StrictMono magnitude :=
  strictMono_nat_of_lt_succ magnitude_lt_succ

/-- The value of a finite number, in units of `2 ^ -1074`. -/
def JsNumber.units (n : JsNumber) : ℤ :=
  if n.bits.val < 0x8000000000000000 then magnitude n.bits.val
  else -(magnitude (n.bits.val - 0x8000000000000000))

lemma JsNumber.units_lt_iff (m n : JsNumber) : m.units < n.units ↔ m.toInt < n.toInt := by
  have hzero : magnitude 0 = 0 := rfl
  have hlt := fun a b : ℕ => magnitude_strictMono.lt_iff_lt (a := a) (b := b)
  simp only [units, toInt]
  split_ifs with hm hn hn
  · rw [Nat.cast_lt, Nat.cast_lt, hlt]
  · have := hlt m.bits.val 0
    omega
  · have h₁ := hlt 0 (m.bits.val - 0x8000000000000000)
    have h₂ := hlt 0 n.bits.val
    omega
  · have := hlt (n.bits.val - 0x8000000000000000) (m.bits.val - 0x8000000000000000)
    omega

lemma readNumber_flipNumber {l : Bytes} (h : l.length = 8) (rest : Bytes) :
    readNumber (flipNumber l ++ rest) = ⟨Fin.ofNat _ (readBigEndian l)⟩ := by
  have hlow : ∀ b : Byte, ¬ 0x80 ≤ b → 0x80 ≤ b ^^^ 0x80 ∧ b ^^^ 0x80 ^^^ 0x80 = b := by
    decide +kernel
  have hhigh : ∀ b : Byte, 0x80 ≤ b → ¬ 0x80 ≤ Fin.rev b := by decide +kernel
  have hlen : (flipNumber l).length = 8 := by rw [flipNumber_length, h]
  rw [readNumber, take_append_of_le_length hlen.ge, take_of_length_le hlen.le]
  cases l with
  | nil => exact absurd h (by simp)
  | cons b l =>
    by_cases hsign : 0x80 ≤ b
    · have hrev : l.map (Fin.rev ∘ Fin.rev) = l := by simp [Function.comp_def]
      simp only [flipNumber, if_pos hsign, map_cons, if_neg (hhigh b hsign), List.map_map,
        Fin.rev_rev, hrev]
    · simp only [flipNumber, if_neg hsign, if_pos (hlow b hsign).1, (hlow b hsign).2]

variable {w : Bytes}

lemma readNumber_append {n : JsNumber} (h : writeNumber n = some w) (rest : Bytes) :
    readNumber (w ++ rest) = n.normal := by
  obtain ⟨-, -, rfl⟩ := writeNumber_eq_some h
  rw [readNumber_flipNumber (bigEndian_length 8 _), readBigEndian_bigEndian]
  obtain ⟨⟨bits, hbits⟩⟩ := n.normal
  rw [Nat.mod_eq_of_lt (by norm_num at hbits ⊢; exact hbits)]
  congr 1
  ext
  exact Nat.mod_eq_of_lt hbits

/-! ## Values -/

variable {v : OrderedValue}

namespace OrderedValue

/-- The rank of a value's kind; booleans are one kind. Source: `Rank`. -/
def kind : OrderedValue → ℕ
  | .scalar (.boolean _) => 0
  | .scalar (.number _) => 1
  | .scalar (.string _) => 2
  | .bytes _ => 3
  | .scalar .null => 4

/-- The order of values: by kind, then false before true, numbers by value, strings by code point
and byte strings by byte. -/
def before : OrderedValue → OrderedValue → Prop
  | .scalar (.boolean a), .scalar (.boolean b) => a < b
  | .scalar (.number a), .scalar (.number b) => a.units < b.units
  | .scalar (.string a), .scalar (.string b) => rawPoints a < rawPoints b
  | .bytes a, .bytes b => a < b
  | a, b => a.kind < b.kind

/-- The value with a negative zero written as zero, which is the same value. -/
def normal : OrderedValue → OrderedValue
  | .scalar (.number n) => .scalar (.number n.normal)
  | v => v

def Finite : OrderedValue → Prop
  | .scalar (.number n) => n.isFinite = true
  | _ => True

/-- What a value reads back as: a string as a decoder of its UTF-8 has it. -/
def decoded : OrderedValue → OrderedValue
  | .scalar (.number n) => .scalar (.number n.normal)
  | .scalar (.string s) => .scalar (.string (decodeText (utf8 s)))
  | v => v

def Legible : OrderedValue → Prop
  | .scalar (.string s) => wellFormed s = true ∧ s.head? ≠ some 0xFEFF
  | _ => True

def WellFormed : OrderedValue → Prop
  | .scalar (.string s) => wellFormed s
  | _ => True

lemma Legible.wellFormed (h : v.Legible) : v.WellFormed := by
  rcases v with (_ | b | n | s) | b
  case scalar.string => exact h.1
  all_goals trivial

lemma decoded_eq_iff (v : OrderedValue) : v.decoded = v.normal ↔ v.Legible := by
  rcases v with (_ | b | n | s) | b
  · simp [decoded, normal, Legible]
  · simp [decoded, normal, Legible]
  · simp [decoded, normal, Legible]
  · simpa [decoded, normal, Legible] using decodeText_utf8_iff (s := s)
  · simp [decoded, normal, Legible]

end OrderedValue

/-- A value whose numbers are finite has an encoding, which a negative zero shares with zero. -/
theorem exists_writeOrderedValue (h : v.Finite) :
    ∃ w, writeOrderedValue v = some w ∧ writeOrderedValue v.normal = some w := by
  rcases v with (_ | (_ | _) | n | s) | b
  · exact ⟨_, rfl, rfl⟩
  · exact ⟨_, rfl, rfl⟩
  · exact ⟨_, rfl, rfl⟩
  · have hfin : n.isFinite = true := h
    refine ⟨Rank.number :: flipNumber (bigEndian 8 n.normal.bits.val), ?_, ?_⟩
    · rw [writeOrderedValue, writeNumber, if_pos hfin, Option.map_some]
    · rw [OrderedValue.normal, writeOrderedValue, writeNumber,
        if_pos (by rw [JsNumber.isFinite_normal, hfin]), Option.map_some, JsNumber.normal_normal]
  · exact ⟨_, rfl, rfl⟩
  · exact ⟨_, rfl, rfl⟩

lemma readOrderedValue_write (hw : writeOrderedValue v = some w)
    (rest : Bytes) : readOrderedValue (w ++ rest) = some (v.decoded, rest) := by
  obtain (_ | (_ | _) | n | s) | b := v <;>
    simp [writeOrderedValue] at hw
  · subst hw
    rfl
  · subst hw
    rfl
  · subst hw
    rfl
  · obtain ⟨body, hbody, rfl⟩ := hw
    have hlen := (writeNumber_eq_some hbody).2.1
    simp only [cons_append, readOrderedValue, OrderedValue.decoded]
    rw [if_neg (by decide), if_neg (by decide), if_neg (by decide), if_pos trivial,
      readNumber_append hbody, drop_append_of_le_length hlen.ge,
      drop_of_length_le hlen.le, nil_append]
  · subst hw
    simp only [cons_append, readOrderedValue, OrderedValue.decoded]
    rw [if_neg (by decide), if_neg (by decide), if_neg (by decide), if_neg (by decide), if_pos trivial]
    simp only [readString, writeString, readEscaped_writeEscaped]
  · subst hw
    simp only [cons_append, readOrderedValue, OrderedValue.decoded]
    rw [if_neg (by decide), if_neg (by decide), if_neg (by decide), if_neg (by decide),
      if_neg (by decide), if_pos trivial]
    simp only [readEscaped_writeEscaped]

lemma scalar_lt_iff {a b : OrderedScalar} (ha : (OrderedValue.scalar a).Legible)
    (hb : (OrderedValue.scalar b).Legible) : a.lt b ↔ (OrderedValue.scalar a).before (.scalar b) := by
  rcases a with _ | a | a | a <;> rcases b with _ | b | b | b
  case number.number => exact (JsNumber.units_lt_iff a b).symm
  case string.string =>
    rw [OrderedScalar.lt, OrderedValue.before, rawPoints_eq ha.1, rawPoints_eq hb.1]
  all_goals
    simp [OrderedScalar.lt, OrderedScalar.kind, OrderedValue.before, OrderedValue.kind]

lemma writeOrderedValue_before_iff {a b : OrderedValue} {v w : Bytes}
    (hv : writeOrderedValue a = some v) (hw : writeOrderedValue b = some w) (ha : a.Legible)
    (hb : b.Legible) : v < w ↔ a.before b := by
  rcases a with a | x
  · rcases b with b | y
    · rw [writeOrderedValue_lt_iff hv hw, scalar_lt_iff ha hb]
    · -- the rank decides
      rcases a with _ | (_ | _) | n | s <;>
        simp [writeOrderedValue] at hv hw
      all_goals
        obtain ⟨v', -, rfl⟩ := hv
        subst hw
        simp +decide [cons_lt_cons_iff, OrderedValue.before, OrderedValue.kind]
  · rcases b with b | y
    · rcases b with _ | (_ | _) | n | s <;>
        simp [writeOrderedValue] at hv hw
      all_goals
        obtain ⟨w', -, rfl⟩ := hw
        subst hv
        simp +decide [cons_lt_cons_iff, OrderedValue.before, OrderedValue.kind]
    · simp only [writeOrderedValue, Option.some.injEq] at hv hw
      subst hv hw
      simpa [OrderedValue.before] using writeEscaped_append_lt_iff x y [] []

lemma finite_of_write {x : Bytes} (h : writeOrderedValue v = some x) : v.Finite := by
  rcases v with (_ | b | n | s) | b
  case scalar.number =>
    obtain ⟨y, hy, -⟩ := Option.map_eq_some_iff.1 h
    exact (writeNumber_eq_some hy).1
  all_goals trivial

lemma writeOrderedValue_eq_iff {v w : OrderedValue} {x y : Bytes}
    (hx : writeOrderedValue v = some x) (hy : writeOrderedValue w = some y)
    (hv : v.WellFormed) (hw : w.WellFormed) : x = y ↔ v.normal = w.normal := by
  obtain ⟨x', hx', hnv⟩ := exists_writeOrderedValue (finite_of_write hx)
  obtain ⟨y', hy', hnw⟩ := exists_writeOrderedValue (finite_of_write hy)
  obtain rfl := Option.some.inj (hx.symm.trans hx')
  obtain rfl := Option.some.inj (hy.symm.trans hy')
  constructor
  · rintro rfl
    -- what a value reads back as is the value, but for strings
    have hread := (readOrderedValue_write hx []).symm.trans (readOrderedValue_write hy [])
    rw [Option.some.injEq, Prod.mk.injEq] at hread
    rcases v with (_ | a | m | s) | a <;> rcases w with (_ | b | n | t) | b
    case scalar.string.scalar.string =>
      rw [writeOrderedValue, Option.some.injEq] at hx hy
      have hutf8 := writeString_inj.1 (List.cons.inj (hx.trans hy.symm)).2
      rw [(utf8_inj hv hw).1 hutf8]
    all_goals
      first
      | exact hread.1
      | exact absurd hread.1 (by simp [OrderedValue.decoded])
  · intro h
    exact Option.some.inj (hnv.symm.trans (h ▸ hnw))

/-! ## Keys -/

/-- A posting of the ordered lens: a column, a value whose numbers are finite, and an identifier
of 32 bits. -/
structure OrderedEntry where
  column : Utf16
  value : OrderedValue
  seq : ℕ
  finite : value.Finite
  lt : seq < 2 ^ 32

variable {e : OrderedEntry}

namespace OrderedEntry

def key (e : OrderedEntry) : Option Key := orderedKey e.column e.value e.seq

/-- No string of the entry has a lone surrogate or a leading byte order mark. -/
def Legible (e : OrderedEntry) : Prop :=
  (wellFormed e.column = true ∧ e.column.head? ≠ some 0xFEFF) ∧ e.value.Legible

def before (x y : OrderedEntry) : Prop :=
  x.value.before y.value ∨ x.value.normal = y.value.normal ∧ x.seq < y.seq

def same (x y : OrderedEntry) : Prop :=
  x.column = y.column ∧ x.value.normal = y.value.normal ∧ x.seq = y.seq

lemma exists_key (e : OrderedEntry) : ∃ w, writeOrderedValue e.value = some w ∧
      e.key = some (orderedColumnPrefix e.column ++ w ++ writeU32 e.seq) := by
  obtain ⟨w, hw, -⟩ := exists_writeOrderedValue e.finite
  exact ⟨w, hw, by simp [key, orderedKey, orderedValuePrefix, orderedColumnPrefix, hw]⟩

lemma decodeOrderedKey_key {k : Key} (h : e.key = some k) :
    decodeOrderedKey k = some (decodeText (utf8 e.column), e.value.decoded, e.seq) := by
  obtain ⟨w, hw, hkey⟩ := e.exists_key
  obtain rfl := Option.some.inj (h.symm.trans hkey)
  have hseq := seqOf_append (orderedColumnPrefix e.column ++ w) e.seq
  rw [Nat.mod_eq_of_lt e.lt] at hseq
  have hread : readString ((orderedColumnPrefix e.column ++ w ++ writeU32 e.seq).drop 1) =
      (decodeText (utf8 e.column), w ++ writeU32 e.seq) := by
    rw [orderedColumnPrefix, cons_append, cons_append, drop_one, tail_cons,
      append_assoc, readString, writeString, readEscaped_writeEscaped]
  rw [decodeOrderedKey, hread, hseq]
  simp [readOrderedValue_write hw]

lemma decodeOrderedKey_key_iff {k : Key} (h : e.key = some k) :
    decodeOrderedKey k = some (e.column, e.value.normal, e.seq) ↔ e.Legible := by
  rw [decodeOrderedKey_key h, Option.some.injEq, Prod.mk.injEq, Prod.mk.injEq,
    decodeText_utf8_iff, OrderedValue.decoded_eq_iff, and_iff_left rfl]
  rfl

variable {x y : OrderedEntry} {k l : Key}

lemma same_of_key_eq (hx : x.key = some k) (hy : y.key = some k) (hlx : x.Legible)
    (hly : y.Legible) : x.same y := by
  have h := ((decodeOrderedKey_key_iff hx).2 hlx).symm.trans ((decodeOrderedKey_key_iff hy).2 hly)
  simpa [same] using h

lemma key_lt_iff (hx : x.key = some k) (hy : y.key = some l) (hlx : x.Legible)
    (hly : y.Legible) (hcolumn : x.column = y.column) : k < l ↔ x.before y := by
  obtain ⟨v, hv, hkx⟩ := x.exists_key
  obtain ⟨w, hw, hky⟩ := y.exists_key
  obtain rfl := Option.some.inj (hx.symm.trans hkx)
  obtain rfl := Option.some.inj (hy.symm.trans hky)
  have hvalue : v = w ↔ x.value.normal = y.value.normal :=
    writeOrderedValue_eq_iff hv hw hlx.2.wellFormed hly.2.wellFormed
  rw [hcolumn, posting_lt_iff (orderedValuePrefix_mem_lensCode
      (orderedValuePrefix_eq_some.2 ⟨v, hv, rfl⟩)) (orderedValuePrefix_mem_lensCode
      (orderedValuePrefix_eq_some.2 ⟨w, hw, rfl⟩)) x.lt y.lt, append_lt_append_left_iff,
    append_cancel_left_eq, hvalue, writeOrderedValue_before_iff hv hw hlx.2 hly.2]
  rfl

end OrderedEntry

/-- The codec is right for two entries: within a column their keys sort as they do, the keys are
the same only for the same entry, and each reads back as its entry. -/
def Codec (x y : OrderedEntry) : Prop :=
  ∃ k l, x.key = some k ∧ y.key = some l ∧ (x.column = y.column → (compareKeys k l < 0 ↔ x.before y)) ∧
    (k = l → x.same y) ∧
    decodeOrderedKey k = some (x.column, x.value.normal, x.seq) ∧
    decodeOrderedKey l = some (y.column, y.value.normal, y.seq)

/-- The codec is right for two entries exactly when no string of either has a lone surrogate or a
leading byte order mark. -/
theorem codec_iff (x y : OrderedEntry) : Codec x y ↔ x.Legible ∧ y.Legible := by
  constructor
  · rintro ⟨k, l, hx, hy, -, -, hk, hl⟩
    exact ⟨(OrderedEntry.decodeOrderedKey_key_iff hx).1 hk, (OrderedEntry.decodeOrderedKey_key_iff hy).1 hl⟩
  · rintro ⟨hlx, hly⟩
    obtain ⟨v, -, hx⟩ := x.exists_key
    obtain ⟨w, -, hy⟩ := y.exists_key
    refine ⟨_, _, hx, hy, fun hcolumn => ?_, fun heq => ?_, (OrderedEntry.decodeOrderedKey_key_iff hx).2 hlx,
      (OrderedEntry.decodeOrderedKey_key_iff hy).2 hly⟩
    · rw [compareKeys_neg_iff]
      exact OrderedEntry.key_lt_iff hx hy hlx hly hcolumn
    · exact OrderedEntry.same_of_key_eq hx (heq ▸ hy) hlx hly

/-- The key of a lone surrogate is the key of the replacement character. -/
theorem not_codec : ¬ ∀ x y, Codec x y := by
  intro h
  obtain ⟨k, l, hx, hy, -, hsame, -⟩ := h ⟨[0x6B], .scalar (.string [0xD800]), 1, trivial, by norm_num⟩
    ⟨[0x6B], .scalar (.string [0xFFFD]), 1, trivial, by norm_num⟩
  have hkl : k = l := Option.some.inj (hx.symm.trans ((show _ = _ by decide +kernel).trans hy))
  exact absurd (hsame hkl).2.1 (by decide)

end Zelavis.Db
