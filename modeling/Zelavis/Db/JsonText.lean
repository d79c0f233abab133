import Zelavis.Db.Json
import Zelavis.Db.Tuples

/-!
# JSON as text

What `JSON.stringify` writes of a value, and what `JSON.parse` makes of that text.
-/

namespace Zelavis.Db

open Lib

/-! ## Counts as numbers -/

variable {n : ℕ}

namespace JsNumber

/-- The largest number every whole number up to which is one. Source: `Number.MAX_SAFE_INTEGER`. -/
def MAX_SAFE_INTEGER : ℕ := 9007199254740991

/-- A whole number's leading bits, as many as a significand has, rounded to even. -/
def leading (n e : ℕ) : ℕ :=
  if e ≤ 52 then n * 2 ^ (52 - e)
  else
    let unit := 2 ^ (e - 52)
    let half := unit / 2
    n / unit + if half < n % unit ∨ (n % unit = half ∧ n / unit % 2 = 1) then 1 else 0

/-- A count as a number. A significand that was rounded up to a power of two carries into the
exponent, and what is too large is infinite. -/
def ofNat (n : ℕ) : JsNumber :=
  if n = 0 then zero
  else
    let e := Nat.log2 n
    ⟨Fin.ofNat _ (min (0x7ff * 2 ^ 52) ((1022 + e) * 2 ^ 52 + leading n e))⟩

lemma leading_ge (hn : n ≠ 0) : 2 ^ 52 ≤ leading n (Nat.log2 n) := by
  have hlow : 2 ^ Nat.log2 n ≤ n := Nat.log2_self_le hn
  unfold leading
  split_ifs with he
  · calc 2 ^ 52 = 2 ^ Nat.log2 n * 2 ^ (52 - Nat.log2 n) := by rw [← Nat.pow_add]; congr 1; omega
      _ ≤ n * 2 ^ (52 - Nat.log2 n) := Nat.mul_le_mul_right _ hlow
  · have hunit : 2 ^ 52 ≤ n / 2 ^ (Nat.log2 n - 52) := by
      rw [Nat.le_div_iff_mul_le (by positivity), ← Nat.pow_add]
      calc 2 ^ (52 + (Nat.log2 n - 52)) = 2 ^ Nat.log2 n := by congr 1; omega
        _ ≤ n := hlow
    exact hunit.trans (Nat.le_add_right _ _)

lemma bits_ofNat (hn : n ≠ 0) : (ofNat n).bits.val =
    min (0x7ff * 2 ^ 52) ((1022 + Nat.log2 n) * 2 ^ 52 + leading n (Nat.log2 n)) := by
  unfold ofNat
  rw [if_neg hn]
  refine Nat.mod_eq_of_lt (lt_of_le_of_lt (Nat.min_le_left _ _) (by decide))

/-- A positive number that is not infinite: its exponent, and a significand with its leading bit. -/
theorem integer?_of_bits {n : JsNumber} {x m : ℕ} (hx : x < 0x7ff) (hx' : x ≠ 0) (hm : 2 ^ 52 ≤ m)
    (hm' : m < 2 ^ 53) (h : n.bits.val = (x - 1) * 2 ^ 52 + m) :
    n.exponent = x ∧ n.significand = m ∧ n.isFinite = true ∧ n.bits.val < 0x8000000000000000 := by
  refine ⟨?_, ?_, ?_, by omega⟩
  · unfold exponent
    omega
  · unfold significand exponent
    rw [if_neg (by omega)]
    omega
  · unfold isFinite
    simp only [ne_eq, decide_eq_true_eq]
    omega

lemma integer?_of_magnitude {n : JsNumber} {m : ℕ} (h : n.magnitude? = some m) :
    n.integer? = some (if n.bits.val < 0x8000000000000000 then (m : ℤ) else -m) := by
  simp [integer?, h]

lemma log2_le_of_le (hn : n ≠ 0) : Nat.log2 n ≤ 52 ↔ n ≤ MAX_SAFE_INTEGER := by
  have hlt := (Nat.log2_lt hn (k := 53)).symm
  unfold MAX_SAFE_INTEGER
  omega

lemma leading_lt (he : Nat.log2 n ≤ 52) : leading n (Nat.log2 n) < 2 ^ 53 := by
  unfold leading
  rw [if_pos he]
  calc n * 2 ^ (52 - Nat.log2 n) < 2 ^ (Nat.log2 n + 1) * 2 ^ (52 - Nat.log2 n) :=
        Nat.mul_lt_mul_of_pos_right Nat.lt_log2_self (by positivity)
    _ = 2 ^ 53 := by rw [← Nat.pow_add]; congr 1; omega

lemma integer?_ofNat (h : n ≤ MAX_SAFE_INTEGER) : (ofNat n).integer? = some (n : ℤ) := by
  by_cases hn : n = 0
  · subst hn
    decide
  · have he := (log2_le_of_le hn).2 h
    have hge := leading_ge hn
    have hlt := leading_lt he
    have hbits : (ofNat n).bits.val = (1023 + Nat.log2 n - 1) * 2 ^ 52 + leading n (Nat.log2 n) := by
      rw [bits_ofNat hn]
      omega
    obtain ⟨hexponent, hsignificand, hfinite, hsign⟩ :=
      integer?_of_bits (by omega) (by omega) hge hlt hbits
    have hleading : leading n (Nat.log2 n) = n * 2 ^ (52 - Nat.log2 n) := if_pos he
    have hmagnitude : (ofNat n).magnitude? = some n := by
      unfold magnitude?
      rw [hexponent, hsignificand, hfinite, hleading]
      have hpos : n * 2 ^ (52 - Nat.log2 n) ≠ 0 := by positivity
      by_cases hfull : 1075 ≤ 1023 + Nat.log2 n
      · have h52 : Nat.log2 n = 52 := by omega
        simp [h52]
      · have hshift : 1075 - (1023 + Nat.log2 n) = 52 - Nat.log2 n := by omega
        rw [if_neg (by decide), if_neg hfull, if_neg hpos, if_neg (by omega), hshift,
          if_pos (Nat.mul_mod_left _ _), Nat.mul_div_cancel _ (by positivity)]
    rw [integer?_of_magnitude hmagnitude, if_pos hsign]

lemma isSafeInteger_ofNat (n : ℕ) : (ofNat n).isSafeInteger = decide (n ≤ MAX_SAFE_INTEGER) := by
  by_cases h : n ≤ MAX_SAFE_INTEGER
  · unfold isSafeInteger
    rw [integer?_ofNat h]
    unfold MAX_SAFE_INTEGER at h ⊢
    simp
  · rw [decide_eq_false h]
    have hn : n ≠ 0 := by
      rintro rfl
      exact h (Nat.zero_le _)
    have he : ¬Nat.log2 n ≤ 52 := fun he => h ((log2_le_of_le hn).1 he)
    have hge := leading_ge hn
    have hbits := bits_ofNat hn
    unfold isSafeInteger
    by_cases hfinite : (ofNat n).isFinite = true
    · -- the exponent is at least that of `2 ^ 53`, and the significand has its leading bit
      have hexponent : 1076 ≤ (ofNat n).exponent := by
        unfold isFinite at hfinite
        unfold exponent
        omega
      have hsignificand : 2 ^ 52 ≤ (ofNat n).significand := by
        unfold significand
        rw [if_neg (by omega)]
        omega
      have hmagnitude : (ofNat n).magnitude? =
          some ((ofNat n).significand * 2 ^ ((ofNat n).exponent - 1075)) := by
        unfold magnitude?
        rw [hfinite, if_neg (by decide), if_pos (by omega)]
      have hlarge : 2 ^ 53 ≤ (ofNat n).significand * 2 ^ ((ofNat n).exponent - 1075) := by
        calc 2 ^ 53 = 2 ^ 52 * 2 ^ 1 := by norm_num
          _ ≤ (ofNat n).significand * 2 ^ ((ofNat n).exponent - 1075) :=
            Nat.mul_le_mul hsignificand (Nat.pow_le_pow_right (by norm_num) (by omega))
      rw [integer?_of_magnitude hmagnitude, Option.any_some, decide_eq_false_iff_not]
      split_ifs
      · omega
      · omega
    · have hfinite : (ofNat n).isFinite = false := by simpa using hfinite
      have hnone : (ofNat n).magnitude? = none := if_pos hfinite
      simp [integer?, hnone]

end JsNumber

/-! ## Size -/

namespace Json

mutual

def size : Json → ℕ
  | .scalar _ => 1
  | .array items => 1 + sizeItems items
  | .object members => 1 + sizeMembers members

def sizeItems : List Json → ℕ
  | [] => 0
  | v :: rest => v.size + sizeItems rest

def sizeMembers : List (Utf16 × Json) → ℕ
  | [] => 0
  | (_, v) :: rest => v.size + sizeMembers rest

end

lemma sizeMembers_eq (members : JsonObject) : sizeMembers members = sizeItems (members.map Prod.snd) := by
  induction members with
  | nil => rfl
  | cons m rest ih =>
    obtain ⟨k, v⟩ := m
    rw [sizeMembers, List.map_cons, sizeItems, ih]

lemma sizeItems_append (l l' : List Json) : sizeItems (l ++ l') = sizeItems l + sizeItems l' := by
  induction l with
  | nil => exact (Nat.zero_add _).symm
  | cons v rest ih => rw [List.cons_append, sizeItems, sizeItems, ih, Nat.add_assoc]

lemma sizeItems_reverse (l : List Json) : sizeItems l.reverse = sizeItems l := by
  induction l with
  | nil => rfl
  | cons v rest ih =>
    rw [List.reverse_cons, sizeItems_append, ih, sizeItems, sizeItems, sizeItems]
    omega

end Json

/-! ## Text -/

/-- A code unit as `\uXXXX`. -/
def unicodeEscape (u : CodeUnit) : Utf16 :=
  utf16 "\\u" ++ [hexDigit (u.val / 4096), hexDigit (u.val / 256 % 16), hexDigit (u.val / 16 % 16),
    hexDigit (u.val % 16)]

def quoteUnit (u : CodeUnit) : Utf16 :=
  if u = 0x08 then utf16 "\\b"
  else if u = 0x09 then utf16 "\\t"
  else if u = 0x0A then utf16 "\\n"
  else if u = 0x0C then utf16 "\\f"
  else if u = 0x0D then utf16 "\\r"
  else if u = 0x22 then utf16 "\\\""
  else if u = 0x5C then utf16 "\\\\"
  else if u.val < 0x20 then unicodeEscape u
  else [u]

/-- The text of a string between its quotes; a surrogate without its other half is escaped. -/
def quoteUnits : Utf16 → Utf16
  | [] => []
  | [u] => if isHighSurrogate u || isLowSurrogate u then unicodeEscape u else quoteUnit u
  | u :: u' :: rest =>
    if isHighSurrogate u && isLowSurrogate u' then u :: u' :: quoteUnits rest
    else
      (if isHighSurrogate u || isLowSurrogate u then unicodeEscape u else quoteUnit u) ++
        quoteUnits (u' :: rest)

def quote (s : Utf16) : Utf16 := utf16 "\"" ++ quoteUnits s ++ utf16 "\""

section

variable (digits : JsNumber → Utf16)

mutual

/-- The text of a value, where `digits` spells a finite number. Source: `JSON.stringify`. -/
def stringify : Json → Utf16
  | .scalar .null => utf16 "null"
  | .scalar (.boolean true) => utf16 "true"
  | .scalar (.boolean false) => utf16 "false"
  | .scalar (.number n) => if n.isFinite then digits n.normal else utf16 "null"
  | .scalar (.string s) => quote s
  | .array items => utf16 "[" ++ stringifyItems items ++ utf16 "]"
  | .object members => utf16 "\x7b" ++ stringifyMembers members ++ utf16 "\x7d"

def stringifyItems : List Json → Utf16
  | [] => []
  | [v] => stringify v
  | v :: rest => stringify v ++ utf16 "," ++ stringifyItems rest

def stringifyMembers : List (Utf16 × Json) → Utf16
  | [] => []
  | [(k, v)] => quote k ++ utf16 ":" ++ stringify v
  | (k, v) :: rest => quote k ++ utf16 ":" ++ stringify v ++ utf16 "," ++ stringifyMembers rest

end

end

/-! ## Reading back -/

mutual

/-- What a value's text is read back as. Source: `JSON.parse`. -/
def reread : Json → Json
  | .scalar v => .scalar (jsonScalar v)
  | .array items => .array (rereadItems items)
  | .object members => .object (rereadMembers members)

def rereadItems : List Json → List Json
  | [] => []
  | v :: rest => reread v :: rereadItems rest

def rereadMembers : List (Utf16 × Json) → List (Utf16 × Json)
  | [] => []
  | (k, v) :: rest => (k, reread v) :: rereadMembers rest

end

lemma rereadMembers_eq (members : JsonObject) :
    rereadMembers members = members.map fun m => (m.1, reread m.2) := by
  induction members with
  | nil => rfl
  | cons m rest ih =>
    obtain ⟨k, v⟩ := m
    rw [rereadMembers, ih, List.map_cons]

mutual

lemma reread_reread : ∀ v : Json, reread (reread v) = reread v
  | .scalar v => by rw [reread, reread, jsonScalar_jsonScalar]
  | .array items => by rw [reread, reread, rereadItems_rereadItems items]
  | .object members => by rw [reread, reread, rereadMembers_rereadMembers members]

lemma rereadItems_rereadItems : ∀ items : List Json, rereadItems (rereadItems items) = rereadItems items
  | [] => rfl
  | v :: rest => by
    rw [rereadItems, rereadItems, reread_reread v, rereadItems_rereadItems rest]

lemma rereadMembers_rereadMembers : ∀ members : List (Utf16 × Json),
    rereadMembers (rereadMembers members) = rereadMembers members
  | [] => rfl
  | (_, v) :: rest => by
    rw [rereadMembers, rereadMembers, reread_reread v, rereadMembers_rereadMembers rest]

end

end Zelavis.Db
