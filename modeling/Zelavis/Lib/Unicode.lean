import Zelavis.Lib.Bytes

/-!
# UTF-16 strings and their UTF-8 bytes

A string is a list of 16-bit code units, as ECMAScript has it, so it may hold a surrogate that is
not half of a pair.
-/

namespace Zelavis.Lib

open List

instance codeUnitCount : NeZero (0x10000 : ℕ) := ⟨by decide⟩

instance codePointCount : NeZero (0x110000 : ℕ) := ⟨by decide⟩

/-- A 16-bit code unit. -/
abbrev CodeUnit := Fin 0x10000

instance lawfulCodeUnit : LawfulBEq CodeUnit := inferInstance

/-- A string, as its code units. -/
abbrev Utf16 := List CodeUnit

instance lawfulUtf16 : LawfulBEq Utf16 := inferInstance

instance lawfulUtf16Pair : LawfulBEq (Utf16 × Utf16) := inferInstance

/-- A Unicode code point. -/
abbrev CodePoint := Fin 0x110000

def utf16 (s : String) : Utf16 := s.toList.map fun c => Fin.ofNat 0x10000 c.toNat

/-! ## Code units and code points -/

def isHighSurrogate (u : CodeUnit) : Bool := 0xD800 ≤ u.val && u.val ≤ 0xDBFF

def isLowSurrogate (u : CodeUnit) : Bool := 0xDC00 ≤ u.val && u.val ≤ 0xDFFF

def isSurrogate (u : CodeUnit) : Bool := 0xD800 ≤ u.val && u.val ≤ 0xDFFF

/-- `U+FFFD`, what stands for anything malformed. -/
def replacement : CodePoint := 0xFFFD

def pairPoint (u v : CodeUnit) : CodePoint :=
  Fin.ofNat _ (0x10000 + (u.val - 0xD800) * 0x400 + (v.val - 0xDC00))

def unitPoint (u : CodeUnit) : CodePoint :=
  if isSurrogate u then replacement else Fin.ofNat _ u.val

/-- The code points of a string; a lone surrogate reads as `U+FFFD`. -/
def codePoints : Utf16 → List CodePoint
  | [] => []
  | [u] => [unitPoint u]
  | u :: v :: rest =>
    if isHighSurrogate u && isLowSurrogate v then pairPoint u v :: codePoints rest
    else unitPoint u :: codePoints (v :: rest)

def wellFormed : Utf16 → Bool
  | [] => true
  | [u] => !isSurrogate u
  | u :: v :: rest =>
    if isHighSurrogate u && isLowSurrogate v then wellFormed rest
    else !isSurrogate u && wellFormed (v :: rest)

def pointUnits (c : CodePoint) : Utf16 :=
  if c.val < 0x10000 then [Fin.ofNat _ c.val]
  else [Fin.ofNat _ (0xD800 + (c.val - 0x10000) / 0x400), Fin.ofNat _ (0xDC00 + (c.val - 0x10000) % 0x400)]

lemma pointUnits_pairPoint {u v : CodeUnit} (hu : isHighSurrogate u) (hv : isLowSurrogate v) :
    pointUnits (pairPoint u v) = [u, v] := by
  simp only [isHighSurrogate, isLowSurrogate, Bool.and_eq_true, decide_eq_true_eq] at hu hv
  have hval : (pairPoint u v).val = 0x10000 + (u.val - 0xD800) * 0x400 + (v.val - 0xDC00) := by
    simp only [pairPoint, Fin.val_ofNat]
    omega
  have h₁ : (Fin.ofNat 0x10000 (0xD800 + ((pairPoint u v).val - 0x10000) / 0x400)) = u := by
    ext
    rw [hval, Fin.val_ofNat]
    omega
  have h₂ : (Fin.ofNat 0x10000 (0xDC00 + ((pairPoint u v).val - 0x10000) % 0x400)) = v := by
    ext
    rw [hval, Fin.val_ofNat]
    omega
  rw [pointUnits, if_neg (by omega), h₁, h₂]

lemma pointUnits_unitPoint {u : CodeUnit} (hu : isSurrogate u = false) :
    pointUnits (unitPoint u) = [u] := by
  have hval : (unitPoint u).val = u.val := by
    simp only [unitPoint, hu, Bool.false_eq_true, if_false, Fin.val_ofNat]
    omega
  have h₁ : (Fin.ofNat 0x10000 (unitPoint u).val) = u := by
    ext
    rw [hval, Fin.val_ofNat]
    omega
  rw [pointUnits, if_pos (by omega), h₁]

variable {s : Utf16}

lemma flatMap_pointUnits_codePoints (h : wellFormed s) : (codePoints s).flatMap pointUnits = s := by
  induction s using codePoints.induct with
  | case1 => rfl
  | case2 u =>
    have hu : isSurrogate u = false := by simpa [wellFormed] using h
    simp [codePoints, pointUnits_unitPoint hu]
  | case3 u v rest hpair ih =>
    rw [wellFormed, if_pos hpair] at h
    rw [Bool.and_eq_true] at hpair
    rw [codePoints, if_pos (by simp [hpair]), flatMap_cons, ih h, pointUnits_pairPoint hpair.1 hpair.2]
    rfl
  | case4 u v rest hpair ih =>
    rw [wellFormed, if_neg hpair, Bool.and_eq_true] at h
    have hu : isSurrogate u = false := by simpa using h.1
    rw [codePoints, if_neg hpair, flatMap_cons, ih h.2, pointUnits_unitPoint hu]
    rfl

lemma codePoints_inj {s t : Utf16} (hs : wellFormed s) (ht : wellFormed t) :
    codePoints s = codePoints t ↔ s = t := by
  constructor
  · intro h
    rw [← flatMap_pointUnits_codePoints hs, h, flatMap_pointUnits_codePoints ht]
  · rintro rfl
    rfl

lemma codePoints_append (h : wellFormed s) (t : Utf16) :
    codePoints (s ++ t) = codePoints s ++ codePoints t := by
  induction s using codePoints.induct with
  | case1 => rfl
  | case2 u =>
    have hu : isSurrogate u = false := by simpa [wellFormed] using h
    have hh : isHighSurrogate u = false := by
      simp only [isSurrogate, isHighSurrogate] at hu ⊢
      grind
    cases t with
    | nil => rfl
    | cons v t => simp [codePoints, hh]
  | case3 u v rest hpair ih =>
    rw [wellFormed, if_pos hpair] at h
    rw [cons_append, cons_append, codePoints, if_pos hpair, ih h, codePoints,
      if_pos hpair, cons_append]
  | case4 u v rest hpair ih =>
    rw [wellFormed, if_neg hpair, Bool.and_eq_true] at h
    rw [cons_append, cons_append, codePoints, if_neg hpair, ← cons_append, ih h.2,
      codePoints, if_neg hpair, cons_append]

lemma codePoints_prefix_iff {s t : Utf16} (hs : wellFormed s) (ht : wellFormed t) :
    codePoints s <+: codePoints t ↔ s <+: t := by
  constructor
  · rintro ⟨r, hr⟩
    refine ⟨r.flatMap pointUnits, ?_⟩
    rw [← flatMap_pointUnits_codePoints ht, ← hr, flatMap_append, flatMap_pointUnits_codePoints hs]
  · rintro ⟨r, rfl⟩
    exact ⟨codePoints r, (codePoints_append hs r).symm⟩

lemma unitPoint_eq {u : CodeUnit} (hu : isSurrogate u = false) : unitPoint u = Fin.ofNat _ u.val := by
  rw [unitPoint, hu]
  rfl

lemma isSurrogate_of_lt {u : CodeUnit} (hu : u.val < 0x80) : isSurrogate u = false :=
  Bool.and_eq_false_iff.2 (.inl (decide_eq_false (by omega)))

lemma codePoints_eq_map (h : ∀ u ∈ s, isSurrogate u = false) :
    codePoints s = s.map fun u => Fin.ofNat _ u.val := by
  induction s using codePoints.induct with
  | case1 => rfl
  | case2 u => rw [codePoints, unitPoint_eq (h u mem_cons_self)]; rfl
  | case3 u v rest hpair ih =>
    have hu := h u mem_cons_self
    simp only [isSurrogate, isHighSurrogate, Bool.and_eq_true, Bool.and_eq_false_iff, decide_eq_true_eq,
      decide_eq_false_iff_not] at hu hpair
    omega
  | case4 u v rest hpair ih =>
    rw [codePoints, if_neg hpair, unitPoint_eq (h u mem_cons_self),
      ih fun w hw => h w (mem_cons_of_mem _ hw)]
    rfl

def rawPoints : Utf16 → List CodePoint
  | [] => []
  | [u] => [Fin.ofNat _ u.val]
  | u :: v :: rest =>
    if isHighSurrogate u && isLowSurrogate v then pairPoint u v :: rawPoints rest
    else Fin.ofNat _ u.val :: rawPoints (v :: rest)

lemma rawPoints_eq (h : wellFormed s) : rawPoints s = codePoints s := by
  induction s using codePoints.induct with
  | case1 => rfl
  | case2 u =>
    have hu : isSurrogate u = false := by simpa [wellFormed] using h
    rw [rawPoints, codePoints, unitPoint_eq hu]
  | case3 u v rest hpair ih =>
    rw [wellFormed, if_pos hpair] at h
    rw [rawPoints, codePoints, if_pos hpair, if_pos hpair, ih h]
  | case4 u v rest hpair ih =>
    rw [wellFormed, if_neg hpair, Bool.and_eq_true] at h
    have hu : isSurrogate u = false := by simpa using h.1
    rw [rawPoints, codePoints, if_neg hpair, if_neg hpair, ih h.2, unitPoint_eq hu]

def isScalar (c : CodePoint) : Bool := c.val < 0xD800 || 0xDFFF < c.val

variable {c : CodePoint}

lemma isScalar_of_mem_codePoints (hc : c ∈ codePoints s) : isScalar c := by
  have hunit : ∀ u, isScalar (unitPoint u) := by
    intro u
    by_cases hu : isSurrogate u
    · simp [unitPoint, hu, isScalar, replacement]
    · rw [unitPoint, if_neg hu]
      simp only [isSurrogate, isScalar, Fin.val_ofNat, Bool.and_eq_true, Bool.or_eq_true,
        decide_eq_true_eq] at hu ⊢
      omega
  induction s using codePoints.induct with
  | case1 => simp [codePoints] at hc
  | case2 u =>
    rw [codePoints, mem_singleton] at hc
    exact hc ▸ hunit u
  | case3 u v rest hpair ih =>
    rw [codePoints, if_pos hpair, mem_cons] at hc
    rcases hc with rfl | hc
    · simp only [isHighSurrogate, isLowSurrogate, Bool.and_eq_true, decide_eq_true_eq] at hpair
      have hval : 0xDFFF < (pairPoint u v).val := by
        simp only [pairPoint, Fin.val_ofNat]
        omega
      simp [isScalar, hval]
    · exact ih hc
  | case4 u v rest hpair ih =>
    rw [codePoints, if_neg hpair, mem_cons] at hc
    rcases hc with rfl | hc
    · exact hunit u
    · exact ih hc

/-! ## UTF-8 -/

def utf8Point (c : CodePoint) : Bytes :=
  if c.val < 0x80 then [Fin.ofNat 256 c.val]
  else if c.val < 0x800 then
    [Fin.ofNat 256 (0xC0 + c.val / 64), Fin.ofNat 256 (0x80 + c.val % 64)]
  else if c.val < 0x10000 then
    [Fin.ofNat 256 (0xE0 + c.val / 4096), Fin.ofNat 256 (0x80 + c.val / 64 % 64),
      Fin.ofNat 256 (0x80 + c.val % 64)]
  else
    [Fin.ofNat 256 (0xF0 + c.val / 262144), Fin.ofNat 256 (0x80 + c.val / 4096 % 64),
      Fin.ofNat 256 (0x80 + c.val / 64 % 64), Fin.ofNat 256 (0x80 + c.val % 64)]

lemma div_lt_or_eq {m n : ℕ} (h : m < n) (d : ℕ) : m / d < n / d ∨ m / d = n / d :=
  lt_or_eq_of_le (Nat.div_le_div_right h.le)

lemma utf8Point_orderedCode : OrderedCode utf8Point where
  ne_nil c := by
    rw [utf8Point]
    split_ifs <;> simp
  mono := by
    intro a b hab x y
    have ha := a.isLt
    have hb := b.isLt
    rw [Fin.lt_def] at hab
    -- the first byte at which the quotients differ decides
    have h₁ := div_lt_or_eq hab 64
    have h₂ := div_lt_or_eq hab 4096
    have h₃ := div_lt_or_eq hab 262144
    rw [utf8Point, utf8Point]
    split_ifs <;>
      simp only [cons_append, nil_append, cons_lt_cons_iff, Fin.lt_def, Fin.ext_iff,
        Fin.val_ofNat] <;>
      rcases h₃ with h₃ | h₃ <;> rcases h₂ with h₂ | h₂ <;> rcases h₁ with h₁ | h₁ <;> omega

def utf8 (s : Utf16) : Bytes := (codePoints s).flatMap utf8Point

lemma utf8_inj {s t : Utf16} (hs : wellFormed s) (ht : wellFormed t) : utf8 s = utf8 t ↔ s = t := by
  rw [utf8, utf8, utf8Point_orderedCode.flatMap_injective.eq_iff, codePoints_inj hs ht]

lemma utf8_prefix_iff {s t : Utf16} (hs : wellFormed s) (ht : wellFormed t) :
    utf8 s <+: utf8 t ↔ s <+: t := by
  rw [utf8, utf8, utf8Point_orderedCode.flatMap_prefix_iff, codePoints_prefix_iff hs ht]

lemma utf8_lt_iff (s t : Utf16) : utf8 s < utf8 t ↔ codePoints s < codePoints t :=
  utf8Point_orderedCode.flatMap_lt_iff _ _

/-! ## Decoding -/

/-- A UTF-8 decoder between bytes: the bits read of a code point, how many bytes it still needs,
and the range the next of them must be in. -/
structure DecodeState where
  bits : ℕ
  needed : ℕ
  lower : ℕ
  upper : ℕ

def decodeStart : DecodeState := ⟨0, 0, 0x80, 0xBF⟩

/-- The first byte of a code point: what it yields at once, and the state after it. -/
def decodeFirst (b : Byte) : List CodePoint × DecodeState :=
  let n := b.val
  if n ≤ 0x7F then ([Fin.ofNat _ n], decodeStart)
  else if 0xC2 ≤ n && n ≤ 0xDF then ([], ⟨n % 32, 1, 0x80, 0xBF⟩)
  else if 0xE0 ≤ n && n ≤ 0xEF then
    ([], ⟨n % 16, 2, if n = 0xE0 then 0xA0 else 0x80, if n = 0xED then 0x9F else 0xBF⟩)
  else if 0xF0 ≤ n && n ≤ 0xF4 then
    ([], ⟨n % 8, 3, if n = 0xF0 then 0x90 else 0x80, if n = 0xF4 then 0x8F else 0xBF⟩)
  else ([replacement], decodeStart)

/-- One byte: what it yields, and the state after it. A byte that cannot continue a code point
ends it as `U+FFFD` and is read again as a first byte. -/
def decodeByte (σ : DecodeState) (b : Byte) : List CodePoint × DecodeState :=
  if σ.needed = 0 then decodeFirst b
  else if σ.lower ≤ b.val && b.val ≤ σ.upper then
    let bits := σ.bits * 64 + b.val % 64
    if σ.needed = 1 then ([Fin.ofNat _ bits], decodeStart)
    else ([], ⟨bits, σ.needed - 1, 0x80, 0xBF⟩)
  else
    let (out, σ') := decodeFirst b
    (replacement :: out, σ')

def utf8DecodeFrom (σ : DecodeState) : Bytes → List CodePoint
  | [] => if σ.needed = 0 then [] else [replacement]
  | b :: rest => (decodeByte σ b).1 ++ utf8DecodeFrom (decodeByte σ b).2 rest

def utf8Decode (bytes : Bytes) : List CodePoint := utf8DecodeFrom decodeStart bytes

/-- What a text decoder makes of a byte string: its code points, less one leading `U+FEFF`. -/
def decodeText (bytes : Bytes) : Utf16 :=
  let points := utf8Decode bytes
  (if points.head? = some 0xFEFF then points.tail else points).flatMap pointUnits

lemma utf8DecodeFrom_first (b : Byte) (rest : Bytes) : utf8DecodeFrom decodeStart (b :: rest) =
      (decodeFirst b).1 ++ utf8DecodeFrom (decodeFirst b).2 rest := rfl

variable {b : Byte}

lemma utf8DecodeFrom_last {bits lower upper : ℕ} (hlo : lower ≤ b.val)
    (hhi : b.val ≤ upper) (rest : Bytes) : utf8DecodeFrom ⟨bits, 1, lower, upper⟩ (b :: rest) =
      Fin.ofNat _ (bits * 64 + b.val % 64) :: utf8DecodeFrom decodeStart rest := by
  simp [utf8DecodeFrom, decodeByte, hlo, hhi]

lemma utf8DecodeFrom_more {bits n lower upper : ℕ} (hlo : lower ≤ b.val)
    (hhi : b.val ≤ upper) (rest : Bytes) : utf8DecodeFrom ⟨bits, n + 2, lower, upper⟩ (b :: rest) =
      utf8DecodeFrom ⟨bits * 64 + b.val % 64, n + 1, 0x80, 0xBF⟩ rest := by
  simp [utf8DecodeFrom, decodeByte, hlo, hhi]

lemma utf8DecodeFrom_utf8Point (hc : isScalar c) (rest : Bytes) :
    utf8DecodeFrom decodeStart (utf8Point c ++ rest) = c :: utf8DecodeFrom decodeStart rest := by
  have hlt := c.isLt
  simp only [isScalar, Bool.or_eq_true, decide_eq_true_eq] at hc
  have hback : ∀ n, n = c.val → (Fin.ofNat 0x110000 n : CodePoint) = c := by
    rintro n rfl
    ext
    simp only [Fin.val_ofNat]
    omega
  rw [utf8Point]
  split_ifs with h₁ h₂ h₃
  · -- one byte
    have h1 : (Fin.ofNat 256 c.val).val = c.val := by simp only [Fin.val_ofNat]; omega
    rw [cons_append, nil_append, utf8DecodeFrom_first, decodeFirst, h1,
      if_pos (by omega), hback _ rfl]
    rfl
  · -- two bytes
    generalize h1 : (Fin.ofNat 256 (0xC0 + c.val / 64)) = b₁
    generalize h2 : (Fin.ofNat 256 (0x80 + c.val % 64)) = b₂
    have e1 : b₁.val = 0xC0 + c.val / 64 := by rw [← h1, Fin.val_ofNat]; omega
    have e2 : b₂.val = 0x80 + c.val % 64 := by rw [← h2, Fin.val_ofNat]; omega
    have hd : decodeFirst b₁ = ([], ⟨b₁.val % 32, 1, 0x80, 0xBF⟩) := by
      rw [decodeFirst, if_neg (by omega), if_pos (by simp; omega)]
    rw [cons_append, cons_append, utf8DecodeFrom_first, hd, nil_append,
      utf8DecodeFrom_last (by omega) (by omega), hback _ (by omega), nil_append]
  · -- three bytes
    generalize h1 : (Fin.ofNat 256 (0xE0 + c.val / 4096)) = b₁
    generalize h2 : (Fin.ofNat 256 (0x80 + c.val / 64 % 64)) = b₂
    generalize h3 : (Fin.ofNat 256 (0x80 + c.val % 64)) = b₃
    have e1 : b₁.val = 0xE0 + c.val / 4096 := by rw [← h1, Fin.val_ofNat]; omega
    have e2 : b₂.val = 0x80 + c.val / 64 % 64 := by rw [← h2, Fin.val_ofNat]; omega
    have e3 : b₃.val = 0x80 + c.val % 64 := by rw [← h3, Fin.val_ofNat]; omega
    have hd : decodeFirst b₁ = ([], ⟨b₁.val % 16, 2, if b₁.val = 0xE0 then 0xA0 else 0x80,
        if b₁.val = 0xED then 0x9F else 0xBF⟩) := by
      rw [decodeFirst, if_neg (by omega), if_neg (by simp; omega), if_pos (by simp; omega)]
    rw [cons_append, cons_append, cons_append, utf8DecodeFrom_first, hd,
      nil_append, utf8DecodeFrom_more (by split_ifs <;> omega) (by split_ifs <;> omega),
      utf8DecodeFrom_last (by omega) (by omega), hback _ (by omega), nil_append]
  · -- four bytes
    generalize h1 : (Fin.ofNat 256 (0xF0 + c.val / 262144)) = b₁
    generalize h2 : (Fin.ofNat 256 (0x80 + c.val / 4096 % 64)) = b₂
    generalize h3 : (Fin.ofNat 256 (0x80 + c.val / 64 % 64)) = b₃
    generalize h4 : (Fin.ofNat 256 (0x80 + c.val % 64)) = b₄
    have e1 : b₁.val = 0xF0 + c.val / 262144 := by rw [← h1, Fin.val_ofNat]; omega
    have e2 : b₂.val = 0x80 + c.val / 4096 % 64 := by rw [← h2, Fin.val_ofNat]; omega
    have e3 : b₃.val = 0x80 + c.val / 64 % 64 := by rw [← h3, Fin.val_ofNat]; omega
    have e4 : b₄.val = 0x80 + c.val % 64 := by rw [← h4, Fin.val_ofNat]; omega
    have hd : decodeFirst b₁ = ([], ⟨b₁.val % 8, 3, if b₁.val = 0xF0 then 0x90 else 0x80,
        if b₁.val = 0xF4 then 0x8F else 0xBF⟩) := by
      rw [decodeFirst, if_neg (by omega), if_neg (by simp; omega), if_neg (by simp; omega),
        if_pos (by simp; omega)]
    rw [cons_append, cons_append, cons_append, cons_append,
      utf8DecodeFrom_first, hd, nil_append,
      utf8DecodeFrom_more (by split_ifs <;> omega) (by split_ifs <;> omega),
      utf8DecodeFrom_more (by omega) (by omega),
      utf8DecodeFrom_last (by omega) (by omega), hback _ (by omega), nil_append]

variable {cs : List CodePoint}

lemma utf8Decode_flatMap (h : ∀ c ∈ cs, isScalar c) : utf8Decode (cs.flatMap utf8Point) = cs := by
  rw [utf8Decode]
  induction cs with
  | nil => rfl
  | cons c cs ih =>
    rw [flatMap_cons, utf8DecodeFrom_utf8Point (h c (by simp)), ih fun c hc => h c (by simp [hc])]

def dropBom (s : Utf16) : Utf16 := if s.head? = some 0xFEFF then s.tail else s

lemma utf8Decode_utf8 (s : Utf16) : utf8Decode (utf8 s) = codePoints s :=
  utf8Decode_flatMap fun _ hc => isScalar_of_mem_codePoints hc

lemma decodeText_cons_utf8 (h : wellFormed s) (hb : b < 0x80) :
    decodeText (b :: utf8 s) = Fin.ofNat _ b.val :: s := by
  have hb' : b.val < 0x80 := hb
  have hdec : utf8Decode (b :: utf8 s) = Fin.ofNat _ b.val :: codePoints s := by
    rw [utf8Decode, utf8DecodeFrom_first, decodeFirst, if_pos (show b.val ≤ 0x7F by omega),
      singleton_append]
    exact congrArg _ (utf8Decode_utf8 s)
  have hne : (Fin.ofNat 0x110000 b.val) ≠ 0xFEFF := by
    rw [Ne, Fin.ext_iff, Fin.val_ofNat]
    omega
  have hunit : pointUnits (Fin.ofNat 0x110000 b.val) = [Fin.ofNat _ b.val] := by
    rw [pointUnits, Fin.val_ofNat, Nat.mod_eq_of_lt (by omega), if_pos (by omega)]
  simp only [decodeText, hdec, List.head?_cons, Option.some.injEq, hne, if_false,
    flatMap_cons, hunit, flatMap_pointUnits_codePoints h, singleton_append]

lemma wellFormed_of_replacement_notMem (h : replacement ∉ codePoints s) : wellFormed s := by
  have hunit : ∀ u : CodeUnit, replacement ≠ unitPoint u → isSurrogate u = false := fun u hu => by
    rw [← Bool.not_eq_true]
    exact fun hs => hu (by rw [unitPoint, if_pos hs])
  induction s using codePoints.induct with
  | case1 => rfl
  | case2 u =>
    simp only [codePoints, mem_singleton] at h
    simp [wellFormed, hunit u h]
  | case3 u v rest hpair ih =>
    simp only [codePoints, if_pos hpair, mem_cons, not_or] at h
    simpa [wellFormed, hpair] using ih h.2
  | case4 u v rest hpair ih =>
    simp only [codePoints, if_neg hpair, mem_cons, not_or] at h
    simpa [wellFormed, hpair, hunit u h.1] using ih h.2

lemma eq_of_utf8_eq {s t : Utf16} (h : replacement ∉ codePoints s) (heq : utf8 s = utf8 t) : s = t := by
  have hpoints : codePoints s = codePoints t := utf8Point_orderedCode.flatMap_injective heq
  exact (codePoints_inj (wellFormed_of_replacement_notMem h)
    (wellFormed_of_replacement_notMem (hpoints ▸ h))).1 hpoints

lemma decodeText_utf8 (h : wellFormed s) : decodeText (utf8 s) = dropBom s := by
  have hdec := utf8Decode_utf8 s
  have hs := flatMap_pointUnits_codePoints h
  simp only [decodeText, hdec, dropBom]
  rcases hcs : codePoints s with _ | ⟨c, cs⟩
  · rw [hcs] at hs
    simp [← hs]
  · rw [hcs, flatMap_cons] at hs
    by_cases hc : c = 0xFEFF
    · have hu : pointUnits c = [0xFEFF] := by subst hc; decide
      rw [hu] at hs
      simp [hc, ← hs]
    · have hu : s.head? ≠ some 0xFEFF := by
        rw [← hs, pointUnits]
        split_ifs with hlt
        · simp only [cons_append, List.head?_cons, ne_eq, Option.some.injEq, Fin.ext_iff,
            Fin.val_ofNat] at hc ⊢
          omega
        · have := c.isLt
          simp only [cons_append, List.head?_cons, ne_eq, Option.some.injEq, Fin.ext_iff, Fin.val_ofNat]
          omega
      rw [if_neg (by simpa using hc), if_neg hu, flatMap_cons, hs]

lemma wellFormed_pointUnits_append (hc : isScalar c) (s : Utf16) :
    wellFormed (pointUnits c ++ s) = wellFormed s := by
  simp only [isScalar, Bool.or_eq_true, decide_eq_true_eq] at hc
  rw [pointUnits]
  split_ifs with hsmall
  · have hu : isSurrogate (Fin.ofNat _ c.val) = false := by
      rw [isSurrogate, Fin.val_ofNat, Nat.mod_eq_of_lt hsmall]
      simp only [Bool.and_eq_false_iff, decide_eq_false_iff_not]
      omega
    have hh : isHighSurrogate (Fin.ofNat _ c.val) = false := by
      rw [isHighSurrogate, Fin.val_ofNat, Nat.mod_eq_of_lt hsmall]
      simp only [Bool.and_eq_false_iff, decide_eq_false_iff_not]
      omega
    generalize (Fin.ofNat 0x10000 c.val) = u at hu hh
    cases s with
    | nil => simp [wellFormed, hu]
    | cons v s => simp [wellFormed, hu, hh]
  · have hhigh : isHighSurrogate (Fin.ofNat _ (0xD800 + (c.val - 0x10000) / 0x400)) = true := by
      rw [isHighSurrogate, Fin.val_ofNat, Nat.mod_eq_of_lt (by omega)]
      simp only [Bool.and_eq_true, decide_eq_true_eq]
      omega
    have hlow : isLowSurrogate (Fin.ofNat _ (0xDC00 + (c.val - 0x10000) % 0x400)) = true := by
      rw [isLowSurrogate, Fin.val_ofNat, Nat.mod_eq_of_lt (by omega)]
      simp only [Bool.and_eq_true, decide_eq_true_eq]
      omega
    rw [cons_append, cons_append, wellFormed, if_pos (by rw [hhigh, hlow]; rfl)]
    rfl

lemma wellFormed_flatMap_pointUnits (h : ∀ c ∈ cs, isScalar c) : wellFormed (cs.flatMap pointUnits) := by
  induction cs with
  | nil => rfl
  | cons c cs ih =>
    rw [flatMap_cons, wellFormed_pointUnits_append (h c (by simp))]
    exact ih fun c hc => h c (by simp [hc])

/-- Decoding undoes encoding exactly for strings without a lone surrogate and without a leading
byte order mark. -/
theorem decodeText_utf8_iff : decodeText (utf8 s) = s ↔ wellFormed s = true ∧ s.head? ≠ some 0xFEFF := by
  constructor
  · intro h
    have hscalar : ∀ c ∈ codePoints s, isScalar c := fun c hc => isScalar_of_mem_codePoints hc
    have hwell : wellFormed (decodeText (utf8 s)) := by
      simp only [decodeText, utf8Decode_utf8]
      split_ifs
      · exact wellFormed_flatMap_pointUnits fun c hc => hscalar c (mem_of_mem_tail hc)
      · exact wellFormed_flatMap_pointUnits hscalar
    rw [h] at hwell
    refine ⟨hwell, fun hbom => ?_⟩
    rw [decodeText_utf8 hwell, dropBom, if_pos hbom] at h
    have hlen := congrArg List.length h
    rw [length_tail] at hlen
    rcases s with _ | ⟨u, s⟩
    · exact absurd hbom (by simp)
    · rw [length_cons] at hlen
      omega
  · rintro ⟨hwell, hbom⟩
    rw [decodeText_utf8 hwell, dropBom, if_neg hbom]

lemma wellFormed_of_forall (h : ∀ u ∈ s, isSurrogate u = false) : wellFormed s = true := by
  induction s with
  | nil => rfl
  | cons u s ih =>
    have hu := h u mem_cons_self
    have hrest := ih fun v hv => h v (mem_cons_of_mem _ hv)
    cases s with
    | nil => simp [wellFormed, hu]
    | cons v s =>
      have hhigh : isHighSurrogate u = false := by
        unfold isSurrogate at hu
        unfold isHighSurrogate
        simp only [Bool.and_eq_false_iff, decide_eq_false_iff_not] at hu ⊢
        omega
      simp [wellFormed, hu, hhigh, hrest]

lemma wellFormed_append {t : Utf16} (hs : wellFormed s) (ht : wellFormed t) : wellFormed (s ++ t) := by
  rw [← flatMap_pointUnits_codePoints hs, ← flatMap_pointUnits_codePoints ht, ← flatMap_append]
  exact wellFormed_flatMap_pointUnits fun c hc =>
    (mem_append.1 hc).elim isScalar_of_mem_codePoints isScalar_of_mem_codePoints

/-! ## Ends of lines -/

/-- A decoder stands inside a code point that is not ASCII. -/
def Inside (σ : DecodeState) : Prop :=
  σ.needed = 0 ∨ 0x80 ≤ σ.lower ∧ ∀ n, σ.lower ≤ n → n ≤ σ.upper →
    0x80 ≤ (σ.bits * 64 + n % 64) * 64 ^ (σ.needed - 1) ∧
      (σ.bits * 64 + n % 64 + 1) * 64 ^ (σ.needed - 1) ≤ 0x110000

variable {σ : DecodeState}

lemma inside_decodeFirst (b : Byte) : Inside (decodeFirst b).2 := by
  unfold decodeFirst
  dsimp only
  split_ifs <;> simp only [Bool.and_eq_true, decide_eq_true_eq] at * <;>
    first
    | exact .inl rfl
    | refine .inr ⟨by dsimp only; omega, fun n hlo hhi => ?_⟩
      dsimp only at hlo hhi ⊢
      omega

lemma count_decodeFirst (b : Byte) : (decodeFirst b).1.count 0x0A = [b].count 0x0A := by
  revert b
  decide +kernel

lemma decodeByte_inside (h : Inside σ) (b : Byte) :
    Inside (decodeByte σ b).2 ∧ (decodeByte σ b).1.count 0x0A = [b].count 0x0A := by
  rw [decodeByte]
  by_cases hnone : σ.needed = 0
  · rw [if_pos hnone]
    exact ⟨inside_decodeFirst b, count_decodeFirst b⟩
  by_cases hrange : (decide (σ.lower ≤ b.val) && decide (b.val ≤ σ.upper)) = true
  · rw [if_neg hnone, if_pos hrange]
    obtain ⟨hlo, hhi⟩ := Bool.and_eq_true_iff.1 hrange
    obtain ⟨hlower, h⟩ := h.resolve_left hnone
    obtain ⟨hleast, hmost⟩ := h b.val (of_decide_eq_true hlo) (of_decide_eq_true hhi)
    have hb : [b].count 0x0A = 0 := by
      rw [count_singleton, if_neg]
      intro heq
      rw [eq_of_beq heq] at hlo
      exact absurd (hlower.trans (of_decide_eq_true hlo)) (by decide)
    dsimp only
    rw [hb]
    by_cases hone : σ.needed = 1
    · rw [hone, Nat.sub_self, pow_zero, Nat.mul_one] at hleast hmost
      rw [if_pos hone]
      refine ⟨.inl rfl, ?_⟩
      rw [count_singleton, if_neg]
      intro heq
      have hval := congrArg Fin.val (eq_of_beq heq)
      rw [Fin.val_ofNat, Nat.mod_eq_of_lt (by omega)] at hval
      rw [hval] at hleast
      exact absurd hleast (by decide)
    · rw [if_neg hone]
      refine ⟨.inr ⟨le_rfl, fun n hn hn' => ?_⟩, rfl⟩
      obtain ⟨m, hm⟩ : ∃ m, σ.needed = m + 2 := ⟨σ.needed - 2, by omega⟩
      rw [hm, show m + 2 - 1 = m + 1 from rfl, pow_succ', ← mul_assoc] at hleast hmost
      dsimp only at hn hn' ⊢
      rw [hm, show m + 2 - 1 - 1 = m from rfl]
      exact ⟨hleast.trans (Nat.mul_le_mul_right _ (Nat.le_add_right _ _)),
        (Nat.mul_le_mul_right _ (by omega)).trans hmost⟩
  · rw [if_neg hnone, if_neg hrange]
    refine ⟨inside_decodeFirst b, ?_⟩
    dsimp only
    rw [count_cons, count_decodeFirst]
    rfl

lemma decodeByte_newline (h : Inside σ) : ∃ points, decodeByte σ 0x0A = (points ++ [0x0A], decodeStart) := by
  rw [decodeByte]
  by_cases hnone : σ.needed = 0
  · rw [if_pos hnone]
    exact ⟨[], rfl⟩
  · have hlower := (h.resolve_left hnone).1
    rw [if_neg hnone, if_neg]
    · exact ⟨[replacement], rfl⟩
    · rw [Bool.and_eq_true, decide_eq_true_eq]
      exact fun hrange => absurd (hlower.trans hrange.1) (by decide)

lemma count_utf8DecodeFrom (h : Inside σ) (chunk : Bytes) :
    (utf8DecodeFrom σ chunk).count 0x0A = chunk.count 0x0A := by
  induction chunk generalizing σ with
  | nil =>
    rw [utf8DecodeFrom]
    split_ifs <;> rfl
  | cons b chunk ih =>
    obtain ⟨hnext, hcount⟩ := decodeByte_inside h b
    rw [utf8DecodeFrom, count_append, ih hnext, hcount, count_singleton, count_cons, Nat.add_comm]

lemma utf8DecodeFrom_concat (h : Inside σ) (chunk : Bytes) :
    ∃ points, utf8DecodeFrom σ (chunk ++ [0x0A]) = points ++ [0x0A] := by
  induction chunk generalizing σ with
  | nil =>
    obtain ⟨points, hpoints⟩ := decodeByte_newline h
    refine ⟨points, ?_⟩
    rw [nil_append, utf8DecodeFrom, hpoints]
    exact append_nil _
  | cons b chunk ih =>
    obtain ⟨points, hpoints⟩ := ih (decodeByte_inside h b).1
    exact ⟨(decodeByte σ b).1 ++ points, by rw [cons_append, utf8DecodeFrom, hpoints, append_assoc]⟩

lemma count_pointUnits (c : CodePoint) : (pointUnits c).count 0x0A = [c].count 0x0A := by
  have hc := c.isLt
  have hunit : ∀ n, (n < 0x10000) → ((Fin.ofNat 0x10000 n == 0x0A) = true ↔ n = 0x0A) := by
    intro n hn
    rw [beq_iff_eq, Fin.ext_iff, Fin.val_ofNat, Nat.mod_eq_of_lt hn]
    rfl
  have hpoint : (c == 0x0A) = true ↔ c.val = 0x0A := by
    rw [beq_iff_eq, Fin.ext_iff]
    rfl
  rw [pointUnits]
  split_ifs with hsmall
  · rw [count_singleton, count_singleton]
    simp only [hunit _ hsmall, hpoint]
  · rw [count_cons, count_singleton, count_singleton]
    simp only [hunit _ (show 0xD800 + (c.val - 0x10000) / 0x400 < 0x10000 by omega),
      hunit _ (show 0xDC00 + (c.val - 0x10000) % 0x400 < 0x10000 by omega), hpoint]
    rw [if_neg (by omega), if_neg (by omega), if_neg (by omega)]

end Zelavis.Lib
