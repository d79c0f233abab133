import Mathlib.Data.Nat.Digits.Lemmas
import Mathlib.Tactic.IntervalCases
import Zelavis.Db.Decoders

/-!
# Fingerprints of requests

`canonical` of `documents.ts` writes a request as JSON with the members of every object in the order
of their names, and a fingerprint is a digest of that text.
-/

namespace Zelavis.Db

open Lib List

/-! ## Strings -/

def unescaped (u : CodeUnit) (rest : Utf16) : Option (CodeUnit × Utf16) :=
  if u = 0x62 then some (0x08, rest)
  else if u = 0x74 then some (0x09, rest)
  else if u = 0x6E then some (0x0A, rest)
  else if u = 0x66 then some (0x0C, rest)
  else if u = 0x72 then some (0x0D, rest)
  else if u = 0x75 then
    match rest with
    | a :: b :: c :: d :: rest => some (Fin.ofNat _ (digitValue a * 4096 + digitValue b * 256 +
        digitValue c * 16 + digitValue d), rest)
    | _ => none
  else some (u, rest)

def unescape : Utf16 → Option (CodeUnit × Utf16)
  | [] => none
  | u :: rest =>
    if u = 0x5C then rest.head?.bind fun v => unescaped v rest.tail
    else some (u, rest)

/-- A string read off its text up to the quote that ends it, and the text after that. -/
def unquote : ℕ → Utf16 → Option (Utf16 × Utf16)
  | 0, _ => none
  | fuel + 1, text =>
    if text.head? = some 0x22 then some ([], text.tail)
    else (unescape text).bind fun read => (unquote fuel read.2).map fun s => (read.1 :: s.1, s.2)

def StandsFor (text : Utf16) (u : CodeUnit) : Prop :=
  ∀ r, (text ++ r).head? ≠ some 0x22 ∧ unescape (text ++ r) = some (u, r)

variable {u : CodeUnit}

lemma standsFor_self (hquote : u ≠ 0x22) (hslash : u ≠ 0x5C) : StandsFor [u] u := by
  intro r
  refine ⟨fun h => hquote (Option.some.inj h), ?_⟩
  show unescape (u :: r) = some (u, r)
  rw [unescape, if_neg hslash]

lemma standsFor_unicodeEscape (u : CodeUnit) : StandsFor (unicodeEscape u) u := by
  intro r
  refine ⟨fun h => ?_, ?_⟩
  · exact absurd (Option.some.inj h) (by decide)
  · have htext : unicodeEscape u ++ r = 0x5C :: 0x75 :: hexDigit (u.val / 4096) ::
        hexDigit (u.val / 256 % 16) :: hexDigit (u.val / 16 % 16) :: hexDigit (u.val % 16) :: r := rfl
    rw [htext, unescape, if_pos rfl]
    show unescaped 0x75 _ = _
    have hvalue : digitValue (hexDigit (u.val / 4096)) * 4096 +
        digitValue (hexDigit (u.val / 256 % 16)) * 256 +
        digitValue (hexDigit (u.val / 16 % 16)) * 16 + digitValue (hexDigit (u.val % 16)) = u.val := by
      rw [digitValue_hexDigit _ (by omega), digitValue_hexDigit _ (by omega),
        digitValue_hexDigit _ (by omega), digitValue_hexDigit _ (by omega)]
      omega
    have hu' : Fin.ofNat 65536 u.val = u := Fin.ofNat_val_eq_self u
    unfold unescaped
    show some (Fin.ofNat 65536 _, r) = _
    rw [hvalue, hu']

lemma standsFor_quoteUnit (u : CodeUnit) : StandsFor (quoteUnit u) u := by
  have hshort : ∀ {v w : CodeUnit}, unescaped v = (fun rest => some (w, rest)) → StandsFor [0x5C, v] w := by
    intro v w hv r
    refine ⟨fun h => absurd (Option.some.inj h) (by decide), ?_⟩
    show unescape (0x5C :: v :: r) = some (w, r)
    exact congrFun hv r
  unfold quoteUnit
  split_ifs with h₁ h₂ h₃ h₄ h₅ h₆ h₇ h₈
  · subst h₁
    exact hshort rfl
  · subst h₂
    exact hshort rfl
  · subst h₃
    exact hshort rfl
  · subst h₄
    exact hshort rfl
  · subst h₅
    exact hshort rfl
  · subst h₆
    exact hshort rfl
  · subst h₇
    exact hshort rfl
  · exact standsFor_unicodeEscape u
  · exact standsFor_self h₆ h₇

lemma unquote_of_standsFor {text : Utf16} (h : StandsFor text u) {fuel : ℕ}
    {r s r' : Utf16} (hrest : unquote fuel r = some (s, r')) :
    unquote (fuel + 1) (text ++ r) = some (u :: s, r') := by
  obtain ⟨hhead, hread⟩ := h r
  rw [unquote, if_neg hhead, hread, Option.bind_some, hrest, Option.map_some]

lemma ne_of_surrogate (h : 0xD800 ≤ u.val) : u ≠ 0x22 ∧ u ≠ 0x5C := by
  constructor
  · rintro rfl
    exact absurd h (by decide)
  · rintro rfl
    exact absurd h (by decide)

lemma unquote_end (fuel : ℕ) (r : Utf16) : unquote (fuel + 1) (0x22 :: r) = some ([], r) := by
  exact if_pos rfl

lemma unquote_quoteUnits (s r : Utf16) (k : ℕ) :
    unquote (k + s.length + 1) (quoteUnits s ++ 0x22 :: r) = some (s, r) := by
  have hunit : ∀ u : CodeUnit, StandsFor
      (if isHighSurrogate u || isLowSurrogate u then unicodeEscape u else quoteUnit u) u := by
    intro u
    split_ifs
    · exact standsFor_unicodeEscape u
    · exact standsFor_quoteUnit u
  fun_induction quoteUnits s with
  | case1 => exact unquote_end k r
  | case2 u hsurrogate =>
    have hu := hunit u
    rw [if_pos hsurrogate] at hu
    exact unquote_of_standsFor hu (unquote_end k r)
  | case3 u hplain =>
    have hu := hunit u
    rw [if_neg hplain] at hu
    exact unquote_of_standsFor hu (unquote_end k r)
  | case4 u v rest hpair ih =>
    obtain ⟨hhigh, hlow⟩ := (Bool.and_eq_true _ _).mp hpair
    unfold isHighSurrogate at hhigh
    unfold isLowSurrogate at hlow
    simp only [Bool.and_eq_true, decide_eq_true_eq] at hhigh hlow
    -- the two halves stand for themselves, one after the other
    have hu := ne_of_surrogate hhigh.1
    have hv := ne_of_surrogate (Nat.le_trans (by decide) hlow.1)
    have hrest := unquote_of_standsFor (standsFor_self hv.1 hv.2) ih
    exact unquote_of_standsFor (standsFor_self hu.1 hu.2) hrest
  | case5 u v rest hpair ih =>
    rw [append_assoc]
    exact unquote_of_standsFor (hunit u) ih

lemma quote_inj {s s' r r' : Utf16} (h : quote s ++ r = quote s' ++ r') : s = s' ∧ r = r' := by
  have htext : ∀ s r : Utf16, quote s ++ r = 0x22 :: (quoteUnits s ++ 0x22 :: r) := by
    intro s r
    show ([0x22] ++ quoteUnits s ++ [0x22]) ++ r = _
    simp
  rw [htext, htext] at h
  have hread := unquote_quoteUnits s r s'.length
  rw [(List.cons.inj h).2, Nat.add_comm s'.length, unquote_quoteUnits] at hread
  cases hread
  exact ⟨rfl, rfl⟩

/-! ## Numbers -/

def isNumberPart (u : CodeUnit) : Bool :=
  u ∈ utf16 "0123456789" || u ∈ utf16 "+-.e"

/-- How `JSON.stringify` spells the numbers that are finite: by digits, and no two alike. -/
structure Spelling (digits : JsNumber → Utf16) : Prop where
  ne_nil : ∀ n : JsNumber, n.isFinite = true → digits n.normal ≠ []
  part : ∀ n : JsNumber, n.isFinite = true → ∀ u ∈ digits n.normal, isNumberPart u = true
  inj : ∀ n m : JsNumber, n.isFinite = true → m.isFinite = true →
    digits n.normal = digits m.normal → n.normal = m.normal

def Stops (r : Utf16) : Prop := ∀ u ∈ r.head?, isNumberPart u = false

lemma append_inj_of_stops {a b r r' : Utf16} (ha : ∀ u ∈ a, isNumberPart u = true)
    (hb : ∀ u ∈ b, isNumberPart u = true) (hr : Stops r) (hr' : Stops r')
    (h : a ++ r = b ++ r') : a = b ∧ r = r' := by
  induction a generalizing b with
  | nil =>
    cases b with
    | nil => exact ⟨rfl, h⟩
    | cons v b =>
      rw [nil_append] at h
      have hv := hr v (by rw [h]; rfl)
      rw [hb v mem_cons_self] at hv
      cases hv
  | cons u a ih =>
    cases b with
    | nil =>
      rw [nil_append] at h
      have hu := hr' u (by rw [← h]; rfl)
      rw [ha u mem_cons_self] at hu
      cases hu
    | cons v b =>
      obtain ⟨rfl, htail⟩ := List.cons.inj h
      obtain ⟨rfl, hrest⟩ := ih (fun w hw => ha w (mem_cons_of_mem _ hw))
        (fun w hw => hb w (mem_cons_of_mem _ hw)) htail
      exact ⟨rfl, hrest⟩

/-! ## Values -/

/-- What a text's first unit says of the value. -/
inductive JsonShape where
  | null
  | yes
  | no
  | number
  | string
  | array
  | object
  deriving DecidableEq

def Json.shape : Json → JsonShape
  | .scalar .null => .null
  | .scalar (.boolean true) => .yes
  | .scalar (.boolean false) => .no
  | .scalar (.number n) => if n.isFinite then .number else .null
  | .scalar (.string _) => .string
  | .array _ => .array
  | .object _ => .object

def shapeAt (u : CodeUnit) : Option JsonShape :=
  if isNumberPart u then some .number
  else if u = 0x6E then some .null
  else if u = 0x74 then some .yes
  else if u = 0x66 then some .no
  else if u = 0x22 then some .string
  else if u = 0x5B then some .array
  else if u = 0x7B then some .object
  else none

variable {v w : Json} {r r' : Utf16}

section

variable {digits : JsNumber → Utf16}

lemma shape_number (n : JsNumber) :
    (Json.scalar (.number n)).shape = if n.isFinite = true then .number else .null := rfl

lemma stringify_number (n : JsNumber) : stringify digits (.scalar (.number n)) =
    if n.isFinite = true then digits n.normal else utf16 "null" := by rw [stringify]

def JsonShape.Of (digits : JsNumber → Utf16) (v : Json) : JsonShape → Prop
  | .null => reread v = .null ∧ stringify digits v = utf16 "null"
  | .yes => v = .scalar (.boolean true)
  | .no => v = .scalar (.boolean false)
  | .number => ∃ n : JsNumber, n.isFinite = true ∧ v = .scalar (.number n)
  | .string => ∃ s, v = .string s
  | .array => ∃ items, v = .array items
  | .object => ∃ members, v = .object members

variable (digits) in
lemma Json.of_shape (v : Json) : v.shape.Of digits v := by
  cases v with
  | array items => exact ⟨items, rfl⟩
  | object members => exact ⟨members, rfl⟩
  | scalar s =>
    cases s with
    | null => exact ⟨rfl, by rw [stringify]⟩
    | boolean b => cases b <;> rfl
    | string s => exact ⟨s, rfl⟩
    | number n =>
      rw [shape_number]
      split_ifs with hn
      · exact ⟨n, hn, rfl⟩
      · refine ⟨?_, by rw [stringify_number, if_neg hn]⟩
        rw [reread, jsonScalar, if_neg hn]

lemma shape_scalar (s : OrderedScalar) :
    (Json.scalar s).shape ≠ .array ∧ (Json.scalar s).shape ≠ .object := by
  have h := Json.of_shape (fun _ => []) (.scalar s)
  constructor
  · intro hshape
    rw [hshape] at h
    obtain ⟨items, heq⟩ := h
    cases heq
  · intro hshape
    rw [hshape] at h
    obtain ⟨members, heq⟩ := h
    cases heq

lemma shapeAt_stringify (hdigits : Spelling digits) (v : Json) (r : Utf16) :
    (stringify digits v ++ r).head?.bind shapeAt = some v.shape := by
  cases v with
  | scalar s =>
    cases s with
    | null => rfl
    | boolean b => cases b <;> rfl
    | string s => rfl
    | number n =>
      by_cases hn : n.isFinite = true
      · rw [stringify_number, shape_number, if_pos hn, if_pos hn]
        cases htext : digits n.normal with
        | nil => exact absurd htext (hdigits.ne_nil n hn)
        | cons u rest =>
          have hu := hdigits.part n hn u (by rw [htext]; exact mem_cons_self)
          show shapeAt u = _
          unfold shapeAt
          rw [if_pos hu]
      · rw [stringify_number, shape_number, if_neg hn, if_neg hn]
        rfl
  | array | object =>
    rfl

lemma shape_eq (hdigits : Spelling digits)
    (h : stringify digits v ++ r = stringify digits w ++ r') : v.shape = w.shape := by
  have hv := shapeAt_stringify hdigits v r
  rw [h, shapeAt_stringify hdigits w r'] at hv
  exact (Option.some.inj hv).symm

lemma stringify_ne (hdigits : Spelling digits) {v : Json}
    (hu : shapeAt u = none) : stringify digits v ++ r ≠ u :: r' := by
  intro h
  have hv := shapeAt_stringify hdigits v r
  rw [h] at hv
  rw [List.head?_cons, Option.bind_some, hu] at hv
  cases hv

def tailItems (digits : JsNumber → Utf16) : List Json → Utf16
  | [] => utf16 "]"
  | v :: rest => utf16 "," ++ (stringify digits v ++ tailItems digits rest)

def tailMembers (digits : JsNumber → Utf16) : List (Utf16 × Json) → Utf16
  | [] => utf16 "\x7d"
  | (k, v) :: rest =>
    utf16 "," ++ (quote k ++ (utf16 ":" ++ (stringify digits v ++ tailMembers digits rest)))

lemma stringifyItems_cons (v : Json) (rest : List Json) :
    stringifyItems digits (v :: rest) ++ utf16 "]" = stringify digits v ++ tailItems digits rest := by
  induction rest generalizing v with
  | nil => rfl
  | cons w rest ih =>
    rw [stringifyItems, tailItems, append_assoc, append_assoc, ih]
    exact cons_ne_nil _ _

lemma stringifyMembers_cons (k : Utf16) (v : Json) (rest : List (Utf16 × Json)) :
    stringifyMembers digits ((k, v) :: rest) ++ utf16 "\x7d" =
      quote k ++ (utf16 ":" ++ (stringify digits v ++ tailMembers digits rest)) := by
  induction rest generalizing k v with
  | nil =>
    rw [stringifyMembers, tailMembers]
    simp
  | cons m rest ih =>
    obtain ⟨k', v'⟩ := m
    rw [stringifyMembers, tailMembers]
    · simp only [append_assoc]
      rw [ih]
    · exact cons_ne_nil _ _

lemma stringify_array (items : List Json) (r : Utf16) : stringify digits (.array items) ++ r =
    0x5B :: (stringifyItems digits items ++ utf16 "]" ++ r) := by
  rw [stringify]
  rfl

lemma stringify_object (members : List (Utf16 × Json)) (r : Utf16) :
    stringify digits (.object members) ++ r =
      0x7B :: (stringifyMembers digits members ++ utf16 "\x7d" ++ r) := by
  rw [stringify]
  rfl

lemma stops_tailItems (items : List Json) (r : Utf16) : Stops (tailItems digits items ++ r) := by
  intro u hu
  cases items with
  | nil | cons =>
    cases hu
    decide

lemma stops_tailMembers (members : List (Utf16 × Json)) (r : Utf16) :
    Stops (tailMembers digits members ++ r) := by
  intro u hu
  cases members with
  | nil | cons =>
    cases hu
    decide

lemma JsonShape.of_inj (hdigits : Spelling digits) {shape : JsonShape}
    (hshape : shape ≠ .array ∧ shape ≠ .object) (hv : shape.Of digits v) (hw : shape.Of digits w)
    (hr : Stops r) (hr' : Stops r') (h : stringify digits v ++ r = stringify digits w ++ r') :
    reread v = reread w ∧ r = r' := by
  cases shape with
  | null =>
    rw [hv.2, hw.2] at h
    exact ⟨hv.1.trans hw.1.symm, append_cancel_left h⟩
  | yes | no =>
    obtain rfl : v = _ := hv
    obtain rfl : w = _ := hw
    exact ⟨rfl, append_cancel_left h⟩
  | number =>
    obtain ⟨n, hn, rfl⟩ := hv
    obtain ⟨m, hm, rfl⟩ := hw
    rw [stringify_number, stringify_number, if_pos hn, if_pos hm] at h
    obtain ⟨htext, hrest⟩ := append_inj_of_stops (hdigits.part n hn) (hdigits.part m hm) hr hr' h
    refine ⟨?_, hrest⟩
    rw [reread, reread, jsonScalar, jsonScalar, if_pos hn, if_pos hm, hdigits.inj n m hn hm htext]
  | string =>
    obtain ⟨s, rfl⟩ := hv
    obtain ⟨s', rfl⟩ := hw
    obtain ⟨rfl, hrest⟩ := quote_inj h
    exact ⟨rfl, hrest⟩
  | array => exact absurd rfl hshape.1
  | object => exact absurd rfl hshape.2

mutual

lemma stringify_append_inj (hdigits : Spelling digits) : ∀ (v w : Json) {r r' : Utf16},
    Stops r → Stops r' → stringify digits v ++ r = stringify digits w ++ r' → reread v = reread w ∧ r = r'
  | .scalar s, w, r, r', hr, hr', h => by
    have hv := Json.of_shape digits (.scalar s)
    have hw := Json.of_shape digits w
    rw [← shape_eq hdigits h] at hw
    exact JsonShape.of_inj hdigits (shape_scalar s) hv hw hr hr' h
  | .array [], w, r, r', hr, hr', h => by
    have hw := Json.of_shape digits w
    rw [← shape_eq hdigits h] at hw
    obtain ⟨items', rfl⟩ := hw
    rw [stringify_array, stringify_array] at h
    replace h := (List.cons.inj h).2
    cases items' with
    | nil => exact ⟨rfl, (List.cons.inj h).2⟩
    | cons w rest' =>
      rw [stringifyItems_cons, append_assoc (stringify digits w)] at h
      have hne : stringify digits w ++ (tailItems digits rest' ++ r') ≠ 0x5D :: r :=
        stringify_ne hdigits (by decide)
      exact absurd h.symm hne
  | .array (v :: rest), w, r, r', hr, hr', h => by
    have hw := Json.of_shape digits w
    rw [← shape_eq hdigits h] at hw
    obtain ⟨items', rfl⟩ := hw
    rw [stringify_array, stringify_array] at h
    replace h := (List.cons.inj h).2
    rw [stringifyItems_cons, append_assoc] at h
    cases items' with
    | nil => exact absurd h (stringify_ne hdigits (u := 0x5D) (by decide))
    | cons w rest' =>
      rw [stringifyItems_cons, append_assoc] at h
      obtain ⟨hv, hrest⟩ := stringify_append_inj hdigits v w (stops_tailItems rest r)
        (stops_tailItems rest' r') h
      obtain ⟨hitems, hr⟩ := tailItems_append_inj hdigits rest rest' hrest
      exact ⟨by rw [reread, reread, rereadItems, rereadItems, hv, hitems], hr⟩
  | .object [], w, r, r', hr, hr', h => by
    have hw := Json.of_shape digits w
    rw [← shape_eq hdigits h] at hw
    obtain ⟨members', rfl⟩ := hw
    rw [stringify_object, stringify_object] at h
    replace h := (List.cons.inj h).2
    cases members' with
    | nil => exact ⟨rfl, (List.cons.inj h).2⟩
    | cons m rest' =>
      rw [stringifyMembers_cons] at h
      exact absurd (List.cons.inj h).1 (by decide)
  | .object ((k, v) :: rest), w, r, r', hr, hr', h => by
    have hw := Json.of_shape digits w
    rw [← shape_eq hdigits h] at hw
    obtain ⟨members', rfl⟩ := hw
    rw [stringify_object, stringify_object] at h
    replace h := (List.cons.inj h).2
    rw [stringifyMembers_cons] at h
    cases members' with
    | nil => exact absurd (List.cons.inj h).1 (by decide)
    | cons m rest' =>
      obtain ⟨k', w⟩ := m
      rw [stringifyMembers_cons] at h
      simp only [append_assoc] at h
      obtain ⟨rfl, hafter⟩ := quote_inj h
      obtain ⟨hv, hrest⟩ := stringify_append_inj hdigits v w (stops_tailMembers rest r)
        (stops_tailMembers rest' r') (append_cancel_left hafter)
      obtain ⟨hmembers, hr⟩ := tailMembers_append_inj hdigits rest rest' hrest
      exact ⟨by rw [reread, reread, rereadMembers, rereadMembers, hv, hmembers], hr⟩

lemma tailItems_append_inj (hdigits : Spelling digits) : ∀ (items items' : List Json)
    {r r' : Utf16}, tailItems digits items ++ r = tailItems digits items' ++ r' →
      rereadItems items = rereadItems items' ∧ r = r'
  | [], [], r, r', h => ⟨rfl, (List.cons.inj h).2⟩
  | [], w :: rest, r, r', h => by cases h
  | v :: rest, [], r, r', h => by cases h
  | v :: rest, w :: rest', r, r', h => by
    rw [tailItems, tailItems] at h
    simp only [append_assoc, append_cancel_left_eq] at h
    obtain ⟨hv, hrest⟩ := stringify_append_inj hdigits v w (stops_tailItems rest r)
      (stops_tailItems rest' r') h
    obtain ⟨hitems, hr⟩ := tailItems_append_inj hdigits rest rest' hrest
    exact ⟨by rw [rereadItems, rereadItems, hv, hitems], hr⟩

lemma tailMembers_append_inj (hdigits : Spelling digits) : ∀ (members members' : List (Utf16 × Json))
    {r r' : Utf16}, tailMembers digits members ++ r = tailMembers digits members' ++ r' →
      rereadMembers members = rereadMembers members' ∧ r = r'
  | [], [], r, r', h => ⟨rfl, (List.cons.inj h).2⟩
  | [], w :: rest, r, r', h => by cases h
  | v :: rest, [], r, r', h => by cases h
  | (k, v) :: rest, (k', w) :: rest', r, r', h => by
    rw [tailMembers, tailMembers] at h
    simp only [append_assoc, append_cancel_left_eq] at h
    obtain ⟨rfl, hafter⟩ := quote_inj h
    obtain ⟨hv, hrest⟩ := stringify_append_inj hdigits v w (stops_tailMembers rest r)
      (stops_tailMembers rest' r') (append_cancel_left hafter)
    obtain ⟨hmembers, hr⟩ := tailMembers_append_inj hdigits rest rest' hrest
    exact ⟨by rw [rereadMembers, rereadMembers, hv, hmembers], hr⟩

end

lemma stringify_inj (hdigits : Spelling digits)
    (h : stringify digits v = stringify digits w) : reread v = reread w := by
  have hstops : Stops [] := fun u hu => by cases hu
  exact (stringify_append_inj hdigits v w hstops hstops (by rw [h])).1

end

/-! ## Canonical texts -/

mutual

def sortKeys : Json → Json
  | .scalar v => .scalar v
  | .array items => .array (sortItems items)
  | .object members => .object ((sortMembers members).insertionSort fun m m' => m.1 ≤ m'.1)

def sortItems : List Json → List Json
  | [] => []
  | v :: rest => sortKeys v :: sortItems rest

def sortMembers : List (Utf16 × Json) → List (Utf16 × Json)
  | [] => []
  | (k, v) :: rest => (k, sortKeys v) :: sortMembers rest

end

section

variable (digits : JsNumber → Utf16)

/-- A value's text with the members of every object in the order of their names. Source:
`canonical`. -/
def canonical (v : Json) : Utf16 := stringify digits (sortKeys v)

end

/-- Values that are one as JSON keeps them, whatever the order of names in them. -/
def SameJson (v w : Json) : Prop := reread (sortKeys v) = reread (sortKeys w)

def someMoment : Utf16 := utf16 "2026-01-01T00:00:00.000Z"

def plainPlatform : Platform where
  isDate s := s = someMoment
  digits n :=
    if n = .ofNat 1 then utf16 "1"
    else utf16 "1." ++ (Nat.digits 10 n.bits.val).map fun d => Fin.ofNat _ (0x30 + d)

lemma plainPlatform_spelling : Spelling plainPlatform.digits := by
  have hdigit : ∀ n, ∀ d ∈ Nat.digits 10 n, d < 10 := fun n d hd =>
    Nat.digits_lt_base (by decide) hd
  have hstart : ∀ u ∈ utf16 "1.", isNumberPart u = true := List.all_eq_true.1 (by decide)
  have hpart : ∀ d < 10, isNumberPart (Fin.ofNat _ (0x30 + d)) = true := by
    intro d hd
    interval_cases d <;> decide
  have hunit : ∀ d < 10, (Fin.ofNat 65536 (0x30 + d)).val - 0x30 = d := by
    intro d hd
    show (0x30 + d) % 65536 - 0x30 = d
    omega
  refine ⟨?_, ?_, ?_⟩
  · intro n _
    unfold plainPlatform
    dsimp only
    split_ifs
    · decide
    · exact cons_ne_nil _ _
  · intro n _ u hu
    unfold plainPlatform at hu
    dsimp only at hu
    split_ifs at hu
    · obtain rfl := mem_singleton.1 hu
      decide
    · rcases mem_append.1 hu with hu | hu
      · exact hstart u hu
      · obtain ⟨d, hd, rfl⟩ := List.mem_map.1 hu
        exact hpart d (hdigit _ d hd)
  · intro n m _ _ h
    unfold plainPlatform at h
    dsimp only at h
    split_ifs at h with hn hm hm
    · exact hn.trans hm.symm
    · cases (List.cons.inj h).2
    · cases (List.cons.inj h).2
    · -- the digits are read off the units, and the bits off the digits
      have hback : ∀ n : ℕ, ((Nat.digits 10 n).map fun d => Fin.ofNat 65536 (0x30 + d)).map
          (fun u : CodeUnit => u.val - 0x30) = Nat.digits 10 n := by
        intro n
        rw [List.map_map]
        exact (map_congr_left fun d hd => hunit d (hdigit n d hd)).trans (List.map_id _)
      have hdigits := congrArg (List.map fun u : CodeUnit => u.val - 0x30)
        (append_cancel_left h)
      rw [hback, hback, Nat.digits_inj_iff] at hdigits
      exact congrArg JsNumber.mk (Fin.ext hdigits)

end Zelavis.Db
