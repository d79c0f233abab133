import Zelavis.Db.OrderedCodec
import Zelavis.Db.Tuples

/-!
# Composite index tuples

The order of `keys.ts` `orderedTuple`, and what the index read of `documents.ts` finds with it.
-/

namespace Zelavis.Db.IndexTuples

open Lib List

variable {f : TupleField}

/-! ## Tuples and their order -/

/-- How one field of an index sorts. -/
structure TupleField where
  direction : Direction
  nulls : NullPlacement

def TupleField.component (f : TupleField) (v : Option OrderedValue) : TupleComponent :=
  ⟨v, f.direction, f.nulls⟩

def present : Option OrderedValue → Option OrderedValue
  | some (.scalar .null) => none
  | v => v

/-- A value as it is read back: null is missing, and a negative zero is zero. -/
def normal (v : Option OrderedValue) : Option OrderedValue := (present v).map OrderedValue.normal

/-- The order of one field: by its direction, missing values where the field places them. -/
def TupleField.before (f : TupleField) (x y : Option OrderedValue) : Prop :=
  match present x, present y with
  | none, none => False
  | none, some _ => f.nulls = .first
  | some _, none => f.nulls = .last
  | some a, some b =>
    match f.direction with
    | .asc => a.before b
    | .desc => b.before a

def tupleBefore : List TupleField → List (Option OrderedValue) → List (Option OrderedValue) → Prop
  | f :: fields, x :: xs, y :: ys => f.before x y ∨ normal x = normal y ∧ tupleBefore fields xs ys
  | _, _, _ => False

/-- The values a document has for a list of fields; numbers are finite. -/
structure Tuple (fields : List TupleField) where
  values : List (Option OrderedValue)
  length_eq : values.length = fields.length
  finite : ∀ v, some v ∈ values → v.Finite

namespace Tuple

variable {fields : List TupleField}

def components (x : Tuple fields) : List TupleComponent :=
  List.zipWith TupleField.component fields x.values

def encode (x : Tuple fields) : Option Utf16 := orderedTuple x.components

def Legible (x : Tuple fields) : Prop := ∀ v, some v ∈ x.values → v.Legible

end Tuple

/-! ## Bounds -/

/-- The bounds of a read of the tuples that start with given fields, encoded: the lower one inclusive and the
upper one not. Source: `documents.ts` `inIndexOrder`. -/
def indexBounds (pre : Utf16) : Option (Utf16 × Utf16) :=
  if pre = [] then none else some (pre, pre ++ utf16 "g")

def WithinBounds (tuple : Utf16) : Option (Utf16 × Utf16) → Prop
  | none => True
  | some (lower, upper) => lower ≤ tuple ∧ tuple < upper

lemma between_iff_isPrefix {α : Type} [LinearOrder α] {last : α} (p : List α) {t : List α}
    (h : ∀ a ∈ t, a < last) : p ≤ t ∧ t < p ++ [last] ↔ p <+: t := by
  induction p generalizing t with
  | nil =>
    refine iff_of_true ⟨nil_le_list t, ?_⟩ List.nil_prefix
    cases t with
    | nil => exact nil_lt_cons _ _
    | cons a t => exact cons_lt_cons_iff.2 (.inl (h a mem_cons_self))
  | cons a p ih =>
    cases t with
    | nil => simp
    | cons b t =>
      rw [cons_le_cons_list, cons_append, cons_lt_cons_iff, cons_prefix_cons,
        ← ih fun a ha => h a (mem_cons_of_mem b ha)]
      constructor
      · rintro ⟨hab | ⟨rfl, hle⟩, hba | ⟨hba, hlt⟩⟩
        · exact absurd hab hba.not_gt
        · exact absurd hba hab.ne'
        · exact absurd hba (lt_irrefl a)
        · exact ⟨rfl, hle, hlt⟩
      · rintro ⟨rfl, hle, hlt⟩
        exact ⟨.inr ⟨rfl, hle⟩, .inr ⟨rfl, hlt⟩⟩

/-! ## Digits -/

lemma hexDigit_lt : ∀ m < 16, ∀ n < 16, m < n → hexDigit m < hexDigit n := by decide +kernel

lemma hexDigit_lt_last : ∀ n < 16, hexDigit n < 0x67 := by decide +kernel

lemma hexByte_orderedCode : OrderedCode fun b : Byte => [hexDigit (b.val / 16), hexDigit (b.val % 16)] where
  ne_nil _ := cons_ne_nil _ _
  mono := by
    intro a b hab x y
    have hab : a.val < b.val := hab
    rw [cons_append, cons_append, cons_append, cons_append,
      cons_lt_cons_iff, cons_lt_cons_iff]
    rcases Nat.lt_or_ge (a.val / 16) (b.val / 16) with hlt | hge
    · exact .inl (hexDigit_lt _ (by omega) _ (by omega) hlt)
    · have heq : a.val / 16 = b.val / 16 := by omega
      exact .inr ⟨by rw [heq], .inl (hexDigit_lt _ (Nat.mod_lt _ (by omega)) _
        (Nat.mod_lt _ (by omega)) (by omega))⟩

lemma hexOf_lt_iff (u v : Bytes) : hexOf u < hexOf v ↔ u < v := hexByte_orderedCode.flatMap_lt_iff u v

lemma hexOf_isPrefix_iff (u v : Bytes) : hexOf u <+: hexOf v ↔ u <+: v :=
  hexByte_orderedCode.flatMap_prefix_iff u v

lemma hexOf_inj {u v : Bytes} : hexOf u = hexOf v ↔ u = v :=
  hexByte_orderedCode.flatMap_injective.eq_iff

lemma lt_last_of_mem_hexOf {u : Bytes} {a : CodeUnit} (h : a ∈ hexOf u) : a < 0x67 := by
  obtain ⟨b, -, hb⟩ := mem_flatMap.1 h
  rcases mem_cons.1 hb with rfl | hb
  · exact hexDigit_lt_last _ (by omega)
  · rw [mem_singleton.1 hb]
    exact hexDigit_lt_last _ (Nat.mod_lt _ (by omega))

lemma withinBounds_iff (p t : Bytes) : WithinBounds (hexOf t) (indexBounds (hexOf p)) ↔ p <+: t := by
  rw [indexBounds]
  split_ifs with hnil
  · have hp : p = [] := hexOf_inj.1 (hnil.trans rfl)
    exact iff_of_true trivial (hp ▸ List.nil_prefix)
  · rw [← hexOf_isPrefix_iff]
    exact between_iff_isPrefix _ fun a ha => lt_last_of_mem_hexOf ha

/-! ## One field -/

def noValue : NullPlacement → Byte
  | .first => NoValue.first
  | .last => NoValue.last

def directed : Direction → Bytes → Bytes
  | .asc, out => out
  | .desc, out => invert out

variable {v : Option OrderedValue}

lemma componentBytes_of_missing (h : present v = none) :
    componentBytes (f.component v) = some [noValue f.nulls] := by
  obtain ⟨direction, nulls⟩ := f
  rcases v with _ | (_ | b | n | s) | raw
  case none => cases nulls <;> rfl
  case some.scalar.null => cases nulls <;> rfl
  all_goals cases h

variable {a : OrderedValue}

lemma componentBytes_of_present (h : present v = some a) :
    componentBytes (f.component v) = (writeOrderedValue a).map (directed f.direction) := by
  obtain ⟨direction, nulls⟩ := f
  rcases v with _ | (_ | b | n | s) | raw
  case none => cases h
  case some.scalar.null => cases h
  all_goals
    cases h
    cases direction <;> rfl

/-- A field's encoding: the byte of a missing value, or the value's encoding in the field's direction. -/
theorem componentBytes_cases {w : Bytes} (h : componentBytes (f.component v) = some w) :
    present v = none ∧ w = [noValue f.nulls] ∨
      ∃ a out, present v = some a ∧ writeOrderedValue a = some out ∧ w = directed f.direction out := by
  cases hv : present v with
  | none =>
    rw [componentBytes_of_missing hv] at h
    exact .inl ⟨rfl, (Option.some.inj h).symm⟩
  | some a =>
    rw [componentBytes_of_present hv] at h
    obtain ⟨out, hout, rfl⟩ := Option.map_eq_some_iff.1 h
    exact .inr ⟨a, out, rfl, hout, rfl⟩

lemma ne_null_of_present (h : present v = some a) : v = some a ∧ a ≠ .scalar .null := by
  rcases v with _ | (_ | b | n | s) | raw
  case none => cases h
  case some.scalar.null => cases h
  all_goals
    cases h
    exact ⟨rfl, by simp⟩

/-- The first byte of a value's encoding is above that of missing values placed first and below that of
missing values placed last, in either direction. -/
theorem head_directed {out : Bytes} (hnull : a ≠ .scalar .null)
    (h : writeOrderedValue a = some out) (direction : Direction) :
    ∃ b body, directed direction out = b :: body ∧ NoValue.first < b ∧ b < NoValue.last := by
  have hrank : ∃ b body, out = b :: body ∧ 0x20 ≤ b ∧ b ≤ 0x50 := by
    rcases a with (_ | (_ | _) | n | s) | raw <;>
      simp [writeOrderedValue] at h
    · exact absurd rfl hnull
    · exact ⟨_, _, h.symm, by decide, by decide⟩
    · exact ⟨_, _, h.symm, by decide, by decide⟩
    · obtain ⟨w, -, rfl⟩ := h
      exact ⟨_, _, rfl, by decide, by decide⟩
    · exact ⟨_, _, h.symm, by decide, by decide⟩
    · exact ⟨_, _, h.symm, by decide, by decide⟩
  obtain ⟨b, body, rfl, hlo, hhi⟩ := hrank
  cases direction with
  | asc => exact ⟨b, body, rfl, lt_of_lt_of_le (by decide) hlo, lt_of_le_of_lt hhi (by decide)⟩
  | desc =>
    refine ⟨Fin.rev b, invert body, rfl, ?_, ?_⟩
    · exact lt_of_lt_of_le (by decide) (Fin.rev_le_rev.2 hhi)
    · exact lt_of_le_of_lt (Fin.rev_le_rev.2 hlo) (by decide)

lemma ne_noValue {b : Byte} (hlo : NoValue.first < b) (hhi : b < NoValue.last)
    (nulls : NullPlacement) : b ≠ noValue nulls := by
  cases nulls with
  | first => exact hlo.ne'
  | last => exact hhi.ne

def fieldCode (f : TupleField) : Set Bytes := {w | ∃ v, componentBytes (f.component v) = some w}

lemma fieldCode_prefixCode (f : TupleField) : PrefixCode (fieldCode f) := by
  rintro u ⟨v, hu⟩ w ⟨v', hw⟩ x y h
  rcases componentBytes_cases hu with ⟨-, rfl⟩ | ⟨a, out, hv, hout, rfl⟩ <;>
    rcases componentBytes_cases hw with ⟨-, rfl⟩ | ⟨a', out', hv', hout', rfl⟩
  · rfl
  · obtain ⟨b, body, hb, hlo, hhi⟩ := head_directed (ne_null_of_present hv').2 hout' f.direction
    rw [hb] at h
    exact absurd (List.cons.inj h).1.symm (ne_noValue hlo hhi _)
  · obtain ⟨b, body, hb, hlo, hhi⟩ := head_directed (ne_null_of_present hv).2 hout f.direction
    rw [hb] at h
    exact absurd (List.cons.inj h).1 (ne_noValue hlo hhi _)
  · cases hd : f.direction with
    | asc =>
      rw [hd] at h
      exact valueCode_prefixCode out ⟨a, hout⟩ out' ⟨a', hout'⟩ x y h
    | desc =>
      rw [hd] at h
      have hinv := congrArg invert h
      rw [directed, directed, invert_append, invert_append, invert_invert, invert_invert] at hinv
      rw [valueCode_prefixCode out ⟨a, hout⟩ out' ⟨a', hout'⟩ _ _ hinv]

lemma invert_lt_iff {u w : Bytes} (hu : u ∈ valueCode) (hw : w ∈ valueCode) :
    invert u < invert w ↔ w < u := by
  have hwords : ∀ u w : Bytes, ¬ u <+: w → ¬ w <+: u → (invert u < invert w ↔ w < u) := by
    intro u
    induction u with
    | nil => exact fun w hu => absurd List.nil_prefix hu
    | cons a u ih =>
      intro w huw hwu
      cases w with
      | nil => exact absurd List.nil_prefix hwu
      | cons b w =>
        have hcons : ∀ c l, invert (c :: l) = Fin.rev c :: invert l := fun _ _ => rfl
        rw [hcons, hcons, cons_lt_cons_iff, cons_lt_cons_iff, Fin.rev_lt_rev, Fin.rev_inj]
        rcases eq_or_ne a b with rfl | hab
        · rw [prefix_cons_inj] at huw hwu
          rw [ih w huw hwu]
        · simp [hab, hab.symm]
  rcases eq_or_ne u w with rfl | hne
  · simp
  · refine hwords u w (fun h => hne ?_) fun h => hne ?_
    · exact valueCode_prefixCode.eq_of_isPrefix hu hw (x := []) (by simpa using h)
    · exact (valueCode_prefixCode.eq_of_isPrefix hw hu (x := []) (by simpa using h)).symm

section field

variable {f : TupleField} {x y : Option OrderedValue} {u w : Bytes}

section

variable (hu : componentBytes (f.component x) = some u) (hw : componentBytes (f.component y) = some w)
  (hx : ∀ v, x = some v → v.Legible) (hy : ∀ v, y = some v → v.Legible)
include hu hw hx hy

lemma componentBytes_lt_iff : u < w ↔ f.before x y := by
  unfold TupleField.before
  rcases componentBytes_cases hu with ⟨hpx, rfl⟩ | ⟨a, out, hpx, hout, rfl⟩ <;>
    rcases componentBytes_cases hw with ⟨hpy, rfl⟩ | ⟨a', out', hpy, hout', rfl⟩ <;>
    rw [hpx, hpy]
  · simp
  · obtain ⟨b, body, hb, hlo, hhi⟩ := head_directed (ne_null_of_present hpy).2 hout' f.direction
    rw [hb, cons_lt_cons_iff]
    cases f.nulls with
    | first => simp [noValue, hlo]
    | last => simp [noValue, hhi.le, hhi.ne']
  · obtain ⟨b, body, hb, hlo, hhi⟩ := head_directed (ne_null_of_present hpx).2 hout f.direction
    rw [hb, cons_lt_cons_iff]
    cases f.nulls with
    | first => simp [noValue, hlo.le, hlo.ne']
    | last => simp [noValue, hhi]
  · obtain ⟨rfl, -⟩ := ne_null_of_present hpx
    obtain ⟨rfl, -⟩ := ne_null_of_present hpy
    cases f.direction with
    | asc => exact writeOrderedValue_before_iff hout hout' (hx a rfl) (hy a' rfl)
    | desc =>
      rw [directed, directed, invert_lt_iff ⟨a, hout⟩ ⟨a', hout'⟩]
      exact writeOrderedValue_before_iff hout' hout (hy a' rfl) (hx a rfl)

lemma componentBytes_eq_iff : u = w ↔ normal x = normal y := by
  unfold normal
  rcases componentBytes_cases hu with ⟨hpx, rfl⟩ | ⟨a, out, hpx, hout, rfl⟩ <;>
    rcases componentBytes_cases hw with ⟨hpy, rfl⟩ | ⟨a', out', hpy, hout', rfl⟩ <;>
    rw [hpx, hpy]
  · simp
  · obtain ⟨b, body, hb, hlo, hhi⟩ := head_directed (ne_null_of_present hpy).2 hout' f.direction
    simp [hb, (ne_noValue hlo hhi f.nulls).symm]
  · obtain ⟨b, body, hb, hlo, hhi⟩ := head_directed (ne_null_of_present hpx).2 hout f.direction
    simp [hb, ne_noValue hlo hhi f.nulls]
  · obtain ⟨rfl, -⟩ := ne_null_of_present hpx
    obtain ⟨rfl, -⟩ := ne_null_of_present hpy
    have hvalue := writeOrderedValue_eq_iff hout hout' (hx a rfl).wellFormed (hy a' rfl).wellFormed
    rw [Option.map_some, Option.map_some, Option.some_inj, ← hvalue]
    cases f.direction with
    | asc => exact Iff.rfl
    | desc =>
      refine ⟨fun h => ?_, fun h => by rw [h]⟩
      rw [← invert_invert out, ← invert_invert out']
      exact congrArg invert h

end

end field

/-! ## Field by field -/

def Encodes (fields : List TupleField) (xs : List (Option OrderedValue)) (us : List Bytes) : Prop :=
  List.Forall₂ (fun c u => componentBytes c = some u) (List.zipWith TupleField.component fields xs) us

/-- Tuples of one list of fields, whatever follows each, compare by the first field in which they differ,
and are the same only field by field. -/
theorem flatten_append_lt_iff {fields : List TupleField} {xs ys : List (Option OrderedValue)}
    {us ws : List Bytes} (hu : Encodes fields xs us) (hw : Encodes fields ys ws)
    (hxs : xs.length = fields.length) (hys : ys.length = fields.length)
    (hx : ∀ v, some v ∈ xs → v.Legible) (hy : ∀ v, some v ∈ ys → v.Legible) (p q : Bytes) :
    (us.flatten ++ p = ws.flatten ++ q ↔ xs.map normal = ys.map normal ∧ p = q) ∧
      (us.flatten ++ p < ws.flatten ++ q ↔
        tupleBefore fields xs ys ∨ xs.map normal = ys.map normal ∧ p < q) := by
  induction fields generalizing xs ys us ws with
  | nil =>
    obtain rfl := length_eq_zero_iff.1 hxs
    obtain rfl := length_eq_zero_iff.1 hys
    cases hu
    cases hw
    simp [tupleBefore]
  | cons f fields ih =>
    cases xs with
    | nil => simp at hxs
    | cons x xs =>
      cases ys with
      | nil => simp at hys
      | cons y ys =>
        obtain ⟨u, us, hu₁, hu₂, rfl⟩ := List.forall₂_cons_left_iff.1 hu
        obtain ⟨w, ws, hw₁, hw₂, rfl⟩ := List.forall₂_cons_left_iff.1 hw
        have hfield := fieldCode_prefixCode f
        have hlegible : ∀ v, x = some v → v.Legible := fun v hv => hx v (by simp [hv])
        have hlegible' : ∀ v, y = some v → v.Legible := fun v hv => hy v (by simp [hv])
        have heq := componentBytes_eq_iff hu₁ hw₁ hlegible hlegible'
        obtain ⟨hrest, hrest'⟩ := ih hu₂ hw₂ (by simpa using hxs) (by simpa using hys)
          (fun v hv => hx v (mem_cons_of_mem x hv)) fun v hv => hy v (mem_cons_of_mem y hv)
        simp only [flatten_cons, append_assoc, map_cons, List.cons.injEq]
        constructor
        · rw [and_assoc, ← hrest, ← heq]
          constructor
          · intro h
            obtain rfl := hfield u ⟨x, hu₁⟩ w ⟨y, hw₁⟩ _ _ h
            exact ⟨rfl, append_cancel_left h⟩
          · rintro ⟨rfl, h⟩
            rw [h]
        · rw [hfield.append_lt_iff ⟨x, hu₁⟩ ⟨y, hw₁⟩, hrest',
            componentBytes_lt_iff hu₁ hw₁ hlegible hlegible', heq, tupleBefore]
          rw [and_or_left, or_assoc, and_assoc]

lemma flatten_isPrefix_iff {fields : List TupleField} {k : ℕ} {xs given : List (Option OrderedValue)}
    {us gs : List Bytes} (hu : Encodes fields xs us) (hg : Encodes (fields.take k) given gs)
    (hxs : xs.length = fields.length) (hgiven : given.length = (fields.take k).length)
    (hx : ∀ v, some v ∈ xs → v.Legible) (hgl : ∀ v, some v ∈ given → v.Legible) :
    gs.flatten <+: us.flatten ↔ given.map normal = (xs.take k).map normal := by
  have htake : Encodes (fields.take k) (xs.take k) (us.take k) := by
    rw [Encodes, ← take_zipWith]
    exact List.forall₂_take k hu
  have hsplit : us.flatten = (us.take k).flatten ++ (us.drop k).flatten := by
    rw [← flatten_append, take_append_drop]
  have hsame := fun p => (flatten_append_lt_iff hg htake hgiven (by simp [hxs]) hgl
    (fun v hv => hx v (mem_of_mem_take hv)) p (us.drop k).flatten).1
  rw [hsplit]
  constructor
  · rintro ⟨p, hp⟩
    exact ((hsame p).1 hp).1
  · exact fun h => ⟨_, (hsame _).2 ⟨h, rfl⟩⟩

/-! ## Reading back -/

def decoded (v : Option OrderedValue) : Option OrderedValue := (present v).map OrderedValue.decoded

lemma decoded_eq_normal_iff : decoded v = normal v ↔ ∀ a, v = some a → a.Legible := by
  unfold decoded normal
  rcases v with _ | (_ | b | n | s) | raw
  case none => simp [present]
  case some.scalar.null => simp [present, OrderedValue.Legible]
  all_goals
    rw [present]
    · simp [OrderedValue.decoded_eq_iff]
    · simp

lemma readComponent_component {w : Bytes}
    (h : componentBytes (f.component v) = some w) (rest : Bytes) :
    readComponent f.direction (w ++ rest) = some (decoded v, rest) := by
  rw [decoded]
  rcases componentBytes_cases h with ⟨hv, rfl⟩ | ⟨a, out, hv, hout, rfl⟩
  · rw [hv, cons_append, readComponent.eq_def]
    dsimp only
    rw [if_pos (by cases f.nulls <;> simp [noValue])]
    rfl
  · obtain ⟨b, body, hb, hlo, hhi⟩ := head_directed (ne_null_of_present hv).2 hout f.direction
    rw [hv, hb, cons_append, readComponent.eq_def]
    dsimp only
    rw [if_neg (not_or.2 ⟨hlo.ne', hhi.ne⟩), ← cons_append, ← hb]
    cases f.direction with
    | asc | desc => simp [directed, readOrderedValue_write hout]

variable {xs : List (Option OrderedValue)}

lemma readComponents_flatten {fields : List TupleField}
    {us : List Bytes} (hu : Encodes fields xs us) (hxs : xs.length = fields.length) (rest : Bytes) :
    readComponents (fields.map TupleField.direction) (us.flatten ++ rest) = some (xs.map decoded) := by
  induction fields generalizing xs us with
  | nil =>
    obtain rfl := length_eq_zero_iff.1 hxs
    rfl
  | cons f fields ih =>
    cases xs with
    | nil => simp at hxs
    | cons x xs =>
      obtain ⟨u, us, hu₁, hu₂, rfl⟩ := List.forall₂_cons_left_iff.1 hu
      rw [flatten_cons, append_assoc, map_cons, readComponents,
        readComponent_component hu₁, Option.bind_eq_bind, Option.bind_some]
      dsimp only
      rw [ih hu₂ (by simpa using hxs)]
      rfl

/-! ## The codec of tuples -/

lemma exists_encodes {fields : List TupleField}
    (h : ∀ v, some v ∈ xs → v.Finite) : ∃ us, Encodes fields xs us := by
  induction fields generalizing xs with
  | nil => exact ⟨[], .nil⟩
  | cons f fields ih =>
    cases xs with
    | nil => exact ⟨[], .nil⟩
    | cons x xs =>
      obtain ⟨us, hus⟩ := ih fun v hv => h v (mem_cons_of_mem x hv)
      cases hp : present x with
      | none => exact ⟨_, .cons (componentBytes_of_missing hp) hus⟩
      | some a =>
        obtain ⟨rfl, -⟩ := ne_null_of_present hp
        obtain ⟨out, hout, -⟩ := exists_writeOrderedValue (h a mem_cons_self)
        exact ⟨_, .cons (by rw [componentBytes_of_present hp, hout, Option.map_some]) hus⟩

namespace Tuple

variable {fields : List TupleField}

lemma exists_encode (x : Tuple fields) :
    ∃ us, Encodes fields x.values us ∧ x.encode = some (hexOf us.flatten) := by
  obtain ⟨us, hus⟩ := @exists_encodes _ fields x.finite
  have hmap : x.components.mapM componentBytes = some us := mapM_eq_some_iff.2 hus
  exact ⟨us, hus, by rw [encode, orderedTuple, hmap, Option.map_some]⟩

lemma decode_iff (x : Tuple fields) {s : Utf16} (h : x.encode = some s) :
    decodeOrderedTuple s (fields.map TupleField.direction) = some (x.values.map normal) ↔ x.Legible := by
  obtain ⟨us, hus, hs⟩ := x.exists_encode
  obtain rfl := Option.some.inj (h.symm.trans hs)
  have hread := readComponents_flatten hus x.length_eq []
  rw [append_nil] at hread
  rw [decodeOrderedTuple, ofHex_hexOf, hread, Option.some_inj, map_inj_left]
  constructor
  · exact fun h v hv => decoded_eq_normal_iff.1 (h (some v) hv) v rfl
  · rintro h v hv
    exact decoded_eq_normal_iff.2 fun a ha => h a (ha ▸ hv)

end Tuple

/-- The encoding is right for two tuples of an index and for leading values: the strings of the tuples
sort as they do and are the same only for the same tuple, all read back, and a tuple is within the bounds
of the leading values exactly where it has them. -/
def TupleCodec {fields : List TupleField} {k : ℕ} (x y : Tuple fields)
    (given : Tuple (fields.take k)) : Prop :=
  ∃ s t g, x.encode = some s ∧ y.encode = some t ∧ given.encode = some g ∧
    (s < t ↔ tupleBefore fields x.values y.values) ∧
    (s = t ↔ x.values.map normal = y.values.map normal) ∧
    (WithinBounds s (indexBounds g) ↔ given.values.map normal = (x.values.take k).map normal) ∧
    decodeOrderedTuple s (fields.map TupleField.direction) = some (x.values.map normal) ∧
    decodeOrderedTuple t (fields.map TupleField.direction) = some (y.values.map normal) ∧
    decodeOrderedTuple g ((fields.take k).map TupleField.direction) = some (given.values.map normal)

/-- It is exactly where no string has a lone surrogate or a leading byte order mark. -/
theorem tupleCodec_iff {fields : List TupleField} {k : ℕ} (x y : Tuple fields)
    (given : Tuple (fields.take k)) : TupleCodec x y given ↔ x.Legible ∧ y.Legible ∧ given.Legible := by
  constructor
  · rintro ⟨s, t, g, hs, ht, hg, -, -, -, hx, hy, hgiven⟩
    exact ⟨(x.decode_iff hs).1 hx, (y.decode_iff ht).1 hy, (given.decode_iff hg).1 hgiven⟩
  · rintro ⟨hx, hy, hgiven⟩
    obtain ⟨us, hus, hs⟩ := x.exists_encode
    obtain ⟨ws, hws, ht⟩ := y.exists_encode
    obtain ⟨gs, hgs, hg⟩ := given.exists_encode
    obtain ⟨heq, hlt⟩ := flatten_append_lt_iff hus hws x.length_eq y.length_eq hx hy [] []
    refine ⟨_, _, _, hs, ht, hg, ?_, ?_, ?_, (x.decode_iff hs).2 hx, (y.decode_iff ht).2 hy,
      (given.decode_iff hg).2 hgiven⟩
    · rw [hexOf_lt_iff]
      simpa using hlt
    · rw [hexOf_inj]
      simpa using heq
    · rw [withinBounds_iff, flatten_isPrefix_iff hus hgs x.length_eq given.length_eq hx hgiven]

def single (s : Utf16) : Tuple [⟨.asc, .first⟩] where
  values := [some (.scalar (.string s))]
  length_eq := rfl
  finite v hv := by
    obtain rfl := Option.some.inj (List.mem_singleton.1 hv)
    trivial

def nothing : Tuple ([⟨.asc, .first⟩].take 0) where
  values := []
  length_eq := rfl
  finite v hv := by simp at hv

/-- The tuple of a lone surrogate is that of the replacement character. -/
theorem not_tupleCodec : ¬ TupleCodec (single [0xD800]) (single [0xFFFD]) nothing := by
  rintro ⟨s, t, g, hs, ht, -, -, hsame, -⟩
  have hst : s = t := Option.some.inj (hs.symm.trans ((show _ = _ by decide +kernel).trans ht))
  exact absurd (hsame.1 hst) (by decide)

end Zelavis.Db.IndexTuples
