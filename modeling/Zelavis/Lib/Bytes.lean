import Mathlib.Data.List.Lex
import Mathlib.Data.List.Infix
import Mathlib.Data.Fin.Basic
import Mathlib.Data.Set.NAry
import Mathlib.Order.Fin.Basic
import Mathlib.Tactic.Ring
import Mathlib.Tactic.NormNum
import Mathlib.Tactic.SplitIfs

/-!
# Byte strings in lexicographic order

* `OrderedCode f` — a code `f : α → List β` for single symbols under which a smaller symbol sorts
  first whatever follows.
* `bigEndian w n` — a number in `w` bytes: byte order is numeric order (`bigEndian_lt_iff`).
-/

namespace Zelavis.Lib

open List

instance byteCount : NeZero (256 : ℕ) := ⟨by decide⟩

/-- One byte. -/
abbrev Byte := Fin 256

instance lawfulByte : LawfulBEq Byte := inferInstance

/-- A byte string. -/
abbrev Bytes := List Byte

instance lawfulBytes : LawfulBEq Bytes := inferInstance

/-! ## Lexicographic order on lists -/

section lex

variable {α : Type} [LinearOrder α]

lemma append_lt_append_left_iff (w x y : List α) : w ++ x < w ++ y ↔ x < y := by
  induction w with
  | nil => rfl
  | cons a w ih => simp [ih]

lemma cons_lt_cons_left_iff {a : α} {x y : List α} : a :: x < a :: y ↔ x < y :=
  append_lt_append_left_iff [a] x y

lemma nil_le_list (l : List α) : [] ≤ l := not_lt.1 (not_lt_nil l)

lemma cons_le_cons_list {a b : α} {l l' : List α} : a :: l ≤ b :: l' ↔ a < b ∨ a = b ∧ l ≤ l' := by
  rw [← not_lt, cons_lt_cons_iff, ← not_lt]
  grind

lemma append_lt_append_iff_of_not_isPrefix {u v : List α} (huv : ¬ u <+: v) (hvu : ¬ v <+: u)
    (x y : List α) : u ++ x < v ++ y ↔ u < v := by
  induction u generalizing v with
  | nil => exact absurd (List.nil_prefix) huv
  | cons a u ih =>
    cases v with
    | nil => exact absurd (List.nil_prefix) hvu
    | cons b v =>
      rw [cons_append, cons_append, cons_lt_cons_iff, cons_lt_cons_iff]
      rcases eq_or_ne a b with rfl | hab
      · rw [prefix_cons_inj] at huv hvu
        rw [ih huv hvu]
      · simp [hab]

end lex

/-! ## Codes for single symbols -/

/-- A code for symbols under which a smaller symbol sorts first whatever follows either. -/
structure OrderedCode {α β : Type} [LinearOrder α] [LinearOrder β] (f : α → List β) : Prop where
  ne_nil : ∀ a, f a ≠ []
  mono : ∀ {a b : α}, a < b → ∀ x y, f a ++ x < f b ++ y

namespace OrderedCode

variable {α β : Type} [LinearOrder α] [LinearOrder β] {f : α → List β} {x y : List β}

lemma eq_of_append_eq (hf : OrderedCode f) {a b : α} (h : f a ++ x = f b ++ y) : a = b := by
  rcases lt_trichotomy a b with hab | hab | hab
  · exact absurd h (ne_of_lt (hf.mono hab x y))
  · exact hab
  · exact absurd h.symm (ne_of_lt (hf.mono hab y x))

lemma flatMap_prefix_iff (hf : OrderedCode f) (u v : List α) : u.flatMap f <+: v.flatMap f ↔ u <+: v := by
  constructor
  · intro h
    induction u generalizing v with
    | nil => exact List.nil_prefix
    | cons a u ih =>
      obtain ⟨z, hz⟩ := h
      cases v with
      | nil => simp [hf.ne_nil] at hz
      | cons b v =>
        simp only [flatMap_cons, append_assoc] at hz
        obtain rfl := hf.eq_of_append_eq hz
        exact prefix_cons_inj a |>.2 (ih v ⟨z, append_cancel_left hz⟩)
  · rintro ⟨z, rfl⟩
    exact ⟨z.flatMap f, by simp⟩

lemma flatMap_injective (hf : OrderedCode f) : Function.Injective (List.flatMap f) := by
  intro u v h
  have h₁ : u <+: v := (hf.flatMap_prefix_iff u v).1 (h ▸ prefix_rfl)
  have h₂ : v <+: u := (hf.flatMap_prefix_iff v u).1 (h ▸ prefix_rfl)
  exact List.IsPrefix.eq_of_length h₁ (le_antisymm h₁.length_le h₂.length_le)

lemma flatMap_lt_iff (hf : OrderedCode f) (u v : List α) : u.flatMap f < v.flatMap f ↔ u < v := by
  have key : ∀ u v : List α, u < v → u.flatMap f < v.flatMap f := by
    intro u
    induction u with
    | nil =>
      intro v h
      cases v with
      | nil => exact absurd h (lt_irrefl _)
      | cons b v =>
        obtain ⟨c, l, hc⟩ := exists_cons_of_ne_nil (hf.ne_nil b)
        simp [hc]
    | cons a u ih =>
      intro v h
      cases v with
      | nil => exact absurd h (not_lt_nil _)
      | cons b v =>
        rcases cons_lt_cons_iff.1 h with hab | ⟨rfl, huv⟩
        · exact hf.mono hab _ _
        · exact (append_lt_append_left_iff _ _ _).2 (ih v huv)
  refine ⟨fun h => ?_, key u v⟩
  rcases lt_trichotomy u v with huv | rfl | huv
  · exact huv
  · exact absurd h (lt_irrefl _)
  · exact absurd (h.trans (key v u huv)) (lt_irrefl _)

variable {t : β}

/-- A terminator below every symbol: what is spelled never starts with it. -/
def Terminates (f : α → List β) (t : β) : Prop := ∀ a x y, t :: x < f a ++ y

section

variable (hf : OrderedCode f) (ht : Terminates f t)
include hf ht

/-- A word with room after its terminator matches a spelled prefix exactly as the words match. -/
theorem prefix_terminated_iff (u v : List α)
    (y : List β) : u.flatMap f <+: v.flatMap f ++ t :: y ↔ u <+: v := by
  constructor
  · intro h
    induction u generalizing v with
    | nil => exact List.nil_prefix
    | cons a u ih =>
      obtain ⟨z, hz⟩ := h
      cases v with
      | nil => exact absurd hz.symm (ne_of_lt (by simpa using ht a y _))
      | cons b v =>
        simp only [flatMap_cons, append_assoc] at hz
        obtain rfl := hf.eq_of_append_eq hz
        exact prefix_cons_inj a |>.2 (ih v ⟨z, append_cancel_left hz⟩)
  · rintro ⟨z, rfl⟩
    exact ⟨z.flatMap f ++ t :: y, by simp⟩

lemma terminated_lt_iff (u v : List α) (x y : List β) :
    u.flatMap f ++ t :: x < v.flatMap f ++ t :: y ↔ u < v ∨ u = v ∧ x < y := by
  induction u generalizing v with
  | nil =>
    cases v with
    | nil => simp
    | cons b v => simpa using ht b x (v.flatMap f ++ t :: y)
  | cons a u ih =>
    cases v with
    | nil =>
      have h := ht a y (u.flatMap f ++ t :: x)
      simpa using h.le
    | cons b v =>
      simp only [flatMap_cons, append_assoc, cons_lt_cons_iff, List.cons.injEq]
      rcases lt_trichotomy a b with hab | rfl | hab
      · simp [hab, hf.mono hab]
      · simp [append_lt_append_left_iff, ih]
      · simp [hab.not_gt, hab.ne', (hf.mono hab _ _).le]

lemma eq_of_terminated_eq {u v : List α}
    (h : u.flatMap f ++ t :: x = v.flatMap f ++ t :: y) : u = v := by
  rcases lt_trichotomy u v with huv | huv | huv
  · exact absurd h (ne_of_lt ((hf.terminated_lt_iff ht u v x y).2 (Or.inl huv)))
  · exact huv
  · exact absurd h.symm (ne_of_lt ((hf.terminated_lt_iff ht v u y x).2 (Or.inl huv)))

end

end OrderedCode

/-! ## Prefix codes -/

/-- A set of words that can be read back from the front of any string starting with one. -/
def PrefixCode {α : Type} (S : Set (List α)) : Prop :=
  ∀ u ∈ S, ∀ v ∈ S, ∀ x y, u ++ x = v ++ y → u = v

namespace PrefixCode

variable {α : Type} {S T : Set (List α)}

lemma mono (hT : PrefixCode T) (hST : S ⊆ T) : PrefixCode S :=
  fun u hu v hv x y h => hT u (hST hu) v (hST hv) x y h

lemma eq_of_isPrefix (hS : PrefixCode S) {u v x : List α} (hu : u ∈ S) (hv : v ∈ S)
    (h : u <+: v ++ x) : u = v := by
  obtain ⟨z, hz⟩ := h
  exact hS u hu v hv z x hz

lemma of_length {n : ℕ} (h : ∀ u ∈ S, u.length = n) : PrefixCode S :=
  fun u hu v hv _ _ he => (append_inj he ((h u hu).trans (h v hv).symm)).1

lemma append (hS : PrefixCode S) (hT : PrefixCode T) : PrefixCode (Set.image2 (· ++ ·) S T) := by
  rintro _ ⟨u, hu, u', hu', rfl⟩ _ ⟨v, hv, v', hv', rfl⟩ x y h
  simp only [append_assoc] at h
  obtain rfl := hS u hu v hv _ _ h
  rw [hT u' hu' v' hv' x y (append_cancel_left h)]

lemma append_lt_iff [LinearOrder α] (hS : PrefixCode S) {u v : List α} (hu : u ∈ S)
    (hv : v ∈ S) (x y : List α) : u ++ x < v ++ y ↔ u < v ∨ u = v ∧ x < y := by
  rcases eq_or_ne u v with rfl | huv
  · simp [append_lt_append_left_iff]
  · have h₁ : ¬ u <+: v := fun h => huv (hS.eq_of_isPrefix hu hv (x := []) (by simpa using h))
    have h₂ : ¬ v <+: u := fun h => huv (hS.eq_of_isPrefix hv hu (x := []) (by simpa using h)).symm
    simp [append_lt_append_iff_of_not_isPrefix h₁ h₂, huv]

end PrefixCode

/-! ## Prefix ranges -/

/-- The exclusive upper bound of a prefix: its last byte that can be raised, raised. A prefix of
all `0xff` bytes has none. -/
def prefixEnd : Bytes → Option Bytes
  | [] => none
  | b :: rest =>
    match prefixEnd rest with
    | some e => some (b :: e)
    | none => if b < 0xff then some [b + 1] else none

lemma prefixEnd_range (p k : Bytes) : (p ≤ k ∧ ∀ e ∈ prefixEnd p, k < e) ↔ p <+: k := by
  induction p generalizing k with
  | nil => simp [prefixEnd, nil_le_list]
  | cons b p ih =>
    cases k with
    | nil => simp [← not_lt]
    | cons c k =>
      rw [cons_prefix_cons, ← ih k, prefixEnd, cons_le_cons_list]
      rcases hp : prefixEnd p with _ | e
      · by_cases hb : b < 0xff
        · have hlt : c < b + 1 ↔ c ≤ b := by grind
          simp only [hb, if_true, Option.mem_def, Option.some.injEq, forall_eq',
            cons_lt_cons_iff, not_lt_nil, and_false, or_false, hlt, reduceCtorEq,
            false_implies, implies_true, and_true]
          grind
        · have hle : ¬ b < c := by grind
          simp [hb, hle]
      · simp only [Option.mem_def, Option.some.injEq, forall_eq', cons_lt_cons_iff]
        grind

variable {p k e : Bytes}

lemma lt_prefixEnd_of_isPrefix (he : prefixEnd p = some e) (h : p <+: k) : k < e :=
  ((prefixEnd_range p k).2 h).2 e he

lemma prefixEnd_le_iff (he : prefixEnd p = some e) : e ≤ k ↔ p < k ∧ ¬ p <+: k := by
  constructor
  · intro h
    have hnp : ¬ p <+: k := fun hp => absurd (lt_prefixEnd_of_isPrefix he hp) (not_lt.2 h)
    have hpk : p ≤ k := (lt_prefixEnd_of_isPrefix he prefix_rfl).le.trans h
    exact ⟨lt_of_le_of_ne hpk fun heq => hnp (heq ▸ prefix_rfl), hnp⟩
  · rintro ⟨hlt, hnp⟩
    by_contra hc
    refine hnp ((prefixEnd_range p k).1 ⟨hlt.le, fun e' he' => ?_⟩)
    obtain rfl : e = e' := Option.some.inj (he.symm.trans he')
    exact not_le.1 hc

lemma prefixEnd_cons_isSome {b : Byte} (hb : b < 0xff) (p : Bytes) : (prefixEnd (b :: p)).isSome := by
  rw [prefixEnd]
  cases prefixEnd p <;> simp [hb]

/-! ## Numbers in fixed width -/

/-- A number in `w` bytes, most significant first; what does not fit is dropped. -/
def bigEndian : ℕ → ℕ → Bytes
  | 0, _ => []
  | w + 1, n => bigEndian w (n / 256) ++ [Fin.ofNat 256 n]

def readBigEndian (bytes : Bytes) : ℕ := bytes.foldl (fun acc b => acc * 256 + b.val) 0

@[simp] lemma bigEndian_length (w n : ℕ) : (bigEndian w n).length = w := by
  induction w generalizing n with
  | zero => rfl
  | succ w ih => simp [bigEndian, ih]

lemma readBigEndian_snoc (l : Bytes) (b : Byte) :
    readBigEndian (l ++ [b]) = readBigEndian l * 256 + b.val := by
  simp [readBigEndian]

@[simp] lemma readBigEndian_bigEndian (w n : ℕ) : readBigEndian (bigEndian w n) = n % 256 ^ w := by
  induction w generalizing n with
  | zero => simp [bigEndian, readBigEndian, Nat.mod_one]
  | succ w ih =>
    rw [bigEndian, readBigEndian_snoc, ih, pow_succ, mul_comm (256 ^ w) 256, Nat.mod_mul]
    simp only [Fin.val_ofNat]
    ring

lemma readBigEndian_cons (b : Byte) (l : Bytes) :
    readBigEndian (b :: l) = b.val * 256 ^ l.length + readBigEndian l := by
  induction l using List.reverseRecOn with
  | nil => simp [readBigEndian]
  | append_singleton l c ih =>
    rw [← cons_append, readBigEndian_snoc, readBigEndian_snoc, ih]
    simp only [length_append, length_singleton, pow_succ]
    ring

lemma readBigEndian_lt (l : Bytes) : readBigEndian l < 256 ^ l.length := by
  induction l using List.reverseRecOn with
  | nil => simp [readBigEndian]
  | append_singleton l c ih =>
    rw [readBigEndian_snoc, length_append, length_singleton, pow_succ]
    omega

lemma lt_iff_readBigEndian_lt {l l' : Bytes} (h : l.length = l'.length) :
    l < l' ↔ readBigEndian l < readBigEndian l' := by
  induction l generalizing l' with
  | nil =>
    cases l' with
    | nil => simp
    | cons => simp at h
  | cons b l ih =>
    cases l' with
    | nil => simp at h
    | cons c l' =>
      have hlen : l.length = l'.length := by simpa using h
      rw [cons_lt_cons_iff, readBigEndian_cons, readBigEndian_cons, ih hlen, hlen,
        Fin.lt_def, Fin.ext_iff]
      have h₁ := readBigEndian_lt l
      have h₂ := readBigEndian_lt l'
      rw [hlen] at h₁
      generalize 256 ^ l'.length = p at *
      rcases lt_trichotomy b.val c.val with hbc | hbc | hbc
      · have : (b.val + 1) * p ≤ c.val * p := Nat.mul_le_mul_right p hbc
        grind
      · simp [hbc]
      · have : (c.val + 1) * p ≤ b.val * p := Nat.mul_le_mul_right p hbc
        grind

variable {w m n : ℕ}

lemma bigEndian_lt_iff (hm : m < 256 ^ w) (hn : n < 256 ^ w) : bigEndian w m < bigEndian w n ↔ m < n := by
  rw [lt_iff_readBigEndian_lt (by simp), readBigEndian_bigEndian, readBigEndian_bigEndian,
    Nat.mod_eq_of_lt hm, Nat.mod_eq_of_lt hn]

lemma bigEndian_readBigEndian (l : Bytes) : bigEndian l.length (readBigEndian l) = l := by
  induction l using List.reverseRecOn with
  | nil => rfl
  | append_singleton l c ih =>
    rw [length_append, length_singleton, readBigEndian_snoc, bigEndian]
    have hdiv : (readBigEndian l * 256 + c.val) / 256 = readBigEndian l := by omega
    have hmod : Fin.ofNat 256 (readBigEndian l * 256 + c.val) = c := by
      ext
      simp only [Fin.val_ofNat]
      omega
    rw [hdiv, hmod, ih]

lemma bigEndian_inj : bigEndian w m = bigEndian w n ↔ m % 256 ^ w = n % 256 ^ w := by
  constructor
  · intro h
    rw [← readBigEndian_bigEndian, h, readBigEndian_bigEndian]
  · intro h
    have hm := bigEndian_readBigEndian (bigEndian w m)
    have hn := bigEndian_readBigEndian (bigEndian w n)
    rw [bigEndian_length, readBigEndian_bigEndian] at hm hn
    rw [← hm, h, hn]

end Zelavis.Lib
