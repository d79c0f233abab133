import Zelavis.Lib.Ascending
import Zelavis.Lib.Bits

/-!
# Sets of identifiers

`postings.ts`: a set of identifiers as a sorted array or as a bitset, whichever is smaller.
-/

namespace Zelavis.Db

open Lib List

/-- A set of identifiers. Source: `Postings`. -/
inductive Postings where
  | array (ids : List ℕ)
  /-- A bitset over identifiers below `bound`, its universe. -/
  | bitset (words : List (BitVec 32)) (bound : ℕ)
  deriving DecidableEq

/-- The words of a bitset. Source: `wordsFor`. -/
def wordsFor (bound : ℕ) : List (BitVec 32) :=
  List.replicate ((bound + 31) % 0x100000000 / 32) 0

def test (words : List (BitVec 32)) (id : ℕ) : Bool :=
  (words.getD (id / 32) 0).getLsbD (id % 32)

def setWord (words : List (BitVec 32)) (id : ℕ) : List (BitVec 32) :=
  words.modify (id / 32) (· ||| BitVec.twoPow 32 (id % 32))

def clearWord (words : List (BitVec 32)) (id : ℕ) : List (BitVec 32) :=
  words.modify (id / 32) (· &&& ~~~ BitVec.twoPow 32 (id % 32))

/-- Source: `popcount`. -/
def popcountWords (words : List (BitVec 32)) : ℕ := (words.map fun w => popcount w.toNat).sum

def preferBitset (count bound : ℕ) : Bool := bound < count * 32

def int32 (n : ℕ) : ℤ :=
  if n % 0x100000000 < 0x80000000 then n % 0x100000000 else n % 0x100000000 - 0x100000000

/-- The identifiers of the set bits, in word order, the word offset being a signed shift. -/
def wordIds (words : List (BitVec 32)) : List ℤ :=
  words.zipIdx.flatMap fun w => (setBits w.1).map fun i : ℕ => int32 (w.2 * 32) + (i : ℤ)

/-- Binary search in `ids`, between `lo` and `hi`, with at most `fuel` probes. -/
def search (ids : List ℕ) (id : ℕ) : ℕ → ℕ → ℕ → Bool
  | 0, _, _ => false
  | fuel + 1, lo, hi =>
    if lo < hi then
      let mid := (lo + (hi - 1)) / 2
      let v := ids.getD mid 0
      if v = id then true
      else if v < id then search ids id fuel (mid + 1) hi
      else search ids id fuel lo mid
    else false

namespace Postings

/-- `empty`. -/
def empty : Postings := .array []

def size : Postings → ℕ
  | .array ids => ids.length
  | .bitset words _ => popcountWords words

def has : Postings → ℕ → Bool
  | .bitset words bound, id => id < bound && test words id
  | .array ids, id => search ids id ids.length 0 ids.length

end Postings

/-! ## Building -/

/-- Accumulates identifiers, then picks a representation. Source: `PostingsBuilder`. -/
structure PostingsBuilder where
  ids : List ℕ := []
  max : ℕ := 0

namespace PostingsBuilder

/-- Source: `PostingsBuilder.add`. -/
def add (builder : PostingsBuilder) (id : ℕ) : PostingsBuilder where
  ids := builder.ids ++ [id % 0x100000000]
  max := if builder.max < id then id else builder.max

/-- Source: `PostingsBuilder.build`. -/
def build (builder : PostingsBuilder) : Postings :=
  if builder.ids.length = 0 then .empty
  else
    let bound := builder.max + 1
    if preferBitset builder.ids.length bound then
      .bitset (builder.ids.foldl setWord (wordsFor bound)) bound
    else .array builder.ids

end PostingsBuilder

def buildPostings (ids : List ℕ) : Postings :=
  (ids.foldl PostingsBuilder.add {}).build

/-! ## Operations -/

namespace Postings

def toArray : Postings → Postings
  | .array ids => .array ids
  | .bitset words _ => .array ((wordIds words).map fun z => (z % 0x100000000).toNat)

def shape (words : List (BitVec 32)) (bound : ℕ) : Postings :=
  if preferBitset (popcountWords words) bound then .bitset words bound
  else toArray (.bitset words bound)

def and : Postings → Postings → Postings
  | .array ids, .bitset words bound =>
    .array (ids.filter fun id => id < bound && test words id)
  | .bitset words bound, .array ids =>
    .array (ids.filter fun id => id < bound && test words id)
  | .bitset a ua, .bitset b ub =>
    let bound := min ua ub
    shape ((List.range (wordsFor bound).length).map fun i => a.getD i 0 &&& b.getD i 0) bound
  | .array x, .array y => .array (mergeAnd x y)

/-- A dense side and a sparse one. Where the words of the union come out fewer than the dense
side's, past every identifier of 32 bits but the last few, the source throws and this drops them. -/
def orDense (words : List (BitVec 32)) (bound : ℕ) (ids : List ℕ) : Postings :=
  let all := max bound (ids.getLast?.elim 0 (· + 1))
  .bitset (ids.foldl setWord ((List.range (wordsFor all).length).map fun i => words.getD i 0)) all

def or : Postings → Postings → Postings
  | .bitset a ua, .bitset b ub =>
    let bound := max ua ub
    .bitset ((List.range (wordsFor bound).length).map fun i => a.getD i 0 ||| b.getD i 0)
      bound
  | .bitset words bound, .array ids => orDense words bound ids
  | .array ids, .bitset words bound => orDense words bound ids
  | .array x, .array y => .array (mergeOr x y)

def andNot (a b : Postings) : Postings :=
  if b.size = 0 then a
  else
    match a, b with
    | .bitset wa ua, .bitset wb _ =>
      shape ((List.range (wordsFor ua).length).map fun i => wa.getD i 0 &&& ~~~ wb.getD i 0) ua
    | .array ids, b => .array (ids.filter fun id => !b.has id)
    | .bitset words bound, .array ids =>
      shape ((ids.filter (· < bound)).foldl clearWord words) bound

/-- The identifiers handed out. Source: `iterate`. -/
def iterate : Postings → List ℤ
  | .array ids => ids.map Int.ofNat
  | .bitset words _ => wordIds words

/-- The loop of `andAll`: it stops at an empty set. -/
def andLoop : Postings → List Postings → Postings
  | acc, [] => acc
  | acc, run :: runs => if 0 < acc.size then andLoop (and acc run) runs else acc

def andAll (runs : List Postings) : Postings :=
  match runs.insertionSort fun a b => a.size ≤ b.size with
  | [] => .empty
  | run :: runs => andLoop run runs

def orAll : List Postings → Postings
  | [] => .empty
  | run :: runs => runs.foldl or run

/-! ## What a set holds -/

def Mem : Postings → ℕ → Prop
  | .array ids, id => id ∈ ids
  | .bitset words _, id => test words id

/-- What every set of identifiers below `2 ^ 31` keeps to. -/
def Valid : Postings → Prop
  | .array ids => Ascending ids ∧ ∀ id ∈ ids, id < 0x80000000
  | .bitset words bound => bound ≤ 0x80000000 ∧ words.length = (bound + 31) / 32 ∧
      ∀ id, test words id → id < bound

end Postings

/-- A list that is the set `S` in strictly ascending order. -/
def Enumerates (out : List ℤ) (S : ℕ → Prop) : Prop :=
  Ascending out ∧ ∀ z, z ∈ out ↔ ∃ id, S id ∧ z = (id : ℕ)

/-! ## Words -/

variable {bound : ℕ}

lemma wordsFor_length (h : bound ≤ 0x80000000) : (wordsFor bound).length = (bound + 31) / 32 := by
  rw [wordsFor, length_replicate, Nat.mod_eq_of_lt (by omega)]

@[simp] lemma setWord_length (words : List (BitVec 32)) (id : ℕ) :
    (setWord words id).length = words.length := by simp [setWord]

@[simp] lemma clearWord_length (words : List (BitVec 32)) (id : ℕ) :
    (clearWord words id).length = words.length := by simp [clearWord]

variable {words : List (BitVec 32)}

lemma test_setWord {id i : ℕ} (h : id < words.length * 32) :
    test (setWord words id) i = (decide (i = id) || test words i) := bitOf_set h

lemma test_clearWord {id i : ℕ} (h : id < words.length * 32) :
    test (clearWord words id) i = (decide (i ≠ id) && test words i) := bitOf_clear h

lemma test_replicate (n id : ℕ) : test (List.replicate n 0) id = false := by
  rw [test, getD_eq_getElem?_getD, List.getElem?_replicate]
  split_ifs <;> simp

lemma foldl_setWord_length (ids : List ℕ) (words : List (BitVec 32)) :
    (ids.foldl setWord words).length = words.length := by
  induction ids generalizing words with
  | nil => rfl
  | cons id ids ih => rw [foldl_cons, ih, setWord_length]

variable {ids : List ℕ}

lemma test_foldl_setWord (h : ∀ id ∈ ids, id < words.length * 32) (i : ℕ) :
    test (ids.foldl setWord words) i = (decide (i ∈ ids) || test words i) := by
  induction ids generalizing words with
  | nil => simp
  | cons id ids ih =>
    rw [foldl_cons, ih (by simpa using fun id hid => h id (by simp [hid])),
      test_setWord (h id (by simp)), ← Bool.or_assoc, ← Bool.decide_or]
    congr 1
    exact decide_eq_decide.2 (by rw [mem_cons, or_comm])

lemma foldl_clearWord_length (ids : List ℕ) (words : List (BitVec 32)) :
    (ids.foldl clearWord words).length = words.length := by
  induction ids generalizing words with
  | nil => rfl
  | cons id ids ih => rw [foldl_cons, ih, clearWord_length]

lemma test_foldl_clearWord (h : ∀ id ∈ ids, id < words.length * 32) (i : ℕ) :
    test (ids.foldl clearWord words) i = (decide (i ∉ ids) && test words i) := by
  induction ids generalizing words with
  | nil => simp
  | cons id ids ih =>
    rw [foldl_cons, ih (by simpa using fun id hid => h id (by simp [hid])),
      test_clearWord (h id (by simp)), ← Bool.and_assoc, ← Bool.decide_and]
    congr 1
    exact decide_eq_decide.2 (by rw [mem_cons, not_or, and_comm])

lemma test_map_range (f : ℕ → BitVec 32) (n id : ℕ) : test ((List.range n).map f) id =
      (decide (id / 32 < n) && (f (id / 32)).getLsbD (id % 32)) := by
  rw [test, getD_eq_getElem?_getD, List.getElem?_map]
  by_cases h : id / 32 < n
  · rw [List.getElem?_range h]
    simp [h]
  · rw [List.getElem?_eq_none (by simpa using h)]
    simp [h]

/-! ## Sizes and listings -/

lemma popcount_toNat (w : BitVec 32) : popcount w.toNat = (setBits w).length := by
  rw [popcount_eq w.isLt, setBits_eq, ← countP_eq_length_filter]
  rfl

lemma popcountWords_eq_zero_iff : popcountWords words = 0 ↔ ∀ id, test words id = false := by
  rw [popcountWords, List.sum_eq_zero_iff_forall_eq_nat]
  simp only [List.mem_map, forall_exists_index, and_imp, forall_apply_eq_imp_iff₂, popcount_toNat,
    length_eq_zero_iff]
  constructor
  · intro h id
    rw [test]
    by_cases hlt : id / 32 < words.length
    · rw [getD_eq_getElem?_getD, List.getElem?_eq_getElem hlt, Option.getD_some]
      by_contra hset
      have hmem := mem_setBits.2 (by simpa using hset)
      rw [h _ (getElem_mem hlt)] at hmem
      exact absurd hmem not_mem_nil
    · rw [getD_eq_getElem?_getD, List.getElem?_eq_none (by omega)]
      simp
  · intro h w hw
    obtain ⟨i, hi, rfl⟩ := mem_iff_getElem.1 hw
    refine eq_nil_iff_forall_not_mem.2 fun j hj => ?_
    have hset := mem_setBits.1 hj
    have hj32 := BitVec.lt_of_getLsbD hset
    have := h (i * 32 + j)
    rw [test, show (i * 32 + j) / 32 = i by omega, show (i * 32 + j) % 32 = j by omega,
      getD_eq_getElem?_getD, List.getElem?_eq_getElem hi, Option.getD_some, hset] at this
    exact Bool.noConfusion this

lemma int32_of_lt {n : ℕ} (h : n < 0x80000000) : int32 n = n := by
  rw [int32, Nat.mod_eq_of_lt (by omega), if_pos h]
  omega

lemma enumerates_words (words : List (BitVec 32)) (start : ℕ)
    (h : (start + words.length) * 32 ≤ 0x80000000) : Enumerates ((words.zipIdx start).flatMap fun w =>
        (setBits w.1).map fun i : ℕ => int32 (w.2 * 32) + (i : ℤ))
      fun id => start * 32 ≤ id ∧ test words (id - start * 32) := by
  induction words generalizing start with
  | nil => exact ⟨Ascending.nil, by simp [test]⟩
  | cons w words ih =>
    obtain ⟨hasc, hmem⟩ := ih (start + 1) (by rw [length_cons] at h; omega)
    rw [length_cons] at h
    rw [zipIdx_cons, flatMap_cons, int32_of_lt (by omega)]
    have hhead : ∀ z, z ∈ (setBits w).map (fun i : ℕ => ((start * 32 : ℕ) : ℤ) + i) ↔
        ∃ i : ℕ, w.getLsbD i ∧ z = (start * 32 + i : ℕ) := by
      intro z
      simp only [List.mem_map, mem_setBits]
      constructor
      · rintro ⟨i, hi, rfl⟩
        exact ⟨i, hi, by push_cast; rfl⟩
      · rintro ⟨i, hi, rfl⟩
        exact ⟨i, hi, by push_cast; rfl⟩
    refine ⟨pairwise_append.2 ⟨?_, hasc, ?_⟩, fun z => ?_⟩
    · exact (show Ascending (setBits w) from setBits_sorted w).map fun i j hij => by
        simpa using hij
    · intro x hx y hy
      obtain ⟨i, hi, rfl⟩ := (hhead x).1 hx
      obtain ⟨id, ⟨hle, -⟩, rfl⟩ := (hmem y).1 hy
      have := BitVec.lt_of_getLsbD hi
      omega
    · rw [mem_append, hhead, hmem]
      constructor
      · rintro (⟨i, hi, rfl⟩ | ⟨id, ⟨hle, hset⟩, rfl⟩)
        · have := BitVec.lt_of_getLsbD hi
          refine ⟨_, ⟨by omega, ?_⟩, rfl⟩
          rw [Nat.add_sub_cancel_left, test, Nat.div_eq_of_lt this, Nat.mod_eq_of_lt this]
          simpa using hi
        · refine ⟨id, ⟨by omega, ?_⟩, rfl⟩
          obtain ⟨k, rfl⟩ : ∃ k, id = (start + 1) * 32 + k := ⟨id - (start + 1) * 32, by omega⟩
          rw [Nat.add_sub_cancel_left, test] at hset
          rw [show (start + 1) * 32 + k - start * 32 = k + 32 by omega, test,
            Nat.add_div_right _ (by norm_num), Nat.add_mod_right]
          simpa using hset
      · rintro ⟨id, ⟨hle, hset⟩, rfl⟩
        obtain ⟨k, rfl⟩ : ∃ k, id = start * 32 + k := ⟨id - start * 32, by omega⟩
        rw [Nat.add_sub_cancel_left, test] at hset
        rcases lt_or_ge k 32 with hk | hk
        · rw [Nat.div_eq_of_lt hk, Nat.mod_eq_of_lt hk] at hset
          exact .inl ⟨k, by simpa using hset, rfl⟩
        · obtain ⟨j, rfl⟩ : ∃ j, k = j + 32 := ⟨k - 32, by omega⟩
          refine .inr ⟨_, ⟨by omega, ?_⟩, rfl⟩
          rw [show start * 32 + (j + 32) - (start + 1) * 32 = j by omega, test]
          simpa using hset

lemma enumerates_wordIds (words : List (BitVec 32)) (h : words.length * 32 ≤ 0x80000000) :
    Enumerates (wordIds words) fun id => test words id := by
  have := enumerates_words words 0 (by omega)
  simpa [wordIds] using this

lemma search_iff (hids : Ascending ids) (id fuel lo hi : ℕ)
    (hfuel : hi - lo ≤ fuel) (hhi : hi ≤ ids.length) :
    search ids id fuel lo hi ↔ ∃ i, lo ≤ i ∧ i < hi ∧ ids[i]? = some id := by
  induction fuel generalizing lo hi with
  | zero =>
    simp only [search, Bool.false_eq_true, false_iff, not_exists, not_and]
    intro i h₁ h₂
    omega
  | succ fuel ih =>
    rw [search]
    split_ifs with hlt
    · set mid := (lo + (hi - 1)) / 2 with hmid
      have hmlt : mid < ids.length := by omega
      have hget : ids[mid]? = some ids[mid] := List.getElem?_eq_getElem hmlt
      have hmono : ∀ {i j : ℕ} (hi : i < ids.length) (hj : j < ids.length), i < j →
          ids[i] < ids[j] := fun hi hj hij => pairwise_iff_getElem.1 hids _ _ hi hj hij
      simp only [getD_eq_getElem?_getD, hget, Option.getD_some]
      split_ifs with hv hv'
      · exact iff_of_true rfl ⟨mid, by omega, by omega, by rw [hget, hv]⟩
      · rw [ih _ _ (by omega) hhi]
        constructor
        · rintro ⟨i, h₁, h₂, h₃⟩
          exact ⟨i, by omega, h₂, h₃⟩
        · rintro ⟨i, h₁, h₂, h₃⟩
          refine ⟨i, ?_, h₂, h₃⟩
          by_contra hle
          obtain ⟨hil, rfl⟩ := List.getElem?_eq_some_iff.1 h₃
          rcases Nat.lt_or_ge i mid with him | him
          · exact absurd (hmono hil hmlt him) (by omega)
          · obtain rfl : i = mid := by omega
            exact hv rfl
      · rw [ih _ _ (by omega) (by omega)]
        constructor
        · rintro ⟨i, h₁, h₂, h₃⟩
          exact ⟨i, h₁, by omega, h₃⟩
        · rintro ⟨i, h₁, h₂, h₃⟩
          refine ⟨i, h₁, ?_, h₃⟩
          by_contra hle
          obtain ⟨hil, rfl⟩ := List.getElem?_eq_some_iff.1 h₃
          rcases Nat.lt_or_ge mid i with him | him
          · exact absurd (hmono hmlt hil him) (by omega)
          · obtain rfl : i = mid := by omega
            exact hv rfl
    · refine iff_of_false (by simp) ?_
      rintro ⟨i, h₁, h₂, -⟩
      omega

namespace Postings

variable {a b p : Postings} {id : ℕ}

lemma Valid.lt (h : p.Valid) (hid : p.Mem id) : id < 0x80000000 := by
  cases p with
  | array ids => exact h.2 id hid
  | bitset words bound => exact (h.2.2 id hid).trans_le h.1

lemma Valid.has_iff (h : p.Valid) : p.has id ↔ p.Mem id := by
  cases p with
  | array ids =>
    rw [has, search_iff h.1 _ _ _ _ (by omega) le_rfl, Mem, mem_iff_getElem?]
    exact ⟨fun ⟨i, _, _, hi⟩ => ⟨i, hi⟩, fun ⟨i, hi⟩ =>
      ⟨i, Nat.zero_le i, (List.getElem?_eq_some_iff.1 hi).1, hi⟩⟩
  | bitset words bound =>
    rw [has, Bool.and_eq_true, decide_eq_true_eq]
    exact and_iff_right_of_imp (h.2.2 id)

lemma size_eq_zero_iff : p.size = 0 ↔ ∀ id, ¬ p.Mem id := by
  cases p with
  | array ids => simp [size, Mem, eq_nil_iff_forall_not_mem]
  | bitset words bound => simp [size, Mem, popcountWords_eq_zero_iff]

lemma empty_valid : empty.Valid := ⟨Ascending.nil, by simp⟩

lemma not_mem_empty : ¬ empty.Mem id := not_mem_nil

lemma Valid.iterate_enumerates (h : p.Valid) : Enumerates p.iterate p.Mem := by
  cases p with
  | array ids =>
    refine ⟨h.1.map fun i j hij => by simpa using hij, fun z => ?_⟩
    rw [iterate, List.mem_map]
    exact ⟨fun ⟨id, hid, hz⟩ => ⟨id, hid, hz.symm⟩, fun ⟨id, hid, hz⟩ => ⟨id, hid, hz.symm⟩⟩
  | bitset words bound =>
    have := h.1
    exact enumerates_wordIds words (by rw [h.2.1]; omega)

lemma Valid.toArray (h : p.Valid) : p.toArray.Valid ∧ ∀ id, p.toArray.Mem id ↔ p.Mem id := by
  cases p with
  | array ids => exact ⟨h, fun _ => Iff.rfl⟩
  | bitset words bound =>
    obtain ⟨hasc, hmem⟩ := enumerates_wordIds words
      (by have := h.1; rw [h.2.1]; omega)
    have hlt : ∀ id, test words id → id < 0x80000000 := fun id hid =>
      Valid.lt (p := .bitset words bound) h hid
    have hback : ∀ z ∈ wordIds words, ((z % 0x100000000).toNat : ℤ) = z := by
      intro z hz
      obtain ⟨id, hid, rfl⟩ := (hmem z).1 hz
      have := hlt id hid
      omega
    have hmem' : ∀ id, id ∈ (wordIds words).map (fun z => (z % 0x100000000).toNat) ↔ test words id := by
      intro id
      rw [List.mem_map]
      constructor
      · rintro ⟨z, hz, rfl⟩
        obtain ⟨id, hid, he⟩ := (hmem z).1 hz
        have := hback z hz
        rwa [show (z % 0x100000000).toNat = id by omega]
      · intro hid
        have hz := (hmem id).2 ⟨id, hid, rfl⟩
        exact ⟨id, hz, by have := hback _ hz; omega⟩
    refine ⟨⟨?_, fun id hid => hlt id ((hmem' id).1 hid)⟩, hmem'⟩
    refine pairwise_map.2 (hasc.imp_of_mem fun {x y} hx hy hxy => ?_)
    have := hback x hx
    have := hback y hy
    omega

lemma shape_valid (h : (bitset words bound).Valid) :
    (shape words bound).Valid ∧ ∀ id, (shape words bound).Mem id ↔ test words id := by
  rw [shape]
  split_ifs
  · exact ⟨h, fun _ => Iff.rfl⟩
  · exact h.toArray

/-! ## The operations on valid sets -/

lemma filter_valid (h : (array ids).Valid) (keep : ℕ → Bool) : (array (ids.filter keep)).Valid :=
  ⟨h.1.filter keep, fun id hid => h.2 id (mem_of_mem_filter hid)⟩

/-- A word-by-word operation on two bitsets is a bitset over the identifiers it is computed for,
when it sets no bit that neither has. -/
theorem bitset_valid (f : ℕ → BitVec 32) (bound : ℕ) (hb : bound ≤ 0x80000000)
    (hf : ∀ id, (f (id / 32)).getLsbD (id % 32) → id < bound) :
    (bitset ((List.range (wordsFor bound).length).map f) bound).Valid ∧
      ∀ id, test ((List.range (wordsFor bound).length).map f) id = (f (id / 32)).getLsbD (id % 32) := by
  have htest : ∀ id, test ((List.range (wordsFor bound).length).map f) id =
      (f (id / 32)).getLsbD (id % 32) := by
    intro id
    rw [test_map_range, wordsFor_length hb]
    by_cases hset : (f (id / 32)).getLsbD (id % 32)
    · have := hf id hset
      simp [show id / 32 < (bound + 31) / 32 by omega]
    · simp [hset]
  refine ⟨⟨hb, ?_, fun id hid => hf id (by rwa [← htest])⟩, htest⟩
  rw [length_map, length_range, wordsFor_length hb]

lemma Valid.and (ha : a.Valid) (hb : b.Valid) :
    (and a b).Valid ∧ ∀ id, (and a b).Mem id ↔ a.Mem id ∧ b.Mem id := by
  cases a with
  | array x =>
    cases b with
    | array y =>
      refine ⟨⟨mergeAnd_ascending ha.1 hb.1, fun id hid => ?_⟩, mem_mergeAnd ha.1 hb.1⟩
      exact ha.2 id ((mem_mergeAnd ha.1 hb.1 id).1 hid).1
    | bitset words bound =>
      refine ⟨filter_valid ha _, fun id => ?_⟩
      simp only [Postings.and, Mem, mem_filter, Bool.and_eq_true, decide_eq_true_eq]
      exact and_congr_right fun _ => and_iff_right_of_imp (hb.2.2 id)
  | bitset words bound =>
    cases b with
    | array y =>
      refine ⟨filter_valid hb _, fun id => ?_⟩
      simp only [Postings.and, Mem, mem_filter, Bool.and_eq_true, decide_eq_true_eq]
      rw [and_comm]
      exact and_congr_left fun _ => and_iff_right_of_imp (ha.2.2 id)
    | bitset words' bound' =>
      obtain ⟨hv, htest⟩ := bitset_valid (fun i => words.getD i 0 &&& words'.getD i 0)
        (min bound bound') (by have := ha.1; omega) (by
          intro id hid
          rw [BitVec.getLsbD_and, Bool.and_eq_true] at hid
          exact lt_min (ha.2.2 id hid.1) (hb.2.2 id hid.2))
      refine ⟨(shape_valid hv).1, fun id => ((shape_valid hv).2 id).trans ?_⟩
      rw [htest, BitVec.getLsbD_and, Bool.and_eq_true]
      rfl

lemma orDense_valid (ha : (bitset words bound).Valid) (hb : (array ids).Valid) :
    (orDense words bound ids).Valid ∧ ∀ id, (orDense words bound ids).Mem id ↔ test words id ∨ id ∈ ids := by
  rw [orDense]
  set all := max bound (ids.getLast?.elim 0 (· + 1)) with hall
  have hlast : ∀ id ∈ ids, id < all := by
    intro id hid
    obtain ⟨l, x, rfl⟩ : ∃ l x, ids = l ++ [x] :=
      ⟨_, _, (dropLast_append_getLast (ne_nil_of_mem hid)).symm⟩
    rw [List.getLast?_concat, Option.elim_some] at hall
    rcases mem_append.1 hid with hid | hid
    · have := (pairwise_append.1 hb.1).2.2 id hid x (by simp)
      omega
    · obtain rfl := mem_singleton.1 hid
      omega
  have hble : all ≤ 0x80000000 := by
    refine max_le ha.1 ?_
    rcases hl : ids.getLast? with _ | x
    · exact Nat.zero_le _
    · exact hb.2 x (mem_of_getLast? hl)
  obtain ⟨hv, htest⟩ := bitset_valid (fun i => words.getD i 0) _ hble
    fun id hid => (ha.2.2 id hid).trans_le (le_max_left _ _)
  set base := (List.range (wordsFor all).length).map fun i => words.getD i 0 with hbase
  have hlen : base.length = (all + 31) / 32 := hv.2.1
  have hset : ∀ id, test (ids.foldl setWord base) id = (decide (id ∈ ids) || test words id) := by
    intro id
    rw [test_foldl_setWord (fun id hid => by have := hlast id hid; omega), htest]
    rfl
  refine ⟨⟨hble, by rw [foldl_setWord_length, hlen], fun id hid => ?_⟩, fun id => ?_⟩
  · rw [hset, Bool.or_eq_true, decide_eq_true_eq] at hid
    rcases hid with hid | hid
    · exact hlast id hid
    · exact (ha.2.2 id hid).trans_le (le_max_left _ _)
  · rw [Mem, hset, Bool.or_eq_true, decide_eq_true_eq, or_comm]

lemma Valid.or (ha : a.Valid) (hb : b.Valid) :
    (or a b).Valid ∧ ∀ id, (or a b).Mem id ↔ a.Mem id ∨ b.Mem id := by
  cases a with
  | array x =>
    cases b with
    | array y =>
      refine ⟨⟨mergeOr_ascending ha.1 hb.1, fun id hid => ?_⟩, mem_mergeOr⟩
      rcases (mem_mergeOr id).1 hid with hid | hid
      · exact ha.2 id hid
      · exact hb.2 id hid
    | bitset words bound =>
      obtain ⟨hv, hmem⟩ := orDense_valid hb ha
      exact ⟨hv, fun id => (hmem id).trans or_comm⟩
  | bitset words bound =>
    cases b with
    | array y => exact orDense_valid ha hb
    | bitset words' bound' =>
      obtain ⟨hv, htest⟩ := bitset_valid (fun i => words.getD i 0 ||| words'.getD i 0)
        (max bound bound') (max_le ha.1 hb.1) (by
          intro id hid
          rw [BitVec.getLsbD_or, Bool.or_eq_true] at hid
          exact hid.elim (fun h => (ha.2.2 id h).trans_le (le_max_left _ _))
            fun h => (hb.2.2 id h).trans_le (le_max_right _ _))
      refine ⟨hv, fun id => ?_⟩
      rw [Postings.or, Mem, htest, BitVec.getLsbD_or, Bool.or_eq_true]
      rfl

lemma Valid.andNot (ha : a.Valid) (hb : b.Valid) :
    (andNot a b).Valid ∧ ∀ id, (andNot a b).Mem id ↔ a.Mem id ∧ ¬ b.Mem id := by
  unfold Postings.andNot
  split_ifs with h0
  · exact ⟨ha, fun id => (and_iff_left (size_eq_zero_iff.1 h0 id)).symm⟩
  · cases a with
    | array x =>
      refine ⟨filter_valid ha _, fun id => ?_⟩
      rw [Mem, mem_filter, Bool.not_eq_true', ← Bool.not_eq_true, hb.has_iff]
      rfl
    | bitset words bound =>
      cases b with
      | array y =>
        have hlt : ∀ id ∈ y.filter (· < bound), id < words.length * 32 := by
          intro id hid
          have := (mem_filter.1 hid).2
          rw [decide_eq_true_eq] at this
          rw [ha.2.1]
          omega
        have htest := test_foldl_clearWord hlt
        have hv : (bitset ((y.filter (· < bound)).foldl clearWord words) bound).Valid := by
          refine ⟨ha.1, by rw [foldl_clearWord_length, ha.2.1], fun id hid => ?_⟩
          rw [htest, Bool.and_eq_true] at hid
          exact ha.2.2 id hid.2
        refine ⟨(shape_valid hv).1, fun id => ((shape_valid hv).2 id).trans ?_⟩
        rw [htest, Bool.and_eq_true, decide_eq_true_eq, mem_filter, decide_eq_true_eq, and_comm]
        exact and_congr_right fun hid => not_congr (and_iff_left (ha.2.2 id hid))
      | bitset words' bound' =>
        obtain ⟨hv, htest⟩ := bitset_valid (fun i => words.getD i 0 &&& ~~~ words'.getD i 0)
          bound ha.1 (by
            intro id hid
            rw [BitVec.getLsbD_and, Bool.and_eq_true] at hid
            exact ha.2.2 id hid.1)
        refine ⟨(shape_valid hv).1, fun id => ((shape_valid hv).2 id).trans ?_⟩
        rw [htest, BitVec.getLsbD_and, BitVec.getLsbD_not, Bool.and_eq_true, Bool.and_eq_true,
          decide_eq_true_eq, and_iff_right (Nat.mod_lt id (by norm_num)), Bool.not_eq_true',
          ← Bool.not_eq_true]
        rfl

/-! ## Any number of sets -/

/-- A kind of sets that intersections and unions stay within, holding what the two sets had in
common or together. -/
structure Lawful (Good : Postings → Prop) : Prop where
  empty : Good empty
  and {a b : Postings} : Good a → Good b → Good (and a b) ∧ ∀ id, (and a b).Mem id ↔ a.Mem id ∧ b.Mem id
  or {a b : Postings} : Good a → Good b → Good (or a b) ∧ ∀ id, (or a b).Mem id ↔ a.Mem id ∨ b.Mem id

lemma valid_lawful : Lawful Valid := ⟨empty_valid, Valid.and, Valid.or⟩

section

variable {Good : Postings → Prop} {runs : List Postings}

lemma Lawful.andLoop (h : Lawful Good) (ha : Good a) (hruns : ∀ p ∈ runs, Good p) : Good (andLoop a runs) ∧
      ∀ id, (Postings.andLoop a runs).Mem id ↔ a.Mem id ∧ ∀ p ∈ runs, p.Mem id := by
  induction runs generalizing a with
  | nil => exact ⟨ha, by simp [Postings.andLoop]⟩
  | cons run runs ih =>
    rw [Postings.andLoop]
    split_ifs with hsize
    · obtain ⟨hv, hmem⟩ := h.and ha (hruns run (by simp))
      obtain ⟨hv', hmem'⟩ := ih hv fun p hp => hruns p (by simp [hp])
      refine ⟨hv', fun id => ?_⟩
      rw [hmem', hmem, forall_mem_cons, and_assoc]
    · have hnone := size_eq_zero_iff.1 (Nat.eq_zero_of_not_pos hsize)
      exact ⟨ha, fun id => ⟨fun hid => absurd hid (hnone id), fun hid => hid.1⟩⟩

lemma Lawful.andAll (h : Lawful Good) (hruns : ∀ p ∈ runs, Good p) : Good (andAll runs) ∧
      ∀ id, (Postings.andAll runs).Mem id ↔ runs ≠ [] ∧ ∀ p ∈ runs, p.Mem id := by
  rw [Postings.andAll]
  have hmem : ∀ p, p ∈ runs.insertionSort (fun a b => a.size ≤ b.size) ↔ p ∈ runs :=
    fun p => mem_insertionSort _
  cases hs : runs.insertionSort (fun a b => a.size ≤ b.size) with
  | nil =>
    rw [hs] at hmem
    have hnil : runs = [] := eq_nil_iff_forall_not_mem.2 fun p hp => by
      simpa using (hmem p).2 hp
    exact ⟨h.empty, fun id => by simp [hnil, not_mem_empty]⟩
  | cons run rest =>
    rw [hs] at hmem
    have hrest : ∀ p ∈ rest, Good p := fun p hp => hruns p ((hmem p).1 (by simp [hp]))
    obtain ⟨hv, hall⟩ := h.andLoop (hruns run ((hmem run).1 (by simp))) hrest
    refine ⟨hv, fun id => (hall id).trans ?_⟩
    rw [← forall_mem_cons (p := fun p => Mem p id)]
    have hne : runs ≠ [] := ne_nil_of_mem ((hmem run).1 (by simp))
    exact ⟨fun hm => ⟨hne, fun p hp => hm p ((hmem p).2 hp)⟩, fun hm p hp => hm.2 p ((hmem p).1 hp)⟩

lemma Lawful.foldl_or (h : Lawful Good) (ha : Good a) (hruns : ∀ p ∈ runs, Good p) :
    Good (runs.foldl Postings.or a) ∧
      ∀ id, (runs.foldl Postings.or a).Mem id ↔ a.Mem id ∨ ∃ p ∈ runs, p.Mem id := by
  induction runs generalizing a with
  | nil => exact ⟨ha, by simp⟩
  | cons run runs ih =>
    obtain ⟨hv, hmem⟩ := h.or ha (hruns run (by simp))
    obtain ⟨hv', hmem'⟩ := ih hv fun p hp => hruns p (by simp [hp])
    refine ⟨hv', fun id => ?_⟩
    rw [foldl_cons, hmem', hmem, or_assoc]
    simp

lemma Lawful.orAll (h : Lawful Good) (hruns : ∀ p ∈ runs, Good p) :
    Good (orAll runs) ∧ ∀ id, (Postings.orAll runs).Mem id ↔ ∃ p ∈ runs, p.Mem id := by
  cases runs with
  | nil => exact ⟨h.empty, by simp [Postings.orAll, not_mem_empty]⟩
  | cons run runs =>
    have hrest : ∀ p ∈ runs, Good p := fun p hp => hruns p (by simp [hp])
    obtain ⟨hv, hmem⟩ := h.foldl_or (hruns run (by simp)) hrest
    exact ⟨hv, fun id => (hmem id).trans (by simp)⟩

end

end Postings

/-! ## Building valid sets -/

lemma foldl_add (ids : List ℕ) (builder : PostingsBuilder) (h : ∀ id ∈ ids, id < 0x100000000) :
    (ids.foldl PostingsBuilder.add builder).ids = builder.ids ++ ids ∧
      (ids.foldl PostingsBuilder.add builder).max = ids.foldl max builder.max := by
  induction ids generalizing builder with
  | nil => simp
  | cons id ids ih =>
    obtain ⟨h₁, h₂⟩ := ih (builder.add id) fun i hi => h i (by simp [hi])
    rw [foldl_cons, foldl_cons, h₁, h₂, PostingsBuilder.add, Nat.mod_eq_of_lt (h id (by simp))]
    refine ⟨by simp, ?_⟩
    congr 1
    dsimp only
    split_ifs <;> omega

def Buildable (ids : List ℕ) : Prop :=
  Ascending ids ∨ preferBitset ids.length (ids.foldl max 0 + 1)

instance (ids : List ℕ) : Decidable (Buildable ids) :=
  inferInstanceAs (Decidable (_ ∨ _))

lemma le_foldl_max {m id : ℕ} (h : id ∈ ids ∨ id ≤ m) : id ≤ ids.foldl max m := by
  induction ids generalizing m with
  | nil => simpa using h
  | cons i ids ih =>
    refine ih ?_
    rcases h with h | h
    · rcases mem_cons.1 h with rfl | h
      · exact .inr (le_max_right _ _)
      · exact .inl h
    · exact .inr (h.trans (le_max_left _ _))

lemma foldl_max_lt {m n : ℕ} (hm : m < n) (h : ∀ id ∈ ids, id < n) : ids.foldl max m < n := by
  induction ids generalizing m with
  | nil => exact hm
  | cons i ids ih =>
    exact ih (max_lt hm (h i (by simp))) fun id hid => h id (by simp [hid])

lemma dense_valid (hlt : ∀ id ∈ ids, id < 0x80000000) :
    (Postings.bitset (ids.foldl setWord (wordsFor (ids.foldl max 0 + 1))) (ids.foldl max 0 + 1)).Valid ∧
      ∀ id, (Postings.bitset (ids.foldl setWord (wordsFor (ids.foldl max 0 + 1)))
        (ids.foldl max 0 + 1)).Mem id ↔ id ∈ ids := by
  set bound := ids.foldl max 0 + 1 with hbound
  have hble : bound ≤ 0x80000000 := foldl_max_lt (by norm_num) hlt
  have hid : ∀ id ∈ ids, id < bound := fun id hid =>
    Nat.lt_succ_of_le (le_foldl_max (.inl hid))
  have htest : ∀ id, test (ids.foldl setWord (wordsFor bound)) id = decide (id ∈ ids) := by
    intro id
    rw [test_foldl_setWord, wordsFor, test_replicate, Bool.or_false]
    intro id hmem
    rw [wordsFor_length hble]
    have := hid id hmem
    omega
  refine ⟨⟨hble, by rw [foldl_setWord_length, wordsFor_length hble], fun id hmem => ?_⟩, fun id => ?_⟩
  · rw [htest, decide_eq_true_eq] at hmem
    exact hid id hmem
  · rw [Postings.Mem, htest, decide_eq_true_eq]

lemma build_valid (hlt : ∀ id ∈ ids, id < 0x80000000) (h : Buildable ids) :
    (buildPostings ids).Valid ∧ ∀ id, (buildPostings ids).Mem id ↔ id ∈ ids := by
  obtain ⟨hids, hmax⟩ := foldl_add ids {} fun id hid => by have := hlt id hid; omega
  rw [buildPostings, PostingsBuilder.build, hids, hmax, nil_append]
  dsimp only
  split_ifs with h0 hdense
  · have hnil := length_eq_zero_iff.1 h0
    exact ⟨Postings.empty_valid, fun id => by simp [hnil, Postings.not_mem_empty]⟩
  · exact dense_valid hlt
  · exact ⟨⟨h.resolve_right hdense, hlt⟩, fun _ => Iff.rfl⟩

end Zelavis.Db
