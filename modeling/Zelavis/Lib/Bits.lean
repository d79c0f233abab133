import Mathlib.Data.Nat.Bitwise
import Mathlib.Data.List.Sort
import Mathlib.Tactic.IntervalCases
import Mathlib.Tactic.Ring

/-!
# The set bits of a machine word

* `setBits x` — the positions of the set bits of `x`, found by isolating and clearing the lowest
  one until none is left.
* `popcount v` — the number of set bits of a 32-bit word by parallel addition of neighbouring
  fields.
-/

namespace Zelavis.Lib

open List

/-! ## Lowest set bit first -/

def lowestBit {w : ℕ} (x : BitVec w) : BitVec w := x &&& -x

/-- The set bits of a word from the lowest on, at most `fuel` of them. -/
def setBitsFrom {w : ℕ} : ℕ → BitVec w → List ℕ
  | 0, _ => []
  | fuel + 1, x =>
    if x = 0 then [] else (lowestBit x).toNat.log2 :: setBitsFrom fuel (x ^^^ lowestBit x)

def setBits {w : ℕ} (x : BitVec w) : List ℕ := setBitsFrom w x

lemma lowestBit_eq {w k : ℕ} {x : BitVec w} (hk : x.getLsbD k = true)
    (hlow : ∀ j < k, x.getLsbD j = false) : lowestBit x = BitVec.twoPow w k := by
  have hkw : k < w := BitVec.lt_of_getLsbD hk
  refine BitVec.eq_of_getLsbD_eq fun i hi => ?_
  rw [lowestBit, BitVec.getLsbD_and, BitVec.getLsbD_neg, BitVec.getLsbD_twoPow]
  rcases lt_trichotomy i k with h | rfl | h
  · simp [hlow i h, h.ne']
  · have hnone : ¬ ∃ j < i, x.getLsbD j = true := by
      rintro ⟨j, hj, hx⟩
      simp [hlow j hj] at hx
    simp [hk, hkw, hnone]
  · have hsome : ∃ j < i, x.getLsbD j = true := ⟨k, h, hk⟩
    simp [hi, hsome, h.ne]

lemma setBitsFrom_eq {w fuel : ℕ} {x : BitVec w} (hx : ∀ i < w - fuel, x.getLsbD i = false) :
    setBitsFrom fuel x = (List.range w).filter fun i => x.getLsbD i := by
  induction fuel generalizing x with
  | zero =>
    refine (filter_eq_nil_iff.2 fun i hi => ?_).symm
    simp [hx i (by simpa using hi)]
  | succ fuel ih =>
    rw [setBitsFrom]
    split_ifs with h0
    · simp [h0]
    · -- the lowest set bit `k`: nothing below it, and clearing it leaves the rest
      have hex : ∃ k, x.getLsbD k = true := by
        by_contra hno
        push Not at hno
        exact h0 (BitVec.eq_of_getLsbD_eq fun i _ => by simpa using hno i)
      obtain ⟨k, hk, hlow⟩ : ∃ k, x.getLsbD k = true ∧ ∀ j < k, x.getLsbD j = false :=
        ⟨Nat.find hex, Nat.find_spec hex, fun j hj => by simpa using Nat.find_min hex hj⟩
      have hkw : k < w := BitVec.lt_of_getLsbD hk
      rw [lowestBit_eq hk hlow, BitVec.toNat_twoPow, Nat.mod_eq_of_lt (Nat.pow_lt_pow_right
        (by norm_num) hkw), Nat.log2_two_pow]
      have hclear : ∀ i, (x ^^^ BitVec.twoPow w k).getLsbD i = (x.getLsbD i && decide (i ≠ k)) := by
        intro i
        rcases eq_or_ne i k with rfl | hik
        · simp [hk, hkw]
        · simp [hik, hik.symm]
      rw [ih]
      · have hsplit : List.range w = List.range k ++ k :: List.range' (k + 1) (w - (k + 1)) := by
          rw [range_eq_range', range_eq_range', ← range'_succ,
            show w - (k + 1) + 1 = w - k by omega]
          have happ := @range'_append_1 0 k (w - k)
          rw [Nat.zero_add] at happ
          rw [happ, show k + (w - k) = w by omega]
        simp only [hclear, hsplit, filter_append, filter_cons, hk, if_true]
        have hbelow : (List.range k).filter (fun i => x.getLsbD i) = [] :=
          filter_eq_nil_iff.2 fun i hi => by simp [hlow i (by simpa using hi)]
        have hbelow' : (List.range k).filter (fun i => x.getLsbD i && decide (i ≠ k)) = [] :=
          filter_eq_nil_iff.2 fun i hi => by simp [hlow i (by simpa using hi)]
        have habove : (List.range' (k + 1) (w - (k + 1))).filter
            (fun i => x.getLsbD i && decide (i ≠ k)) =
            (List.range' (k + 1) (w - (k + 1))).filter fun i => x.getLsbD i := by
          refine filter_congr fun i hi => ?_
          have := (mem_range'_1.1 hi).1
          simp [show i ≠ k by omega]
        rw [hbelow, hbelow', habove]
        simp
      · intro i hi
        rw [hclear]
        by_cases hik : i = k
        · simp [hik]
        · have hle : w - (fuel + 1) ≤ k := by
            by_contra hlt
            simp [hx k (by omega)] at hk
          simp [hlow i (by omega)]

lemma setBits_eq {w : ℕ} (x : BitVec w) : setBits x = (List.range w).filter fun i => x.getLsbD i :=
  setBitsFrom_eq (by simp)

@[simp] lemma mem_setBits {w i : ℕ} {x : BitVec w} : i ∈ setBits x ↔ x.getLsbD i = true := by
  rw [setBits_eq, mem_filter, mem_range]
  exact and_iff_right_of_imp BitVec.lt_of_getLsbD

lemma setBits_sorted {w : ℕ} (x : BitVec w) : (setBits x).Pairwise (· < ·) := by
  rw [setBits_eq]
  exact pairwise_lt_range.filter _

/-! ## Counting set bits -/

def popcount (v : ℕ) : ℕ :=
  let v := v - ((v >>> 1) &&& 0x55555555)
  let v := (v &&& 0x33333333) + ((v >>> 2) &&& 0x33333333)
  (((v + (v >>> 4)) &&& 0x0f0f0f0f) * 0x01010101 % 0x100000000) >>> 24

/-- The number with the given hexadecimal digits, least significant first. -/
def nibbles : List ℕ → ℕ
  | [] => 0
  | h :: hs => h + 16 * nibbles hs

lemma and_nibble {a m : ℕ} (ha : a < 16) (hm : m < 16) (x y : ℕ) :
    (a + 16 * x) &&& (m + 16 * y) = (a &&& m) + 16 * (x &&& y) := by
  have hmod : ((a + 16 * x) &&& (m + 16 * y)) % 2 ^ 4 = a &&& m := by
    rw [Nat.and_mod_two_pow]
    congr 1 <;> omega
  have hdiv : ((a + 16 * x) &&& (m + 16 * y)) / 2 ^ 4 = x &&& y := by
    rw [Nat.and_div_two_pow]
    congr 1 <;> omega
  omega

lemma and_nibbles {hs ms : List ℕ} (hlen : hs.length = ms.length) (hhs : ∀ h ∈ hs, h < 16)
    (hms : ∀ m ∈ ms, m < 16) : nibbles hs &&& nibbles ms = nibbles (List.zipWith (· &&& ·) hs ms) := by
  induction hs generalizing ms with
  | nil => simp [nibbles]
  | cons h hs ih =>
    cases ms with
    | nil => simp at hlen
    | cons m ms =>
      rw [nibbles, nibbles, and_nibble (hhs h (by simp)) (hms m (by simp)),
        ih (by simpa using hlen) (fun h' hh' => hhs h' (by simp [hh']))
          fun m' hm' => hms m' (by simp [hm'])]
      rfl

lemma sum_bytes {p q r s : ℕ} (hp : p ≤ 8) (hq : q ≤ 8) (hr : r ≤ 8) (hs : s ≤ 8) :
    (p + 16 * (16 * (q + 16 * (16 * (r + 16 * (16 * s)))))) * 0x01010101 % 0x100000000 /
      0x1000000 = p + q + r + s := by
  have hprod : (p + 16 * (16 * (q + 16 * (16 * (r + 16 * (16 * s)))))) * 0x01010101 =
      (p + 0x100 * (p + q) + 0x10000 * (p + q + r) + 0x1000000 * (p + q + r + s)) +
        0x100000000 * ((q + r + s) + 0x100 * (r + s) + 0x10000 * s) := by ring
  rw [hprod, Nat.add_mul_mod_self_left, Nat.mod_eq_of_lt (by omega)]
  omega

variable {hs : List ℕ}

lemma nibbles_pairs (hhs : ∀ h ∈ hs, h < 16) :
    nibbles hs - (nibbles hs / 2 &&& nibbles (hs.map fun _ => 5)) =
      nibbles (hs.map fun h => h - (h / 2 &&& 5)) ∧
    nibbles hs / 2 &&& nibbles (hs.map fun _ => 5) ≤ nibbles hs := by
  induction hs with
  | nil => simp [nibbles]
  | cons h hs ih =>
    obtain ⟨heq, hle⟩ := ih fun h' hh' => hhs h' (by simp [hh'])
    have hh : h < 16 := hhs h (by simp)
    simp only [map_cons, nibbles] at *
    generalize nibbles hs = x at *
    generalize nibbles (hs.map fun _ => 5) = m at *
    have hdigit : ∀ a < 16, ∀ b < 2, (a / 2 + 8 * b) &&& 5 = a / 2 &&& 5 := by decide
    have hsmall : ∀ a < 16, a / 2 &&& 5 ≤ a := by decide
    have hand : (h + 16 * x) / 2 &&& 5 + 16 * m = (h / 2 &&& 5) + 16 * (x / 2 &&& m) := by
      rw [← hdigit h hh (x % 2) (by omega), ← and_nibble (by omega) (by norm_num)]
      congr 1
      omega
    have := hsmall h hh
    omega

lemma nibbles_quads (hs : List ℕ) (hhs : ∀ h ∈ hs, h < 16) : (nibbles hs &&& nibbles (hs.map fun _ => 3)) +
        (nibbles hs / 4 &&& nibbles (hs.map fun _ => 3)) =
      nibbles (hs.map fun h => (h &&& 3) + (h / 4 &&& 3)) := by
  induction hs with
  | nil => simp [nibbles]
  | cons h hs ih =>
    have heq := ih fun h' hh' => hhs h' (by simp [hh'])
    have hh : h < 16 := hhs h (by simp)
    simp only [map_cons, nibbles] at *
    generalize nibbles hs = x at *
    generalize nibbles (hs.map fun _ => 3) = m at *
    have hdigit : ∀ a < 16, ∀ b < 4, (a / 4 + 4 * b) &&& 3 = a / 4 &&& 3 := by decide
    have hand : (h + 16 * x) / 4 &&& 3 + 16 * m = (h / 4 &&& 3) + 16 * (x / 4 &&& m) := by
      rw [← hdigit h hh (x % 4) (by omega), ← and_nibble (by omega) (by norm_num)]
      congr 1
      omega
    rw [hand, and_nibble hh (by norm_num), ← heq]
    ring

lemma nibble_count : ∀ h < 16, let a := h - (h / 2 &&& 5)
    a < 16 ∧ (a &&& 3) + (a / 4 &&& 3) = (List.range 4).countP h.testBit ∧
      (List.range 4).countP h.testBit ≤ 4 := by
  decide

lemma countP_nibbles (hhs : ∀ h ∈ hs, h < 16) : (List.range (4 * hs.length)).countP (nibbles hs).testBit =
      (hs.map fun h => (List.range 4).countP h.testBit).sum := by
  induction hs with
  | nil => simp
  | cons h hs ih =>
    have hh : h < 2 ^ 4 := hhs h (by simp)
    rw [length_cons, Nat.mul_succ, Nat.add_comm, range_add, countP_append,
      map_cons, sum_cons, ← ih fun h' hh' => hhs h' (by simp [hh']), countP_map]
    congr 1
    · refine countP_congr fun i hi => ?_
      rw [nibbles, Nat.add_comm, show 16 = 2 ^ 4 by rfl,
        Nat.testBit_two_pow_mul_add _ hh, if_pos (mem_range.1 hi)]
    · refine countP_congr fun i _ => ?_
      rw [Function.comp, nibbles, Nat.add_comm, show 16 = 2 ^ 4 by rfl,
        Nat.testBit_two_pow_mul_add _ hh, if_neg (by omega), Nat.add_sub_cancel_left]

lemma exists_nibbles {v : ℕ} (hv : v < 0x100000000) :
    ∃ a b c d e f g h, (∀ n ∈ [a, b, c, d, e, f, g, h], n < 16) ∧ v = nibbles [a, b, c, d, e, f, g, h] := by
  refine ⟨v % 16, v / 16 % 16, v / 256 % 16, v / 4096 % 16, v / 65536 % 16, v / 1048576 % 16,
    v / 16777216 % 16, v / 268435456 % 16, ?_, ?_⟩
  · simp only [mem_cons, not_mem_nil, or_false, forall_eq_or_imp, forall_eq]
    omega
  · simp only [nibbles]
    omega

lemma popcount_eq {v : ℕ} (hv : v < 0x100000000) : popcount v = (List.range 32).countP v.testBit := by
  obtain ⟨a, b, c, d, e, f, g, h, hlt, rfl⟩ := exists_nibbles hv
  have hcount := countP_nibbles hlt
  have hpair := (nibbles_pairs hlt).1
  have hquad := nibbles_quads ([a, b, c, d, e, f, g, h].map fun h => h - (h / 2 &&& 5)) (by
    intro n hn
    obtain ⟨k, hk, rfl⟩ := List.mem_map.1 hn
    exact (nibble_count k (hlt k hk)).1)
  have hdigits : ([a, b, c, d, e, f, g, h].map fun h => h - (h / 2 &&& 5)).map
      (fun h => (h &&& 3) + (h / 4 &&& 3)) =
      [a, b, c, d, e, f, g, h].map fun h => (List.range 4).countP h.testBit := by
    rw [List.map_map]
    exact map_congr_left fun k hk => (nibble_count k (hlt k hk)).2.1
  rw [hdigits] at hquad
  have hmask5 : nibbles ([a, b, c, d, e, f, g, h].map fun _ => 5) = 0x55555555 := by
    simp [nibbles]
  have hmask3 : nibbles (([a, b, c, d, e, f, g, h].map fun h => h - (h / 2 &&& 5)).map
      fun _ => 3) = 0x33333333 := by
    simp [nibbles]
  rw [hmask5] at hpair
  rw [hmask3, ← hpair] at hquad
  have hle : ∀ n ∈ [a, b, c, d, e, f, g, h].map (fun h => (List.range 4).countP h.testBit), n ≤ 4 := by
    intro n hn
    obtain ⟨k, hk, rfl⟩ := List.mem_map.1 hn
    exact (nibble_count k (hlt k hk)).2.2
  rw [popcount]
  simp only [Nat.shiftRight_eq_div_pow, pow_one, Nat.reducePow]
  rw [hquad]
  rw [show 32 = 4 * [a, b, c, d, e, f, g, h].length by rfl, hcount]
  -- the eight counts, each at most four
  revert hle
  simp only [map_cons, map_nil, sum_cons, sum_nil, mem_cons,
    not_mem_nil, or_false, forall_eq_or_imp, forall_eq, nibbles]
  generalize (List.range 4).countP a.testBit = a
  generalize (List.range 4).countP b.testBit = b
  generalize (List.range 4).countP c.testBit = c
  generalize (List.range 4).countP d.testBit = d
  generalize (List.range 4).countP e.testBit = e
  generalize (List.range 4).countP f.testBit = f
  generalize (List.range 4).countP g.testBit = g
  generalize (List.range 4).countP h.testBit = h
  rintro ⟨ha, hb, hc, hd, he, hf, hg, hh⟩
  -- adding each count to its neighbour keeps every digit below sixteen
  have hsum : nibbles [a, b, c, d, e, f, g, h] + nibbles [a, b, c, d, e, f, g, h] / 16 =
      nibbles [a + b, b + c, c + d, d + e, e + f, f + g, g + h, h] := by
    simp only [nibbles]
    omega
  have hkeep : ∀ n < 16, n &&& 15 = n := by decide
  have hmask : nibbles [a + b, b + c, c + d, d + e, e + f, f + g, g + h, h] &&& 0x0f0f0f0f =
      nibbles [a + b, 0, c + d, 0, e + f, 0, g + h, 0] := by
    rw [show 0x0f0f0f0f = nibbles [15, 0, 15, 0, 15, 0, 15, 0] by simp [nibbles], and_nibbles (by simp)]
    · simp only [zipWith_cons_cons, zipWith_nil_left, Nat.and_zero, hkeep _
        (show a + b < 16 by omega), hkeep _ (show c + d < 16 by omega),
        hkeep _ (show e + f < 16 by omega), hkeep _ (show g + h < 16 by omega)]
    · simp only [mem_cons, not_mem_nil, or_false, forall_eq_or_imp, forall_eq]
      omega
    · simp
  simp only [nibbles, Nat.mul_zero, Nat.add_zero, Nat.zero_add] at hsum hmask ⊢
  rw [hsum, hmask, sum_bytes (show a + b ≤ 8 by omega) (show c + d ≤ 8 by omega)
    (show e + f ≤ 8 by omega) (show g + h ≤ 8 by omega)]
  omega

/-! ## Words of one width -/

section

variable {w : ℕ} {words : List (BitVec w)} {i j : ℕ}

def bitOf (words : List (BitVec w)) (i : ℕ) : Bool := (words.getD (i / w) 0).getLsbD (i % w)

lemma bitOf_modify {f : BitVec w → BitVec w} (hi : i < words.length) :
    bitOf (words.modify i f) j =
      if j / w = i then (f (words.getD i 0)).getLsbD (j % w) else bitOf words j := by
  rw [bitOf, getD_eq_getElem?_getD, List.getElem?_modify]
  split_ifs with h h' h'
  · subst h
    simp [List.getElem?_eq_getElem hi, getD_eq_getElem?_getD]
  · exact absurd h.symm h'
  · exact absurd h'.symm h
  · simp [bitOf]

lemma twoPow_getLsbD (hw : 0 < w) (h : j / w = i / w) :
    (BitVec.twoPow w (i % w)).getLsbD (j % w) = decide (j = i) := by
  rw [BitVec.getLsbD_twoPow, ← Bool.decide_and]
  refine decide_eq_decide.2 ⟨fun hmod => ?_, fun hij => ⟨Nat.mod_lt i hw, by rw [hij]⟩⟩
  rw [← Nat.div_add_mod j w, h, ← hmod.2, Nat.div_add_mod]

lemma bitOf_set (h : i < words.length * w) :
    bitOf (words.modify (i / w) (· ||| BitVec.twoPow w (i % w))) j = (decide (j = i) || bitOf words j) := by
  rw [bitOf_modify (Nat.div_lt_of_lt_mul (by rwa [Nat.mul_comm]))]
  split_ifs with hdiv
  · rw [BitVec.getLsbD_or, twoPow_getLsbD (Nat.pos_of_lt_mul_left h) hdiv, bitOf, hdiv, Bool.or_comm]
  · have hne : j ≠ i := fun he => hdiv (by rw [he])
    simp [hne]

lemma bitOf_clear (h : i < words.length * w) :
    bitOf (words.modify (i / w) (· &&& ~~~ BitVec.twoPow w (i % w))) j = (decide (j ≠ i) && bitOf words j) := by
  have hw : 0 < w := Nat.pos_of_lt_mul_left h
  rw [bitOf_modify (Nat.div_lt_of_lt_mul (by rwa [Nat.mul_comm]))]
  split_ifs with hdiv
  · rw [BitVec.getLsbD_and, BitVec.getLsbD_not, twoPow_getLsbD hw hdiv, bitOf, hdiv, Bool.and_comm,
      decide_eq_true (Nat.mod_lt j hw), Bool.true_and, decide_not]
  · have hne : j ≠ i := fun he => hdiv (by rw [he])
    simp [hne]

end

end Zelavis.Lib
