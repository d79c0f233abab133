import Zelavis.Lib.Alignment
import Zelavis.Lib.Unicode
import Mathlib.Data.ENat.Lattice
import Mathlib.Data.Rat.Defs
import Mathlib.Algebra.Order.Ring.Rat

/-!
# Bounded edit distance

`search-parser.ts` `damerauLevenshtein`: the distance of two strings as far as a bound, by a table filled
row by row that is given up at a row above the bound.

The least entry of a row leaves out its first one, so against an empty string every row counts as above
any bound.
-/

namespace Zelavis.Db

open Lib List

/-- A bound: a number that may be infinite, or `NaN` where there is none. -/
abbrev Bound := Option (WithBot (WithTop ℚ))

/-- A count or `Infinity` as a number. -/
def toNumber (x : ℕ∞) : WithBot (WithTop ℚ) := ((WithTop.map (Nat.cast : ℕ → ℚ) x : WithTop ℚ) :)

/-- `x > maxDist`. -/
def above (x : ℕ∞) : Bound → Bool
  | none => false
  | some k => k < toNumber x

/-- `x <= maxDist`. -/
def atMost (x : ℕ∞) : Bound → Bool
  | none => false
  | some k => toNumber x ≤ k

/-! ## The table -/

/-- An entry of the row that is being filled, from the rows before it and the entries before it.
Source: `damerauLevenshtein`, the body of the inner loop. -/
def cell (a b : Utf16) (d : List (List ℕ)) (row : List ℕ) (i j : ℕ) : ℕ :=
  let cost := if a[i - 1]? = b[j - 1]? then 0 else 1
  let val := min (min ((d.getD (i - 1) []).getD j 0 + 1) (row.getD (j - 1) 0 + 1))
    ((d.getD (i - 1) []).getD (j - 1) 0 + cost)
  if 1 < i ∧ 1 < j ∧ a[i - 1]? = b[j - 2]? ∧ a[i - 2]? = b[j - 1]? then
    min val ((d.getD (i - 2) []).getD (j - 2) 0 + 1)
  else val

/-- A row, whose first entry stands already, and `rowMin`, as far as a column. Source: `damerauLevenshtein`, the inner loop. -/
def fillRow (a b : Utf16) (d : List (List ℕ)) (i columns : ℕ) : List ℕ × ℕ∞ :=
  (List.range' 1 columns).foldl (fun p j =>
    let val := cell a b d p.1 i j
    (p.1 ++ [val], if val < p.2 then (val : ℕ∞) else p.2)) ([i], ⊤)

/-- The first row and as many more as asked for, unless one of these is above the bound.
Source: `damerauLevenshtein`, the outer loop. -/
def fillRows (a b : Utf16) (maxDist : Bound) (rows : ℕ) : Option (List (List ℕ)) :=
  (List.range' 1 rows).foldlM (fun d i =>
    let (row, rowMin) := fillRow a b d i b.length
    if above rowMin maxDist then none else some (d ++ [row])) [List.range (b.length + 1)]

/-- The distance of two strings, or `Infinity`. Source: `damerauLevenshtein`. -/
def damerauLevenshtein (a b : Utf16) (maxDist : Bound) : ℕ∞ :=
  if a = b then 0
  else if above (((a.length : ℤ) - b.length).natAbs : ℕ) maxDist then ⊤
  else
    match fillRows a b maxDist a.length with
    | none => ⊤
    | some d => ((d.getD a.length []).getD b.length 0 : ℕ)

/-! ## Bounds -/

variable {x y : ℕ∞}

@[simp] lemma toNumber_le_toNumber : toNumber x ≤ toNumber y ↔ x ≤ y := by
  rw [toNumber, toNumber, WithBot.coe_le_coe]
  exact WithTop.map_le_iff _ Nat.cast_le

variable {k : Bound}

lemma above_mono (h : above x k) (hle : x ≤ y) : above y k := by
  cases k with
  | none => exact h
  | some k => exact decide_eq_true (lt_of_lt_of_le (of_decide_eq_true h) (toNumber_le_toNumber.2 hle))

lemma atMost_mono (h : atMost y k) (hle : x ≤ y) : atMost x k := by
  cases k with
  | none => exact h
  | some k => exact decide_eq_true ((toNumber_le_toNumber.2 hle).trans (of_decide_eq_true h))

lemma not_atMost_of_above {x : ℕ∞} (h : above x k) : atMost x k = false := by
  cases k with
  | none => rfl
  | some k => exact decide_eq_false (not_le.2 (of_decide_eq_true h))

lemma above_iff_atMost (h : above y k) : above x k ↔ atMost x k = false := by
  cases k with
  | none => simp [above] at h
  | some k => simp [above, atMost]

lemma above_min : above (min x y) k ↔ above x k ∧ above y k := by
  refine ⟨fun h => ⟨above_mono h (min_le_left _ _), above_mono h (min_le_right _ _)⟩, fun h => ?_⟩
  rcases min_choice x y with hmin | hmin
  · rw [hmin]
    exact h.1
  · rw [hmin]
    exact h.2

/-! ## What the table holds -/

/-- The distances of the first letters of one string from all beginnings of another. -/
def distances (a b : Utf16) (i : ℕ) : List ℕ :=
  (List.range (b.length + 1)).map fun j => distance (a.take i) (b.take j)

variable {a b : Utf16} {i j : ℕ}

lemma getD_distances (hj : j ≤ b.length) : (distances a b i).getD j 0 = distance (a.take i) (b.take j) := by
  rw [distances, getD_eq_getElem?_getD, List.getElem?_map, List.getElem?_range (by omega)]
  rfl

lemma getD_map_range {β : Type} {f : ℕ → β} {n i : ℕ} {fallback : β} (h : i < n) :
    ((List.range n).map f).getD i fallback = f i := by
  rw [getD_eq_getElem?_getD, List.getElem?_map, List.getElem?_range h]
  rfl

lemma distance_take (hi : i < a.length) (hj : j < b.length) :
    distance (a.take (i + 1)) (b.take (j + 1)) = if 0 < i ∧ 0 < j ∧ a[i]? = b[j - 1]? ∧ a[i - 1]? = b[j]? then
        min (min (min (distance (a.take i) (b.take (j + 1)) + 1) (distance (a.take (i + 1)) (b.take j) + 1))
          (distance (a.take i) (b.take j) + if a[i]? = b[j]? then 0 else 1))
          (distance (a.take (i - 1)) (b.take (j - 1)) + 1) else
        min (min (distance (a.take i) (b.take (j + 1)) + 1) (distance (a.take (i + 1)) (b.take j) + 1))
          (distance (a.take i) (b.take j) + if a[i]? = b[j]? then 0 else 1) := by
  have hsnoc : ∀ {w : Utf16} {n : ℕ} (h : n < w.length),
      (w.take (n + 1)).reverse = w[n] :: (w.take n).reverse := by
    intro w n h
    rw [take_add_one, List.getElem?_eq_getElem h, Option.toList_some, reverse_append]
    rfl
  have hhead : ∀ {w : Utf16} {n : ℕ} {x : CodeUnit}, n < w.length →
      ((w.take n).reverse.head? = some x ↔ 0 < n ∧ w[n - 1]? = some x) := by
    intro w n x h
    cases n with
    | zero => simp
    | succ n =>
      rw [hsnoc (by omega), List.head?_cons, Nat.add_sub_cancel, List.getElem?_eq_getElem (by omega)]
      simp
  have htail : ∀ {w : Utf16} {n : ℕ}, n < w.length → (w.take n).reverse.tail = (w.take (n - 1)).reverse := by
    intro w n h
    cases n with
    | zero => simp
    | succ n => rw [hsnoc (by omega), tail_cons, Nat.add_sub_cancel]
  have hswap : ((a.take i).reverse.head? = some b[j] ∧ (b.take j).reverse.head? = some a[i]) ↔
      0 < i ∧ 0 < j ∧ a[i]? = b[j - 1]? ∧ a[i - 1]? = b[j]? := by
    rw [hhead hi, hhead hj, List.getElem?_eq_getElem hi, List.getElem?_eq_getElem hj]
    constructor
    · rintro ⟨⟨hi0, ha⟩, hj0, hb⟩
      exact ⟨hi0, hj0, hb.symm, ha⟩
    · rintro ⟨hi0, hj0, hb, ha⟩
      exact ⟨⟨hi0, ha⟩, hj0, hb.symm⟩
  have hsame : (a[i] = b[j]) = (a[i]? = b[j]?) := by
    rw [List.getElem?_eq_getElem hi, List.getElem?_eq_getElem hj, Option.some_inj]
  rw [← distance_reverse, hsnoc hi, hsnoc hj, distance_cons_cons, htail hi, htail hj, ← hsnoc hi, ← hsnoc hj]
  simp only [distance_reverse, hswap, hsame]

variable {d : List (List ℕ)}

lemma cell_eq {row : List ℕ} (hi : i < a.length)
    (hj : j < b.length) (hd : ∀ n ≤ i, d.getD n [] = distances a b n)
    (hrow : row.getD j 0 = distance (a.take (i + 1)) (b.take j)) :
    cell a b d row (i + 1) (j + 1) = distance (a.take (i + 1)) (b.take (j + 1)) := by
  have hi' : i + 1 - 2 = i - 1 := by omega
  have hj' : j + 1 - 2 = j - 1 := by omega
  rw [distance_take hi hj, cell]
  simp only [Nat.add_sub_cancel, hi', hj', hrow, hd i le_rfl, hd (i - 1) (Nat.sub_le i 1),
    getD_distances (Nat.succ_le_of_lt hj), getD_distances hj.le,
    getD_distances ((Nat.sub_le j 1).trans hj.le), Nat.lt_add_left_iff_pos]

/-- A row as far as a column: its entries are distances, and it is above a bound where `Infinity` and all
entries after the first are. -/
theorem fillRow_eq {i : ℕ} (hi : i < a.length)
    (hd : ∀ n ≤ i, d.getD n [] = distances a b n) (k : Bound) {n : ℕ} (hn : n ≤ b.length) :
    (fillRow a b d (i + 1) n).1 = (List.range (n + 1)).map (fun j => distance (a.take (i + 1)) (b.take j)) ∧
      (above (fillRow a b d (i + 1) n).2 k ↔
        above ⊤ k ∧ ∀ j < n, above (distance (a.take (i + 1)) (b.take (j + 1)) : ℕ) k) := by
  induction n with
  | zero => simp [fillRow, length_take, Nat.min_eq_left hi]
  | succ n ih =>
    obtain ⟨hrow, hmin⟩ := ih (Nat.le_of_succ_le hn)
    have hcell := @cell_eq a b i n d (fillRow a b d (i + 1) n).1 hi hn hd
      (by rw [hrow, getD_map_range (f := fun j => distance (a.take (i + 1)) (b.take j))
        (Nat.lt_succ_self n)])
    have hnext : fillRow a b d (i + 1) (n + 1) =
        ((fillRow a b d (i + 1) n).1 ++ [cell a b d (fillRow a b d (i + 1) n).1 (i + 1) (n + 1)],
          min (cell a b d (fillRow a b d (i + 1) n).1 (i + 1) (n + 1) : ℕ∞)
            (fillRow a b d (i + 1) n).2) := by
      rw [fillRow, range'_1_concat, foldl_append, foldl_cons, foldl_nil,
        ← fillRow, Nat.add_comm 1 n, min_def_lt]
    rw [hnext, hcell, hrow]
    refine ⟨?_, ?_⟩
    · rw [range_succ (n := n + 1), map_append, map_singleton]
    · rw [above_min, hmin, Nat.forall_lt_succ_right]
      exact ⟨fun h => ⟨h.2.1, h.2.2, h.1⟩, fun h => ⟨h.2.2, h.1, h.2.1⟩⟩

/-- A row is given up: `Infinity` and all distances from beginnings with a letter are above the bound. -/
def GivenUp (a b : Utf16) (k : Bound) (i : ℕ) : Prop :=
  above ⊤ k ∧ ∀ j < b.length, above (distance (a.take i) (b.take (j + 1)) : ℕ) k

lemma fillRows_succ (a b : Utf16) (k : Bound) (n : ℕ) :
    fillRows a b k (n + 1) = (fillRows a b k n).bind fun d =>
      if above (fillRow a b d (n + 1) b.length).2 k then none
      else some (d ++ [(fillRow a b d (n + 1) b.length).1]) := by
  rw [fillRows, range'_1_concat, foldlM_append, ← fillRows, Nat.add_comm 1 n]
  simp

lemma fillRows_eq (a b : Utf16) (k : Bound) {n : ℕ} (hn : n ≤ a.length) :
    (fillRows a b k n = none ∧ ∃ i < n, GivenUp a b k (i + 1)) ∨
      (fillRows a b k n = some ((List.range (n + 1)).map (distances a b)) ∧
        ∀ i < n, ¬ GivenUp a b k (i + 1)) := by
  induction n with
  | zero =>
    refine .inr ⟨?_, fun i hi => absurd hi (Nat.not_lt_zero i)⟩
    have hfirst : distances a b 0 = List.range (b.length + 1) := by
      refine (map_congr_left fun j hj => ?_).trans (List.map_id _)
      have := mem_range.1 hj
      rw [take_zero, distance_nil_left, length_take, id_eq]
      omega
    simp [fillRows, hfirst]
  | succ n ih =>
    rw [fillRows_succ]
    rcases ih (Nat.le_of_succ_le hn) with ⟨hnone, i, hi, hup⟩ | ⟨hsome, hnot⟩
    · rw [hnone]
      exact .inl ⟨rfl, i, Nat.lt_succ_of_lt hi, hup⟩
    · rw [hsome, Option.bind_some]
      obtain ⟨hrow, hmin⟩ := fillRow_eq (d := (List.range (n + 1)).map (distances a b)) hn
        (fun m hm => getD_map_range (Nat.lt_succ_of_le hm)) k le_rfl
      by_cases hup : GivenUp a b k (n + 1)
      · rw [if_pos (hmin.2 hup)]
        exact .inl ⟨rfl, n, Nat.lt_succ_self n, hup⟩
      · rw [if_neg (mt hmin.1 hup), hrow, range_succ (n := n + 1), map_append]
        exact .inr ⟨rfl, Nat.forall_lt_succ_right.2 ⟨hnot, hup⟩⟩

/-! ## What is answered -/

/-- A string is within the bound of some beginning of another that has a letter. -/
def Reaches (a b : Utf16) (k : Bound) : Prop := ∃ w, w <+: b ∧ w ≠ [] ∧ atMost (distance a w : ℕ) k

lemma givenUp_length_iff : GivenUp a b k a.length ↔ above ⊤ k ∧ ¬ Reaches a b k := by
  refine and_congr_right fun htop => ?_
  rw [Reaches, take_length]
  constructor
  · rintro h ⟨w, hw, hne, hle⟩
    have hlen := length_pos_iff.2 hne
    have hwlen := hw.length_le
    have := h (w.length - 1) (by omega)
    rw [Nat.sub_add_cancel hlen, ← prefix_iff_eq_take.1 hw, above_iff_atMost htop, hle] at this
    exact Bool.noConfusion this
  · intro h j hj
    rw [above_iff_atMost htop]
    refine Bool.eq_false_iff.2 fun hle => h ⟨b.take (j + 1), List.take_prefix _ _, ?_, hle⟩
    exact ne_nil_of_length_pos (by rw [length_take]; omega)

lemma givenUp_last {i : ℕ} (hi : i < a.length) (h : GivenUp a b k (i + 1)) : GivenUp a b k a.length := by
  refine givenUp_length_iff.2 ⟨h.1, fun hreach => ?_⟩
  obtain ⟨w, hw, hne, hle⟩ := hreach
  have hfirst : a.take (i + 1) ≠ [] :=
    ne_nil_of_length_pos (by rw [length_take]; omega)
  obtain ⟨w', hw', hne', hle'⟩ := exists_prefix_le_append hfirst (a.drop (i + 1)) hne
  rw [take_append_drop] at hle'
  have hlen := length_pos_iff.2 hne'
  have hwlen := (hw'.trans hw).length_le
  have habove := h.2 (w'.length - 1) (by omega)
  rw [Nat.sub_add_cancel hlen, ← prefix_iff_eq_take.1 (hw'.trans hw), above_iff_atMost h.1,
    atMost_mono hle (by exact_mod_cast hle')] at habove
  exact Bool.noConfusion habove

/-- What is answered: the distance, unless the lengths tell that it is above the bound, or the first string
has a letter and is not within a finite bound of any beginning of the second that has one. -/
theorem damerauLevenshtein_cases (a b : Utf16) (k : Bound) : damerauLevenshtein a b k = distance a b ∧
        (a = b ∨ above (((a.length : ℤ) - b.length).natAbs : ℕ) k = false ∧
          (a = [] ∨ above ⊤ k = false ∨ Reaches a b k)) ∨ damerauLevenshtein a b k = ⊤ ∧ a ≠ b ∧
        (above (((a.length : ℤ) - b.length).natAbs : ℕ) k ∨ a ≠ [] ∧ above ⊤ k ∧ ¬ Reaches a b k) := by
  rw [damerauLevenshtein]
  split_ifs with heq hlen
  · subst heq
    exact .inl ⟨by simp, .inl rfl⟩
  · exact .inr ⟨rfl, heq, .inl hlen⟩
  · rw [Bool.not_eq_true] at hlen
    rcases fillRows_eq a b k le_rfl with ⟨hnone, i, hi, hup⟩ | ⟨hsome, hnot⟩
    · rw [hnone]
      obtain ⟨htop, hreach⟩ := givenUp_length_iff.1 (givenUp_last hi hup)
      exact .inr ⟨rfl, heq, .inr ⟨ne_nil_of_length_pos (Nat.zero_lt_of_lt hi), htop, hreach⟩⟩
    · rw [hsome]
      dsimp only
      rw [getD_map_range (Nat.lt_succ_self _), getD_distances le_rfl, take_length, take_length]
      refine .inl ⟨rfl, .inr ⟨hlen, ?_⟩⟩
      by_contra hcon
      simp only [not_or] at hcon
      have hpos := length_pos_iff.2 hcon.1
      refine hnot (a.length - 1) (by omega) ?_
      rw [Nat.sub_add_cancel hpos]
      exact givenUp_length_iff.2 ⟨by simpa using hcon.2.1, hcon.2.2⟩

/-! ## Against the distance -/

/-- What is answered is at most the bound where the distance is, and is the distance then. -/
def BoundedDistance (a b : Utf16) (k : Bound) : Prop :=
  (atMost (damerauLevenshtein a b k) k ↔ atMost (distance a b : ℕ) k) ∧
    (atMost (damerauLevenshtein a b k) k → damerauLevenshtein a b k = distance a b)

lemma BoundedDistance.of_eq (h : damerauLevenshtein a b k = distance a b) : BoundedDistance a b k := by
  rw [BoundedDistance, h]
  exact ⟨Iff.rfl, fun _ => rfl⟩

lemma BoundedDistance.top_iff (h : damerauLevenshtein a b k = ⊤)
    (htop : above ⊤ k) : BoundedDistance a b k ↔ above (distance a b : ℕ) k := by
  rw [BoundedDistance, h, above_iff_atMost htop, not_atMost_of_above htop]
  simp

lemma above_distance
    (h : above (((a.length : ℤ) - b.length).natAbs : ℕ) k) : above (distance a b : ℕ) k := by
  refine above_mono h ?_
  have hab := length_le_distance a b
  have hba := length_le_distance b a
  rw [distance_comm] at hba
  have : ((a.length : ℤ) - b.length).natAbs ≤ distance a b := by omega
  exact_mod_cast this

lemma reaches_self (hb : b ≠ []) (h : atMost (distance a b : ℕ) k) :
    Reaches a b k := ⟨b, prefix_rfl, hb, h⟩

lemma not_reaches_nil (a : Utf16) (k : Bound) : ¬ Reaches a [] k := by
  rintro ⟨w, hw, hne, -⟩
  exact hne (prefix_nil.1 hw)

lemma reaches_of_nil {b : Utf16} (hb : b ≠ []) (h : atMost (b.length : ℕ) k) :
    Reaches [] b k := reaches_self hb (by simpa using h)

lemma boundedDistance_iff (a b : Utf16) (k : Bound) :
    BoundedDistance a b k ↔ ¬ (b = [] ∧ a ≠ [] ∧ atMost (a.length : ℕ) k ∧ above ⊤ k) := by
  rcases damerauLevenshtein_cases a b k with ⟨hres, hwhen⟩ | ⟨hres, -, hlen | ⟨ha, htop, hreach⟩⟩
  · refine iff_of_true (.of_eq hres) ?_
    rintro ⟨rfl, ha, -, htop⟩
    rcases hwhen with heq | ⟨-, hnil | hbound | hreach⟩
    · exact ha heq
    · exact ha hnil
    · rw [htop] at hbound
      exact Bool.noConfusion hbound
    · exact not_reaches_nil a k hreach
  · refine iff_of_true ((BoundedDistance.top_iff hres (above_mono hlen le_top)).2
      (above_distance hlen)) ?_
    rintro ⟨rfl, -, hle, -⟩
    have := not_atMost_of_above hlen
    simp [hle] at this
  · rw [BoundedDistance.top_iff hres htop, above_iff_atMost htop]
    rcases eq_or_ne b [] with rfl | hb
    · simp [ha, htop]
    · refine iff_of_true (Bool.eq_false_iff.2 fun hle => hreach (reaches_self hb hle)) ?_
      exact fun h => hb h.1

/-- The answer does not depend on which string comes first where each is within the bound of a beginning of
the other or neither is. -/
theorem damerauLevenshtein_comm_iff (hne : a ≠ b)
    (hlen : above (((a.length : ℤ) - b.length).natAbs : ℕ) k = false) (htop : above ⊤ k) :
    damerauLevenshtein a b k = damerauLevenshtein b a k ↔ (Reaches a b k ↔ Reaches b a k) := by
  have hlen' : above (((b.length : ℤ) - a.length).natAbs : ℕ) k = false := by
    rwa [← Int.natAbs_neg, neg_sub]
  -- a string with no letter is answered with the distance, and is within the bound of the first letter
  have hanswer : ∀ {v w : Utf16}, v ≠ w → above (((v.length : ℤ) - w.length).natAbs : ℕ) k = false →
        (damerauLevenshtein v w k = distance v w ∧ Reaches v w k) ∨
          (damerauLevenshtein v w k = ⊤ ∧ ¬ Reaches v w k) := by
    intro v w hvw hvlen
    rcases damerauLevenshtein_cases v w k with
      ⟨hres, heq | ⟨-, rfl | hbound | hreach⟩⟩ | ⟨hres, -, habove | ⟨-, -, hreach⟩⟩
    · exact absurd heq hvw
    · refine .inl ⟨hres, reaches_of_nil hvw.symm ?_⟩
      have hatMost := (Bool.eq_false_iff.1 hvlen)
      rw [ne_eq, above_iff_atMost htop, Bool.not_eq_false] at hatMost
      simpa using hatMost
    · rw [htop] at hbound
      exact Bool.noConfusion hbound
    · exact .inl ⟨hres, hreach⟩
    · rw [hvlen] at habove
      exact Bool.noConfusion habove
    · exact .inr ⟨hres, hreach⟩
  rcases hanswer hne hlen with ⟨hab, hreach⟩ | ⟨hab, hreach⟩ <;>
    rcases hanswer hne.symm hlen' with ⟨hba, hreach'⟩ | ⟨hba, hreach'⟩ <;>
    simp [hab, hba, hreach, hreach', distance_comm b a]

/-- When the bounded distance is the distance as far as the bound and the same both ways. -/
theorem damerauLevenshtein_iff (a b : Utf16) (k : Bound) :
    (BoundedDistance a b k ↔ ¬ (b = [] ∧ a ≠ [] ∧ atMost (a.length : ℕ) k ∧ above ⊤ k)) ∧
      (BoundedDistance a b k ∧ damerauLevenshtein a b k = damerauLevenshtein b a k ↔
        a = b ∨ above (((a.length : ℤ) - b.length).natAbs : ℕ) k ∨ above ⊤ k = false ∨
          (Reaches a b k ↔ Reaches b a k)) := by
  refine ⟨boundedDistance_iff a b k, ?_⟩
  by_cases heq : a = b
  · subst heq
    simp only [true_or, and_true, iff_true, boundedDistance_iff]
    exact fun h => h.2.1 h.1
  by_cases hlen : above (((a.length : ℤ) - b.length).natAbs : ℕ) k
  · have hswap : ∀ {v w : Utf16}, v ≠ w → above (((v.length : ℤ) - w.length).natAbs : ℕ) k →
        damerauLevenshtein v w k = ⊤ := fun hne h => by rw [damerauLevenshtein, if_neg hne, if_pos h]
    refine iff_of_true ⟨?_, ?_⟩ (Or.inr (Or.inl hlen))
    · exact (BoundedDistance.top_iff (hswap heq hlen) (above_mono hlen le_top)).2
        (above_distance hlen)
    · rw [hswap heq hlen, hswap (Ne.symm heq) (by rwa [← Int.natAbs_neg, neg_sub])]
  by_cases htop : above ⊤ k
  · rw [damerauLevenshtein_comm_iff heq (by simpa using hlen) htop, boundedDistance_iff]
    simp only [heq, hlen, htop, false_or, Bool.true_eq_false, Bool.false_eq_true]
    refine and_iff_right_of_imp fun hreach => ?_
    rintro ⟨rfl, ha, hle, -⟩
    exact not_reaches_nil a k (hreach.2 (reaches_of_nil ha hle))
  · rw [Bool.not_eq_true] at htop
    refine iff_of_true ⟨?_, ?_⟩ (Or.inr (Or.inr (Or.inl htop)))
    · rw [boundedDistance_iff, htop]
      exact fun h => Bool.noConfusion h.2.2.2
    · have hanswer : ∀ v w : Utf16, damerauLevenshtein v w k = distance v w := by
        intro v w
        rcases damerauLevenshtein_cases v w k with ⟨hres, -⟩ | ⟨-, -, habove | ⟨-, habove, -⟩⟩
        · exact hres
        · rw [above_mono habove le_top] at htop
          exact Bool.noConfusion htop
        · rw [habove] at htop
          exact Bool.noConfusion htop
      rw [hanswer, hanswer, distance_comm]

/-- One letter against none within two is answered with `Infinity`, and with the distance the other way. -/
theorem not_damerauLevenshtein : ¬ BoundedDistance (utf16 "a") [] (some 2) ∧
      damerauLevenshtein (utf16 "a") [] (some 2) ≠ damerauLevenshtein [] (utf16 "a") (some 2) := by
  constructor
  · rw [boundedDistance_iff, not_not]
    exact ⟨rfl, by decide, by decide +kernel, by decide +kernel⟩
  · have hinfinite : damerauLevenshtein (utf16 "a") [] (some 2) = ⊤ := by decide +kernel
    have hone : damerauLevenshtein [] (utf16 "a") (some 2) = 1 := by decide +kernel
    rw [hinfinite, hone]
    exact ENat.top_ne_one

end Zelavis.Db
