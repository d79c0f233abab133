import Zelavis.Db.Postings

/-!
# The algebra of identifier sets

`postings.ts`, all operations together, over every identifier of 32 bits.
-/

namespace Zelavis.Db.PostingAlgebra

open Lib List

/-! ## Given sets -/

/-- The bitset of a list of identifiers. Source: `PostingsBuilder.build`. -/
def denseOf (ids : List ℕ) : Postings :=
  .bitset (ids.foldl setWord (wordsFor (ids.foldl max 0 + 1))) (ids.foldl max 0 + 1)

/-- A set as it is given: identifiers of 32 bits in ascending order, and whether they are kept in
a bitset. -/
structure Run where
  ids : List ℕ
  dense : Bool
  ascending : Ascending ids
  lt : ∀ id ∈ ids, id < 0x100000000

def Run.postings (run : Run) : Postings :=
  if run.dense then denseOf run.ids else .array run.ids

/-! ## Derived sets -/

/-- The sets computed from the given ones by any sequence of operations, each with what the same
operations on sets of identifiers give. -/
inductive Derived (runs : List Run) : Postings → (ℕ → Prop) → Prop
  | given {run : Run} : run ∈ runs → Derived runs run.postings (· ∈ run.ids)
  | toArray {p : Postings} {S : ℕ → Prop} : Derived runs p S → Derived runs p.toArray S
  | and {a b : Postings} {S T : ℕ → Prop} : Derived runs a S → Derived runs b T →
      Derived runs (a.and b) fun id => S id ∧ T id
  | or {a b : Postings} {S T : ℕ → Prop} : Derived runs a S → Derived runs b T →
      Derived runs (a.or b) fun id => S id ∨ T id
  | andNot {a b : Postings} {S T : ℕ → Prop} : Derived runs a S → Derived runs b T →
      Derived runs (a.andNot b) fun id => S id ∧ ¬ T id
  | andAll {sets : List (Postings × (ℕ → Prop))} : (∀ x ∈ sets, Derived runs x.1 x.2) →
      Derived runs (Postings.andAll (sets.map Prod.fst)) fun id =>
        sets ≠ [] ∧ ∀ x ∈ sets, x.2 id
  | orAll {sets : List (Postings × (ℕ → Prop))} : (∀ x ∈ sets, Derived runs x.1 x.2) →
      Derived runs (Postings.orAll (sets.map Prod.fst)) fun id => ∃ x ∈ sets, x.2 id

/-- Every reading of a set of identifiers is that of `S`, its listings in strictly ascending
order. -/
def Holds (p : Postings) (S : ℕ → Prop) : Prop :=
  (∀ id, p.has id ↔ S id) ∧ ∃ ids, Ascending ids ∧ (∀ id, id ∈ ids ↔ S id) ∧ p.size = ids.length ∧
      p.iterate = ids.map Int.ofNat ∧ p.toArray = .array ids

/-- Every set derived from the given ones is the set of identifiers it should be. -/
def Algebra (runs : List Run) : Prop := ∀ p S, Derived runs p S → Holds p S

/-! ## Kinds of sets the operations stay within -/

/-- A kind of sets closed under all operations, whose readings are right. -/
structure Closed (Good : Postings → Prop) : Prop extends Postings.Lawful Good where
  toArray {p : Postings} : Good p → Good p.toArray ∧ ∀ id, p.toArray.Mem id ↔ p.Mem id
  andNot {a b : Postings} : Good a → Good b →
    Good (a.andNot b) ∧ ∀ id, (a.andNot b).Mem id ↔ a.Mem id ∧ ¬ b.Mem id
  holds {p : Postings} : Good p → Holds p p.Mem

variable {runs : List Run} {p : Postings} {Good : Postings → Prop}

/-- What is derived from sets of a closed kind is of that kind, and has the members it should. -/
theorem Closed.derived (h : Closed Good)
    (hruns : ∀ run ∈ runs, Good run.postings ∧ ∀ id, run.postings.Mem id ↔ id ∈ run.ids)
    {S : ℕ → Prop} (hp : Derived runs p S) : Good p ∧ ∀ id, p.Mem id ↔ S id := by
  induction hp with
  | given hrun => exact hruns _ hrun
  | toArray _ ih =>
    obtain ⟨hgood, hmem⟩ := h.toArray ih.1
    exact ⟨hgood, fun id => (hmem id).trans (ih.2 id)⟩
  | and _ _ iha ihb =>
    obtain ⟨hgood, hmem⟩ := h.and iha.1 ihb.1
    exact ⟨hgood, fun id => (hmem id).trans (and_congr (iha.2 id) (ihb.2 id))⟩
  | or _ _ iha ihb =>
    obtain ⟨hgood, hmem⟩ := h.or iha.1 ihb.1
    exact ⟨hgood, fun id => (hmem id).trans (or_congr (iha.2 id) (ihb.2 id))⟩
  | andNot _ _ iha ihb =>
    obtain ⟨hgood, hmem⟩ := h.andNot iha.1 ihb.1
    exact ⟨hgood, fun id => (hmem id).trans (and_congr (iha.2 id) (not_congr (ihb.2 id)))⟩
  | @andAll sets _ ih =>
    have hall : ∀ p ∈ sets.map Prod.fst, Good p := List.forall_mem_map.2 fun x hx => (ih x hx).1
    obtain ⟨hgood, hmem⟩ := h.andAll hall
    refine ⟨hgood, fun id => (hmem id).trans (and_congr ?_ ?_)⟩
    · rw [ne_eq, map_eq_nil_iff]
    · rw [List.forall_mem_map]
      exact forall₂_congr fun x hx => (ih x hx).2 id
  | @orAll sets _ ih =>
    have hall : ∀ p ∈ sets.map Prod.fst, Good p := List.forall_mem_map.2 fun x hx => (ih x hx).1
    obtain ⟨hgood, hmem⟩ := h.orAll hall
    refine ⟨hgood, fun id => (hmem id).trans ?_⟩
    simp only [List.mem_map, exists_exists_and_eq_and]
    exact exists_congr fun x => and_congr_right fun hx => (ih x hx).2 id

lemma Holds.congr {S T : ℕ → Prop} (h : Holds p S) (hst : ∀ id, S id ↔ T id) : Holds p T := by
  obtain rfl : S = T := funext fun id => propext (hst id)
  exact h

lemma Closed.algebra (h : Closed Good)
    (hruns : ∀ run ∈ runs, Good run.postings ∧ ∀ id, run.postings.Mem id ↔ id ∈ run.ids) : Algebra runs := by
  intro p S hp
  obtain ⟨hgood, hmem⟩ := h.derived hruns hp
  exact (h.holds hgood).congr hmem

/-! ## Arrays, over all identifiers -/

def Sorted (p : Postings) : Prop := ∃ ids, Ascending ids ∧ p = .array ids

variable {ids : List ℕ}

lemma has_array (h : Ascending ids) (id : ℕ) : (Postings.array ids).has id ↔ id ∈ ids := by
  rw [Postings.has, search_iff h _ _ _ _ (by omega) le_rfl, mem_iff_getElem?]
  constructor
  · rintro ⟨i, -, -, hi⟩
    exact ⟨i, hi⟩
  · rintro ⟨i, hi⟩
    exact ⟨i, Nat.zero_le i, (List.getElem?_eq_some_iff.1 hi).1, hi⟩

lemma holds_array (h : Ascending ids) : Holds (.array ids) (Postings.array ids).Mem :=
  ⟨has_array h, ids, h, fun _ => Iff.rfl, rfl, rfl, rfl⟩

lemma sorted_closed : Closed Sorted where
  empty := ⟨[], Ascending.nil, rfl⟩
  and := by
    rintro _ _ ⟨x, hx, rfl⟩ ⟨y, hy, rfl⟩
    exact ⟨⟨_, mergeAnd_ascending hx hy, rfl⟩, mem_mergeAnd hx hy⟩
  or := by
    rintro _ _ ⟨x, hx, rfl⟩ ⟨y, hy, rfl⟩
    exact ⟨⟨_, mergeOr_ascending hx hy, rfl⟩, mem_mergeOr⟩
  toArray := by
    rintro _ ⟨x, hx, rfl⟩
    exact ⟨⟨x, hx, rfl⟩, fun _ => Iff.rfl⟩
  andNot := by
    rintro _ b ⟨x, hx, rfl⟩ ⟨y, hy, rfl⟩
    unfold Postings.andNot
    split_ifs with h0
    · exact ⟨⟨x, hx, rfl⟩, fun id => (and_iff_left (Postings.size_eq_zero_iff.1 h0 id)).symm⟩
    · refine ⟨⟨_, hx.filter _, rfl⟩, fun id => ?_⟩
      rw [Postings.Mem, mem_filter, Bool.not_eq_true', ← Bool.not_eq_true, has_array hy]
      rfl
  holds := by
    rintro _ ⟨x, hx, rfl⟩
    exact holds_array hx

/-! ## Bitsets below `2 ^ 31` -/

lemma popcountWords_eq (words : List (BitVec 32)) : popcountWords words = (wordIds words).length := by
  rw [popcountWords, wordIds, length_flatMap]
  simp only [length_map]
  rw [← zipIdx_map_fst 0 words, List.map_map]
  simp only [Function.comp_def, popcount_toNat, zipIdx_map_fst]

lemma holds_valid (h : p.Valid) : Holds p p.Mem := by
  cases p with
  | array ids => exact holds_array h.1
  | bitset words bound =>
    obtain ⟨harray, hmem⟩ := h.toArray
    obtain ⟨-, hlist⟩ := h.iterate_enumerates
    refine ⟨fun id => h.has_iff, _, harray.1, hmem, ?_, ?_, rfl⟩
    · rw [length_map]
      exact popcountWords_eq words
    · have hback : ∀ z ∈ wordIds words, Int.ofNat (z % 0x100000000).toNat = z := by
        intro z hz
        obtain ⟨id, hid, rfl⟩ := (hlist z).1 hz
        have := h.lt hid
        rw [Int.ofNat_eq_natCast]
        omega
      rw [Postings.iterate, List.map_map]
      calc wordIds words = (wordIds words).map id := (List.map_id _).symm
        _ = _ := map_congr_left fun z hz => (hback z hz).symm

lemma valid_closed : Closed Postings.Valid where
  toLawful := Postings.valid_lawful
  toArray := Postings.Valid.toArray
  andNot := Postings.Valid.andNot
  holds := holds_valid

lemma Run.valid (run : Run) (hlt : ∀ id ∈ run.ids, id < 0x80000000) :
    run.postings.Valid ∧ ∀ id, run.postings.Mem id ↔ id ∈ run.ids := by
  rw [Run.postings]
  split_ifs
  · exact dense_valid hlt
  · exact ⟨⟨run.ascending, hlt⟩, fun _ => Iff.rfl⟩

/-! ## From `2 ^ 31` on -/

/-- A bitset hands out nothing from `2 ^ 31` on, whatever its bits: the word offset is below. -/
theorem lt_of_mem_wordIds {words : List (BitVec 32)} {z : ℤ} (h : z ∈ wordIds words) : z < 0x80000000 := by
  simp only [wordIds, mem_flatMap, List.mem_map] at h
  obtain ⟨w, -, i, hi, rfl⟩ := h
  have := BitVec.lt_of_getLsbD (mem_setBits.1 hi)
  rw [int32]
  split_ifs <;> omega

lemma or_dense {a b : Postings} (ha : ∃ words bound, a = .bitset words bound) :
    ∃ words bound, a.or b = .bitset words bound := by
  obtain ⟨words, bound, rfl⟩ := ha
  cases b with
  | array | bitset => exact ⟨_, _, rfl⟩

/-- With a bitset among the given sets, an identifier from `2 ^ 31` on in any of them is lost in
the union of the two. -/
theorem not_algebra_of_dense {run other : Run} (hrun : run ∈ runs)
    (hdense : run.dense = true) (hother : other ∈ runs) {id : ℕ} (hid : id ∈ other.ids)
    (hge : 0x80000000 ≤ id) : ¬ Algebra runs := by
  intro h
  obtain ⟨-, ids, -, hmem, -, hlist, -⟩ := h _ _ ((Derived.given hrun).or (Derived.given hother))
  obtain ⟨words, bound, hor⟩ := or_dense (a := run.postings) (b := other.postings)
    ⟨_, _, by rw [Run.postings, if_pos hdense, denseOf]⟩
  have hin : (id : ℤ) ∈ wordIds words := by
    have : (id : ℤ) ∈ ids.map Int.ofNat := List.mem_map.2 ⟨id, (hmem id).2 (Or.inr hid), rfl⟩
    rwa [← hlist, hor] at this
  have := lt_of_mem_wordIds hin
  omega

/-- Every set derived from the given ones has the members, the size and the ascending listings
that the same operations on sets of identifiers give, exactly when all given sets are arrays or
all given identifiers are below `2 ^ 31`. -/
theorem algebra_iff (runs : List Run) : Algebra runs ↔ (∀ run ∈ runs, run.dense = false) ∨
      ∀ run ∈ runs, ∀ id ∈ run.ids, id < 0x80000000 := by
  constructor
  · intro h
    by_contra hno
    push Not at hno
    obtain ⟨⟨run, hrun, hdense⟩, other, hother, id, hid, hge⟩ := hno
    exact not_algebra_of_dense hrun (by simpa using hdense) hother hid hge h
  · rintro (hsparse | hlt)
    · refine sorted_closed.algebra fun run hrun => ?_
      rw [Run.postings, hsparse run hrun]
      exact ⟨⟨_, run.ascending, rfl⟩, fun _ => Iff.rfl⟩
    · exact valid_closed.algebra fun run hrun => run.valid (hlt run hrun)

/-- A builder keeps `0` in a bitset and `2 ^ 31` in an array; their union hands out `- 2 ^ 31`. -/
theorem not_algebra : ¬ ∀ runs, Algebra runs := by
  intro h
  set zero : Run := ⟨[0], true, by decide, by decide⟩ with hzero
  set high : Run := ⟨[0x80000000], false, by decide, by decide⟩ with hhigh
  have hid : 0x80000000 ∈ high.ids := List.mem_singleton.2 rfl
  have hlow : zero ∈ [zero, high] := List.mem_cons_self ..
  have hhas : high ∈ [zero, high] := List.mem_cons_of_mem _ (List.mem_singleton.2 rfl)
  exact not_algebra_of_dense hlow rfl hhas hid le_rfl (h _)

end Zelavis.Db.PostingAlgebra
