import Mathlib.Data.List.Sort
import Mathlib.Data.List.Pairwise
import Mathlib.Order.Basic

/-!
# Ordered maps as sorted association lists

* `OrderedMap K V` — a finite map from a linear order, kept as the list of its entries with
  strictly ascending keys.
* `Write K V`, `apply` — a batch of puts and deletes, the later write winning.
-/

namespace Zelavis.Lib

open List

/-- A finite map over a linear order, as its entries in strictly ascending key order. -/
structure OrderedMap (K V : Type) [LinearOrder K] where
  entries : List (K × V)
  sorted : entries.Pairwise fun a b => a.1 < b.1

namespace OrderedMap

variable {K V : Type} [LinearOrder K]

/-! ## Lookups -/

def lookupList (k : K) : List (K × V) → Option V
  | [] => none
  | (k', v) :: rest => if k = k' then some v else lookupList k rest

def get (m : OrderedMap K V) (k : K) : Option V := lookupList k m.entries

def empty : OrderedMap K V := ⟨[], List.Pairwise.nil⟩

instance : Inhabited (OrderedMap K V) := ⟨empty⟩

@[simp] lemma get_empty (k : K) : (empty : OrderedMap K V).get k = none := rfl

variable {l : List (K × V)} {k : K} {v : V}

lemma lookupList_eq_some_iff
    (hl : l.Pairwise fun a b => a.1 < b.1) : lookupList k l = some v ↔ (k, v) ∈ l := by
  induction l with
  | nil => simp [lookupList]
  | cons e l ih =>
    obtain ⟨k', v'⟩ := e
    rw [pairwise_cons] at hl
    rw [lookupList, mem_cons]
    split_ifs with h
    · subst h
      constructor
      · rintro ⟨⟩; exact Or.inl rfl
      · rintro (h | h)
        · simp [(Prod.mk.inj h).2]
        · exact absurd (hl.1 _ h) (lt_irrefl _)
    · rw [ih hl.2]
      constructor
      · exact Or.inr
      · rintro (h' | h')
        · exact absurd (Prod.mk.inj h').1 h
        · exact h'

variable {m : OrderedMap K V}

lemma mem_entries : (k, v) ∈ m.entries ↔ m.get k = some v :=
  (lookupList_eq_some_iff m.sorted).symm

lemma entries_ext {l l' : List (K × V)} (hl : l.Pairwise fun a b => a.1 < b.1)
    (hl' : l'.Pairwise fun a b => a.1 < b.1) (h : ∀ e, e ∈ l ↔ e ∈ l') : l = l' := by
  have hnd : ∀ {l : List (K × V)}, l.Pairwise (fun a b => a.1 < b.1) → l.Nodup := fun hl =>
    hl.imp fun hab he => absurd (he ▸ hab) (lt_irrefl _)
  refine List.Perm.eq_of_pairwise ?_ hl hl' ((perm_ext_iff_of_nodup (hnd hl) (hnd hl')).2 h)
  intro a b _ _ hab hba
  exact absurd (hab.trans hba) (lt_irrefl _)

/-! ## Insertion and removal -/

def insertList (k : K) (v : V) : List (K × V) → List (K × V)
  | [] => [(k, v)]
  | (k', v') :: rest =>
    if k < k' then (k, v) :: (k', v') :: rest
    else if k = k' then (k, v) :: rest
    else (k', v') :: insertList k v rest

lemma mem_insertList {e : K × V} (h : e ∈ insertList k v l) : e = (k, v) ∨ e ∈ l := by
  induction l with
  | nil => simpa [insertList] using h
  | cons e' l ih =>
    obtain ⟨k', v'⟩ := e'
    rw [insertList] at h
    split_ifs at h <;> grind

lemma insertList_sorted (hl : l.Pairwise fun a b => a.1 < b.1) :
    (insertList k v l).Pairwise fun a b => a.1 < b.1 := by
  induction l with
  | nil => simp [insertList]
  | cons e l ih =>
    obtain ⟨k', v'⟩ := e
    have hcons := pairwise_cons.1 hl
    rw [insertList]
    split_ifs with h h'
    · refine pairwise_cons.2 ⟨fun e he => ?_, hl⟩
      rcases mem_cons.1 he with rfl | he
      · exact h
      · exact h.trans (hcons.1 _ he)
    · subst h'
      exact pairwise_cons.2 ⟨fun e he => hcons.1 _ he, hcons.2⟩
    · refine pairwise_cons.2 ⟨fun e he => ?_, ih hcons.2⟩
      rcases mem_insertList he with rfl | he
      · exact lt_of_le_of_ne (not_lt.1 h) (Ne.symm h')
      · exact hcons.1 _ he

lemma lookupList_insertList (k k' : K) (v : V) (l : List (K × V)) :
    lookupList k' (insertList k v l) = if k' = k then some v else lookupList k' l := by
  induction l with
  | nil => simp [insertList, lookupList]
  | cons e l ih =>
    obtain ⟨k₁, v₁⟩ := e
    rw [insertList]
    split_ifs with h₁ h₂ h₃ <;> simp_all [lookupList]

def insert (m : OrderedMap K V) (k : K) (v : V) : OrderedMap K V :=
  ⟨insertList k v m.entries, insertList_sorted m.sorted⟩

lemma get_insert (m : OrderedMap K V) (k k' : K) (v : V) :
    (m.insert k v).get k' = if k' = k then some v else m.get k' :=
  lookupList_insertList k k' v m.entries

def erase (m : OrderedMap K V) (k : K) : OrderedMap K V :=
  ⟨m.entries.filter fun e => e.1 ≠ k, m.sorted.filter _⟩

lemma lookupList_filter (p : K → Bool) (k : K) (l : List (K × V)) :
    lookupList k (l.filter fun e => p e.1) = if p k then lookupList k l else none := by
  induction l with
  | nil => simp [lookupList]
  | cons e l ih =>
    obtain ⟨k', v'⟩ := e
    by_cases hp : p k' <;> by_cases hk : k = k' <;> simp_all [lookupList]

lemma get_erase (m : OrderedMap K V) (k k' : K) :
    (m.erase k).get k' = if k' = k then none else m.get k' := by
  have h := lookupList_filter (fun x => decide (x ≠ k)) k' m.entries
  rw [get, erase, h]
  by_cases hk : k' = k <;> simp [hk, get]

/-! ## Ranges -/

/-- The entries with `lo ≤ key`, and `key < hi` where an upper bound is given, in key order. -/
def between (m : OrderedMap K V) (lo : K) (hi : Option K) : List (K × V) :=
  m.entries.filter fun e => decide (lo ≤ e.1) && hi.all fun h => decide (e.1 < h)

lemma mem_between {lo : K} {hi : Option K} :
    (k, v) ∈ m.between lo hi ↔ m.get k = some v ∧ lo ≤ k ∧ ∀ h ∈ hi, k < h := by
  rw [between, mem_filter, mem_entries]
  cases hi <;> simp

lemma between_sorted (m : OrderedMap K V) (lo : K) (hi : Option K) :
    (m.between lo hi).Pairwise fun a b => a.1 < b.1 :=
  m.sorted.filter _

/-! ## From a list -/

/-- The map of a list of entries, an earlier entry before a later one of its key. -/
def ofList (l : List (K × V)) : OrderedMap K V := l.foldr (fun e m => m.insert e.1 e.2) empty

lemma mem_of_get_ofList (h : (ofList l).get k = some v) : (k, v) ∈ l := by
  induction l with
  | nil => cases h
  | cons e l ih =>
    have h : ((ofList l).insert e.1 e.2).get k = some v := h
    rw [get_insert] at h
    split_ifs at h with hk
    · cases h
      rw [hk]
      exact mem_cons_self
    · exact mem_cons_of_mem _ (ih h)

lemma get_ofList_of_mem (h : (k, v) ∈ l) : ∃ v', (ofList l).get k = some v' := by
  induction l with
  | nil => cases h
  | cons e l ih =>
    show ∃ v', ((ofList l).insert e.1 e.2).get k = some v'
    rw [get_insert]
    split_ifs with hk
    · exact ⟨e.2, rfl⟩
    · rcases mem_cons.1 h with heq | h
      · exact absurd (congrArg Prod.fst heq) hk
      · exact ih h

lemma length_insertList (k : K) (v : V) (l : List (K × V)) : (insertList k v l).length ≤ l.length + 1 := by
  induction l with
  | nil => exact le_rfl
  | cons e l ih =>
    obtain ⟨k', v'⟩ := e
    rw [insertList]
    split_ifs
    · exact le_rfl
    · exact Nat.le_succ _
    · exact Nat.succ_le_succ ih

lemma length_ofList (l : List (K × V)) : (ofList l).entries.length ≤ l.length := by
  induction l with
  | nil => exact le_rfl
  | cons e l ih => exact (length_insertList e.1 e.2 _).trans (Nat.succ_le_succ ih)

/-! ## Batches of writes -/

/-- One change of a batch. -/
inductive Write (K V : Type) where
  | put (key : K) (value : V)
  | delete (key : K)

def Write.key : Write K V → K
  | .put k _ => k
  | .delete k => k

def Write.value : Write K V → Option V
  | .put _ v => some v
  | .delete _ => none

def applyOne (m : OrderedMap K V) : Write K V → OrderedMap K V
  | .put k v => m.insert k v
  | .delete k => m.erase k

def apply (m : OrderedMap K V) (ws : List (Write K V)) : OrderedMap K V := ws.foldl applyOne m

def lastWrite : List (Write K V) → K → Option (Option V)
  | [], _ => none
  | w :: ws, k => (lastWrite ws k).or (if w.key = k then some w.value else none)

@[simp] lemma lastWrite_nil (k : K) : lastWrite ([] : List (Write K V)) k = none := rfl

lemma lastWrite_cons (w : Write K V) (ws : List (Write K V)) (k : K) :
    lastWrite (w :: ws) k = (lastWrite ws k).or (if w.key = k then some w.value else none) := rfl

lemma lastWrite_append (ws ws' : List (Write K V)) (k : K) :
    lastWrite (ws ++ ws') k = (lastWrite ws' k).or (lastWrite ws k) := by
  induction ws with
  | nil => simp
  | cons w ws ih => rw [cons_append, lastWrite_cons, ih, lastWrite_cons, Option.or_assoc]

lemma get_applyOne (m : OrderedMap K V) (w : Write K V) (k : K) :
    (m.applyOne w).get k = if k = w.key then w.value else m.get k := by
  cases w with
  | put k' v => rw [applyOne, get_insert]; rfl
  | delete k' => rw [applyOne, get_erase]; rfl

lemma get_apply (m : OrderedMap K V) (ws : List (Write K V)) (k : K) :
    (m.apply ws).get k = (lastWrite ws k).getD (m.get k) := by
  induction ws generalizing m with
  | nil => rfl
  | cons w ws ih =>
    refine (ih _).trans ?_
    rw [lastWrite_cons, get_applyOne]
    cases lastWrite ws k with
    | some v => simp
    | none =>
      rcases eq_or_ne k w.key with rfl | h
      · simp
      · simp [h, h.symm]

variable {ws : List (Write K V)}

lemma lastWrite_eq_none (h : ∀ w ∈ ws, w.key ≠ k) : lastWrite ws k = none := by
  induction ws with
  | nil => rfl
  | cons w ws ih =>
    rw [lastWrite_cons, if_neg (h w (by simp)), ih fun w hw => h w (by simp [hw])]
    rfl

lemma exists_of_lastWrite {v : Option V}
    (h : lastWrite ws k = some v) : ∃ w ∈ ws, w.key = k ∧ w.value = v := by
  induction ws with
  | nil => simp at h
  | cons w ws ih =>
    rw [lastWrite_cons] at h
    cases htail : lastWrite ws k with
    | some v' =>
      rw [htail, Option.some_or] at h
      obtain ⟨w', hw', hk⟩ := ih (htail.trans h)
      exact ⟨w', mem_cons_of_mem _ hw', hk⟩
    | none =>
      rw [htail, Option.none_or] at h
      split_ifs at h with hk
      exact ⟨w, by simp, hk, Option.some.inj h⟩

lemma lastWrite_eq_some {v : Option V}
    (hmem : ∃ w ∈ ws, w.key = k) (h : ∀ w ∈ ws, w.key = k → w.value = v) : lastWrite ws k = some v := by
  induction ws with
  | nil => obtain ⟨w, hw, -⟩ := hmem; simp at hw
  | cons w ws ih =>
    rw [lastWrite_cons]
    by_cases htail : ∃ w ∈ ws, w.key = k
    · rw [ih htail fun w hw => h w (by simp [hw])]
      rfl
    · have hnone : lastWrite ws k = none :=
        lastWrite_eq_none fun w hw he => htail ⟨w, hw, he⟩
      obtain ⟨w', hw', hk⟩ := hmem
      rcases mem_cons.1 hw' with rfl | hw'
      · rw [hnone, if_pos hk, h _ (by simp) hk]
        rfl
      · exact absurd ⟨w', hw', hk⟩ htail

end OrderedMap

end Zelavis.Lib
