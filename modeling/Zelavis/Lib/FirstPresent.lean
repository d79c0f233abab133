import Mathlib.Data.List.Basic
import Mathlib.Logic.Nontrivial.Basic

/-!
# Values that are the first of several to be there

A record has a value under some of its names. A source says where a value is taken from: the first of some
names that has one, or else a constant. A table of sources makes of one record another, each of its names
filled from its own source.
-/

namespace Zelavis.Lib

open Option

/-- Where a value is taken from. -/
structure Source (ν α : Type) where
  names : List ν
  otherwise : Option α

namespace Source

variable {ν α : Type}

def eval (s : Source ν α) (M : ν → Option α) : Option α := (s.names.findSome? M).or s.otherwise

def nothing : Source ν α := ⟨[], none⟩

def isNothing (s : Source ν α) : Bool := s.names.isEmpty && s.otherwise.isNone

def orElse (s s' : Source ν α) : Source ν α :=
  if s.otherwise.isSome then s else ⟨s.names ++ s'.names, s'.otherwise⟩

variable {s : Source ν α}

lemma isNothing_iff : s.isNothing = true ↔ s = nothing := by
  obtain ⟨names, otherwise⟩ := s
  simp [isNothing, nothing]

@[simp] lemma eval_nothing (M : ν → Option α) : (nothing : Source ν α).eval M = none := rfl

lemma eval_name (n : ν) (M : ν → Option α) : (⟨[n], none⟩ : Source ν α).eval M = M n := by
  unfold eval
  cases h : M n <;> simp [h]

lemma eval_orElse (s s' : Source ν α) (M : ν → Option α) :
    (s.orElse s').eval M = (s.eval M).or (s'.eval M) := by
  unfold orElse eval
  split_ifs with h
  · obtain ⟨v, hv⟩ := isSome_iff_exists.1 h
    rw [hv, Option.or_assoc]
    rfl
  · rw [List.findSome?_append, not_isSome_iff_eq_none.1 h, or_none, Option.or_assoc]

lemma names_orElse (s s' : Source ν α) {n : ν} (h : n ∈ (s.orElse s').names) :
    n ∈ s.names ∨ n ∈ s'.names := by
  unfold orElse at h
  split_ifs at h
  · exact .inl h
  · exact List.mem_append.1 h

/-! ## What a source may come to -/

section

variable (given : ν → Bool)

def IsSure (s : Source ν α) : Prop := s.otherwise.isSome = true ∨ ∃ n ∈ s.names, given n = true

instance (s : Source ν α) : Decidable (s.IsSure given) := by
  unfold IsSure
  infer_instance

def Possible (s : Source ν α) : Option α → Prop
  | none => ¬s.IsSure given
  | some v => s.names ≠ [] ∨ s.otherwise = some v

end

variable {given : ν → Bool} {x : Option α}

lemma possible_nothing (h : (nothing : Source ν α).Possible given x) : x = none := by
  cases x with
  | none => rfl
  | some v => simp [Possible, nothing] at h

lemma possible_eval (s : Source ν α) {M : ν → Option α} (hM : ∀ n, given n = true → (M n).isSome = true) :
    s.Possible given (s.eval M) := by
  cases h : s.eval M with
  | none =>
    obtain ⟨hnames, hotherwise⟩ := or_eq_none_iff.1 h
    rintro (hsome | ⟨n, hn, hgiven⟩)
    · rw [hotherwise] at hsome
      cases hsome
    · have hsome := hM n hgiven
      rw [List.findSome?_eq_none_iff.1 hnames n hn] at hsome
      cases hsome
  | some v =>
    by_cases hnil : s.names = []
    · refine .inr ?_
      rwa [eval, hnil, List.findSome?_nil, none_or] at h
    · exact .inl hnil

def usual (s : Source ν α) (v : α) : Option α := if s.names = [] then s.otherwise else some v

lemma possible_usual (s : Source ν α) (v : α) : s.Possible given (s.usual v) := by
  unfold usual
  split_ifs with hnil
  · cases h : s.otherwise with
    | none => simp [Possible, IsSure, hnil, h]
    | some w => exact .inr h
  · exact .inl hnil

lemma isSome_usual (h : s.isNothing = false) (v : α) : (s.usual v).isSome = true := by
  unfold usual
  split_ifs with hnil
  · cases hother : s.otherwise with
    | none => simp [isNothing, hnil, hother] at h
    | some w => rfl
  · rfl

/-! ## Records a table leaves alone -/

section

variable [DecidableEq ν] (given : ν → Bool) (T T' : ν → Source ν α) (keep : List ν)

/-- A record that a table may make. -/
structure MadeBy (D : ν → Option α) : Prop where
  kept : ∀ f ∈ keep, (T f).Possible given (D f)
  other : ∀ f ∉ keep, D f = none

def isAlive (f : ν) : Bool := decide (f ∈ keep) && !(T f).isNothing

/-- A name whose source in a second table finds what the first table put there: it looks at the name itself
first, of those that may be there, and does not look further where there is nothing; or what it finds is
the one constant that is ever there. -/
def IsSettled (f : ν) : Prop :=
  match (T' f).names.find? (isAlive T keep) with
  | none => (T f).names = [] ∧ (T f).otherwise = (T' f).otherwise
  | some g =>
    if g = f then
      (T f).IsSure given ∨ (T' f).otherwise = none ∧ ∀ h ∈ (T' f).names, isAlive T keep h = true → h = f
    else (T g).names = [] ∧ (T f).names = [] ∧ (T g).otherwise = (T f).otherwise

instance [DecidableEq α] (f : ν) : Decidable (IsSettled given T T' keep f) :=
  match hfind : (T' f).names.find? (isAlive T keep) with
  | none => decidable_of_iff ((T f).names = [] ∧ (T f).otherwise = (T' f).otherwise)
      (by rw [IsSettled, hfind])
  | some g =>
    if hg : g = f then
      decidable_of_iff ((T f).IsSure given ∨
          (T' f).otherwise = none ∧ ∀ h ∈ (T' f).names, isAlive T keep h = true → h = f)
        (by rw [IsSettled, hfind]; simp only [if_pos hg])
    else
      decidable_of_iff ((T g).names = [] ∧ (T f).names = [] ∧ (T g).otherwise = (T f).otherwise)
        (by rw [IsSettled, hfind]; simp only [if_neg hg])

end

section

variable [DecidableEq ν] {T T' : ν → Source ν α} {keep : List ν} {D : ν → Option α} {f : ν}

lemma MadeBy.eq_none (h : MadeBy given T keep D) {g : ν} (hg : isAlive T keep g = false) : D g = none := by
  by_cases hkeep : g ∈ keep
  · have hnothing : (T g).isNothing = true := by simpa [isAlive, hkeep] using hg
    have hpossible := h.kept g hkeep
    rw [isNothing_iff.1 hnothing] at hpossible
    exact possible_nothing hpossible
  · exact h.other g hkeep

lemma MadeBy.findSome_eq_none (h : MadeBy given T keep D) {names : List ν}
    (hnames : ∀ g ∈ names, isAlive T keep g = false) : names.findSome? D = none :=
  List.findSome?_eq_none_iff.2 fun g hg => h.eq_none (hnames g hg)

lemma MadeBy.set (h : MadeBy given T keep D) (hf : f ∈ keep)
    (hx : (T f).Possible given x) : MadeBy given T keep (Function.update D f x) where
  kept g hg := by
    by_cases heq : g = f
    · subst heq
      rwa [Function.update_self]
    · rw [Function.update_of_ne heq]
      exact h.kept g hg
  other g hg := by
    have hne : g ≠ f := fun heq => hg (heq ▸ hf)
    rw [Function.update_of_ne hne]
    exact h.other g hg

lemma madeBy_usual (v : α) : MadeBy given T keep fun f => if f ∈ keep then (T f).usual v else none where
  kept f hf := by
    rw [if_pos hf]
    exact possible_usual (T f) v
  other f hf := if_neg hf

omit [DecidableEq ν] in
lemma MadeBy.eq_otherwise (h : MadeBy given T keep D) (hf : f ∈ keep) (hnil : (T f).names = []) :
    D f = (T f).otherwise := by
  have hpossible := h.kept f hf
  cases hvalue : D f with
  | none =>
    rw [hvalue] at hpossible
    exact (not_isSome_iff_eq_none.1 fun hsome => hpossible (.inl hsome)).symm
  | some v =>
    rw [hvalue] at hpossible
    exact (hpossible.resolve_left (not_not.2 hnil)).symm

lemma mem_of_isAlive (h : isAlive T keep f = true) : f ∈ keep ∧ (T f).isNothing = false := by
  simpa [isAlive] using h

/-- What a source finds: what the first name that may be there has, or what the names after it have. -/
theorem MadeBy.eval_of_find (h : MadeBy given T keep D) {g : ν}
    (hfind : s.names.find? (isAlive T keep) = some g) : ∃ before after, s.names = before ++ g :: after ∧
      s.eval D = ((D g).or (after.findSome? D)).or s.otherwise := by
  obtain ⟨-, before, after, hnames, hdead⟩ := List.find?_eq_some_iff_append.1 hfind
  refine ⟨before, after, hnames, ?_⟩
  unfold eval
  rw [hnames, List.findSome?_append, h.findSome_eq_none (by simpa using hdead), none_or,
    List.findSome?_cons]
  cases D g <;> rfl

lemma MadeBy.eval_of_find_none (h : MadeBy given T keep D)
    (hfind : s.names.find? (isAlive T keep) = none) : s.eval D = s.otherwise := by
  unfold eval
  rw [h.findSome_eq_none (by simpa using List.find?_eq_none.1 hfind), none_or]

lemma IsSettled.eval_eq (h : IsSettled given T T' keep f) (hf : f ∈ keep) (hD : MadeBy given T keep D) :
    (T' f).eval D = D f := by
  unfold IsSettled at h
  split at h
  next hfind =>
    obtain ⟨hnil, hother⟩ := h
    rw [hD.eval_of_find_none hfind, hD.eq_otherwise hf hnil, hother]
  next g hfind =>
    obtain ⟨before, after, hnames, heval⟩ := hD.eval_of_find hfind
    rw [heval]
    split_ifs at h with hg
    · subst hg
      cases hvalue : D g with
      | some v => rfl
      | none =>
        have hpossible := hD.kept g hf
        rw [hvalue] at hpossible
        obtain ⟨hother, honly⟩ := h.resolve_left hpossible
        -- nothing else that may be there is looked at
        have hrest : after.findSome? D = none := by
          refine List.findSome?_eq_none_iff.2 fun e he => ?_
          by_cases halive : isAlive T keep e = true
          · rw [honly e (by rw [hnames]; simp [he]) halive, hvalue]
          · exact hD.eq_none (by simpa using halive)
        rw [hrest, hother]
        rfl
    · obtain ⟨hnil, hnil', hother⟩ := h
      obtain ⟨hkeep, hsome⟩ := mem_of_isAlive (List.find?_some hfind)
      have hg := hD.eq_otherwise hkeep hnil
      rw [hD.eq_otherwise hf hnil', ← hother, hg]
      cases hvalue : (T g).otherwise with
      | none => simp [isNothing, hnil, hvalue] at hsome
      | some v => rfl

lemma isSettled_of_eval_eq [Nontrivial α] (hf : f ∈ keep)
    (h : ∀ D, MadeBy given T keep D → (T' f).eval D = D f) : IsSettled given T T' keep f := by
  obtain ⟨v, w, hvw⟩ := exists_pair_ne α
  have hv := @madeBy_usual ν α given _ T keep v
  have htwo : ∀ {g}, (T g).names ≠ [] → (T g).Possible given (some v) ∧ (T g).Possible given (some w) :=
    fun hne => ⟨.inl hne, .inl hne⟩
  unfold IsSettled
  split
  next hfind =>
    have hconst : ∀ D, MadeBy given T keep D → D f = (T' f).otherwise := fun D hD =>
      (h D hD).symm.trans (hD.eval_of_find_none hfind)
    have hnil : (T f).names = [] := by
      by_contra hne
      have h₁ := hconst _ (hv.set hf (htwo hne).1)
      have h₂ := hconst _ (hv.set hf (htwo hne).2)
      rw [Function.update_self] at h₁ h₂
      exact hvw (some.inj (h₁.trans h₂.symm))
    exact ⟨hnil, (hv.eq_otherwise hf hnil).symm.trans (hconst _ hv)⟩
  next g hfind =>
    obtain ⟨hkeep, hsome⟩ := mem_of_isAlive (List.find?_some hfind)
    split_ifs with hg
    · subst hg
      by_cases hsure : (T g).IsSure given
      · exact .inl hsure
      · -- where the name has nothing, nothing is found
        have hD := hv.set hf (x := none) hsure
        have hfound := h _ hD
        rw [Function.update_self, eval, or_eq_none_iff] at hfound
        refine .inr ⟨hfound.2, fun e he halive => ?_⟩
        by_contra hne
        obtain ⟨hkeep', hsome'⟩ := mem_of_isAlive halive
        have hnone := List.findSome?_eq_none_iff.1 hfound.1 e he
        rw [Function.update_of_ne hne, if_pos hkeep'] at hnone
        have hthere := isSome_usual hsome' v
        rw [hnone] at hthere
        cases hthere
    · -- what is found is what the other name has
      have hfound : ∀ D, MadeBy given T keep D → (D g).isSome = true → D f = D g := by
        intro D hD hthere
        obtain ⟨before, after, -, heval⟩ := hD.eval_of_find hfind
        obtain ⟨x, hx⟩ := isSome_iff_exists.1 hthere
        rw [← h D hD, heval, hx]
        rfl
      have hthere : (if g ∈ keep then (T g).usual v else none).isSome = true := by
        rw [if_pos hkeep]
        exact isSome_usual hsome v
      have hnil : (T g).names = [] := by
        by_contra hne
        have h₁ := hfound _ (hv.set hkeep (htwo hne).1) (by rw [Function.update_self]; rfl)
        have h₂ := hfound _ (hv.set hkeep (htwo hne).2) (by rw [Function.update_self]; rfl)
        rw [Function.update_self, Function.update_of_ne (Ne.symm hg)] at h₁ h₂
        exact hvw (some.inj (h₁.symm.trans h₂))
      have hnil' : (T f).names = [] := by
        by_contra hne
        have h₁ := hfound _ (hv.set hf (htwo hne).1) (by rw [Function.update_of_ne hg]; exact hthere)
        have h₂ := hfound _ (hv.set hf (htwo hne).2) (by rw [Function.update_of_ne hg]; exact hthere)
        rw [Function.update_self, Function.update_of_ne hg] at h₁ h₂
        exact hvw (some.inj (h₁.trans h₂.symm))
      have hsame := hfound _ hv hthere
      rw [hv.eq_otherwise hf hnil', hv.eq_otherwise hkeep hnil] at hsame
      exact ⟨hnil, hnil', hsame.symm⟩

/-- A second table leaves every record that a first may make alone exactly where all names are settled. -/
theorem forall_eval_eq_iff [Nontrivial α] : (∀ D, MadeBy given T keep D → ∀ f ∈ keep, (T' f).eval D = D f) ↔
      ∀ f ∈ keep, IsSettled given T T' keep f :=
  ⟨fun h f hf => isSettled_of_eval_eq hf fun D hD => h D hD f hf, fun h _ hD f hf => (h f hf).eval_eq hf hD⟩

/-- Where no two names draw on one, every record that a table may make it makes: of a record that has what
is always there, and else only names it draws on. -/
theorem MadeBy.exists_eval [Nonempty α] (h : MadeBy given T keep D)
    (hapart : ∀ f g, f ≠ g → ∀ n ∈ (T f).names, n ∉ (T g).names) :
    ∃ M : ν → Option α, (∀ n, given n = true → (M n).isSome = true) ∧
      (∀ n, (M n).isSome = true → given n = true ∨ ∃ f ∈ keep, n ∈ (T f).names) ∧
      ∀ f ∈ keep, (T f).eval M = D f := by
  obtain ⟨v⟩ := ‹Nonempty α›
  let M : ν → Option α := fun n =>
    match keep.find? fun f => n ∈ (T f).names with
    | some f => D f
    | none => if given n = true then some v else none
  have hdrawn : ∀ f ∈ keep, ∀ n ∈ (T f).names, M n = D f := by
    intro f hf n hn
    cases hfind : keep.find? fun f => n ∈ (T f).names with
    | none => exact absurd hn (by simpa using List.find?_eq_none.1 hfind f hf)
    | some g =>
      have hg : n ∈ (T g).names := by simpa using List.find?_some hfind
      have hsame : g = f := by
        by_contra hne
        exact hapart g f hne n hg hn
      simp only [M, hfind, hsame]
  refine ⟨M, fun n hn => ?_, fun n hn => ?_, fun f hf => ?_⟩
  · cases hfind : keep.find? fun f => n ∈ (T f).names with
    | none => simp [M, hfind, hn]
    | some f =>
      have hf := List.mem_of_find?_eq_some hfind
      have hdraws : n ∈ (T f).names := by simpa using List.find?_some hfind
      have hpossible := h.kept f hf
      rw [hdrawn f hf n hdraws]
      cases hvalue : D f with
      | none =>
        rw [hvalue] at hpossible
        exact absurd (.inr ⟨n, hdraws, hn⟩) hpossible
      | some w => rfl
  · cases hfind : keep.find? fun f => n ∈ (T f).names with
    | none =>
      simp only [M, hfind] at hn
      split_ifs at hn with hgiven
      · exact .inl hgiven
      · cases hn
    | some f =>
      exact .inr ⟨f, List.mem_of_find?_eq_some hfind, by simpa using List.find?_some hfind⟩
  · cases hnames : (T f).names with
    | nil =>
      rw [h.eq_otherwise hf hnames, eval, hnames, List.findSome?_nil, none_or]
    | cons n rest =>
      have hall : ∀ e ∈ n :: rest, M e = D f := fun e he => hdrawn f hf e (hnames ▸ he)
      have hpossible := h.kept f hf
      rw [eval, hnames]
      cases hvalue : D f with
      | none =>
        rw [hvalue] at hpossible hall
        rw [List.findSome?_eq_none_iff.2 hall, none_or]
        exact not_isSome_iff_eq_none.1 fun hsome => hpossible (.inl hsome)
      | some w =>
        rw [List.findSome?_cons, hall n List.mem_cons_self, hvalue]
        rfl

end

end Source

end Zelavis.Lib
