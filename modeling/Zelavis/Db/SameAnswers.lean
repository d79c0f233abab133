import Zelavis.Db.Resolve

/-!
# Stores with the same manifests

A query's answer is told by the postings the manifests hold, whichever tier has them, so two stores
with the same manifests answer it alike, as far as its term prefixes are answered by their postings.
-/

namespace Zelavis.Db.SameAnswers

open Lib OrderedMap

variable {W : Seq → IndexManifest → Prop} {m m' : Store}

/-- A term prefix is answered by its postings: the runs under it build, and no identifier with a
tombstone under it still has a posting under it. -/
structure PrefixSteady (m : Store) (field pre : Utf16) : Prop where
  runs : RunsBuild m (termPrefixKey field pre)
  kept : ∀ P, IsPosting P → termPrefixKey field pre <+: P → Holds m.get P →
    ¬Removed m (termPrefixKey field pre) (seqOf P)

def Steady (m : Store) (q : Query) : Prop :=
  ∀ field pre, .termPrefix field pre ∈ q.leaves → PrefixSteady m field pre

lemma postingsUnder_steady (h : Tiers W m.get) (hW : Below W) {field pre : Utf16}
    (hsteady : PrefixSteady m field pre) : (postingsUnder m (termPrefixKey field pre)).Valid ∧
      ∀ id, (postingsUnder m (termPrefixKey field pre)).Mem id ↔
        ∃ P, IsPosting P ∧ termPrefixKey field pre <+: P ∧ seqOf P = id ∧ Holds m.get P := by
  obtain ⟨hvalid, hmem⟩ := postingsUnder_of_buildable h hW (cuts_termPrefixKey field pre) hsteady.runs
  refine ⟨hvalid, fun id => ?_⟩
  rw [hmem]
  constructor
  · rintro ⟨⟨P, hP, hp, rfl, htier⟩, hno⟩
    refine ⟨P, hP, hp, rfl, (h.answer P hP).1 ⟨htier, by_contra fun htomb => ?_⟩⟩
    exact hno ⟨P, hP, hp, rfl, htomb⟩
  · rintro ⟨P, hP, hp, rfl, hholds⟩
    exact ⟨⟨P, hP, hp, rfl, ((h.answer P hP).2 hholds).1⟩, hsteady.kept P hP hp hholds⟩

/-! ## Agreement -/

def Alike (run run' : Postings) : Prop :=
  run.Valid ∧ run'.Valid ∧ ∀ id, run.Mem id ↔ run'.Mem id

def Agree (m m' : Store) (q : Query) : Prop :=
  (evaluate m q = none ∧ evaluate m' q = none) ∨
    ∃ run run', evaluate m q = some run ∧ evaluate m' q = some run' ∧ Alike run run'

lemma Alike.iterate {run run' : Postings} (h : Alike run run') : run'.iterate = run.iterate := by
  obtain ⟨hvalid, hvalid', hmem⟩ := h
  obtain ⟨hasc, hout⟩ := hvalid.iterate_enumerates
  obtain ⟨hasc', hout'⟩ := hvalid'.iterate_enumerates
  refine hasc'.ext hasc fun z => ?_
  rw [hout, hout']
  exact exists_congr fun id => by rw [hmem]

variable {q : Query}

lemma Agree.resolve (h : Agree m m' q) : resolve m' q = resolve m q := by
  rw [Db.resolve, Db.resolve]
  rcases h with ⟨hnone, hnone'⟩ | ⟨run, run', hrun, hrun', halike⟩
  · rw [hnone, hnone']
  · rw [hrun, hrun', Option.map_some, Option.map_some, halike.iterate]

/-! ## Combinations -/

lemma evaluateEach_agree {qs : List Query} (h : ∀ q ∈ qs, Agree m m' q) :
    (evaluateEach m qs = none ∧ evaluateEach m' qs = none) ∨
      ∃ runs runs', evaluateEach m qs = some runs ∧ evaluateEach m' qs = some runs' ∧
        List.Forall₂ Alike runs runs' := by
  induction qs with
  | nil => exact .inr ⟨[], [], rfl, rfl, List.Forall₂.nil⟩
  | cons q qs ih =>
    rcases h q (List.mem_cons_self ..) with ⟨hnone, hnone'⟩ | ⟨run, run', hrun, hrun', halike⟩
    · exact .inl ⟨by rw [evaluateEach, hnone]; rfl, by rw [evaluateEach, hnone']; rfl⟩
    · rcases ih fun q hq => h q (List.mem_cons_of_mem _ hq) with
        ⟨hnone, hnone'⟩ | ⟨runs, runs', hruns, hruns', hall⟩
      · exact .inl ⟨by rw [evaluateEach, hrun, hnone]; rfl, by rw [evaluateEach, hrun', hnone']; rfl⟩
      · exact .inr ⟨run :: runs, run' :: runs', by rw [evaluateEach, hrun, hruns]; rfl,
          by rw [evaluateEach, hrun', hruns']; rfl, List.Forall₂.cons halike hall⟩

lemma alike_all {runs runs' : List Postings} (h : List.Forall₂ Alike runs runs') :
    (∀ run ∈ runs, run.Valid) ∧ (∀ run ∈ runs', run.Valid) ∧ (runs = [] ↔ runs' = []) ∧ ∀ id,
      ((∀ run ∈ runs, run.Mem id) ↔ ∀ run ∈ runs', run.Mem id) ∧
      ((∃ run ∈ runs, run.Mem id) ↔ ∃ run ∈ runs', run.Mem id) := by
  induction h with
  | nil => simp
  | cons halike _ ih =>
    obtain ⟨hvalid, hvalid', -, hmem⟩ := ih
    obtain ⟨hrun, hrun', hsame⟩ := halike
    refine ⟨List.forall_mem_cons.2 ⟨hrun, hvalid⟩, List.forall_mem_cons.2 ⟨hrun', hvalid'⟩, by simp,
      fun id => ?_⟩
    simp only [List.forall_mem_cons, List.exists_mem_cons_iff, hsame id, (hmem id).1, (hmem id).2, and_self]

lemma agree_of_leaves (h : ∀ leaf ∈ q.leaves, Agree m m' leaf) : Agree m m' q := by
  refine q.induction (fun leaf _ hmem => h leaf hmem) (fun qs hqs => ?_) (fun qs hqs => ?_)
  · rcases evaluateEach_agree hqs with ⟨hnone, hnone'⟩ | ⟨runs, runs', hruns, hruns', hall⟩
    · exact .inl ⟨by rw [evaluate, hnone]; rfl, by rw [evaluate, hnone']; rfl⟩
    · obtain ⟨hvalid, hvalid', hnil, hmem⟩ := alike_all hall
      obtain ⟨hand, hmemand⟩ := Postings.valid_lawful.andAll hvalid
      obtain ⟨hand', hmemand'⟩ := Postings.valid_lawful.andAll hvalid'
      refine .inr ⟨_, _, by rw [evaluate, hruns]; rfl, by rw [evaluate, hruns']; rfl, hand, hand',
        fun id => ?_⟩
      rw [hmemand, hmemand', (hmem id).1, Ne, hnil]
  · rcases evaluateEach_agree hqs with ⟨hnone, hnone'⟩ | ⟨runs, runs', hruns, hruns', hall⟩
    · exact .inl ⟨by rw [evaluate, hnone]; rfl, by rw [evaluate, hnone']; rfl⟩
    · obtain ⟨hvalid, hvalid', -, hmem⟩ := alike_all hall
      obtain ⟨hor, hmemor⟩ := Postings.valid_lawful.orAll hvalid
      obtain ⟨hor', hmemor'⟩ := Postings.valid_lawful.orAll hvalid'
      refine .inr ⟨_, _, by rw [evaluate, hruns]; rfl, by rw [evaluate, hruns']; rfl, hor, hor',
        fun id => ?_⟩
      rw [hmemor, hmemor', (hmem id).2]

/-! ## Leaves -/

section

variable (h : Tiers W m.get) (h' : Tiers W m'.get) (hW : Below W)
  (hsame : ∀ P, Holds m.get P ↔ Holds m'.get P)

include h h' hW hsame

lemma alike_lens {l : Key} (hl : l ∈ lensCode) : Alike (postingsUnder m l) (postingsUnder m' l) := by
  obtain ⟨hvalid, hmem⟩ := postingsUnder_lens h hW hl
  obtain ⟨hvalid', hmem'⟩ := postingsUnder_lens h' hW hl
  exact ⟨hvalid, hvalid', fun id => by rw [hmem, hmem', hsame]⟩

lemma agree_range (column : Utf16) (lower upper : Option RangeBound) :
    Agree m m' (.range column lower upper) := by
  cases hb : rangeBounds column lower upper with
  | none =>
    refine .inl ⟨?_, ?_⟩
    · rw [evaluate, rangePostings, hb]
      rfl
    · rw [evaluate, rangePostings, hb]
      rfl
  | some bounds =>
    obtain ⟨run, hrun, hvalid, hmem⟩ := rangePostings_valid h hW hb
    obtain ⟨run', hrun', hvalid', hmem'⟩ := rangePostings_valid h' hW hb
    refine .inr ⟨run, run', by rw [evaluate, hrun], by rw [evaluate, hrun'], hvalid, hvalid', fun id => ?_⟩
    rw [hmem, hmem']
    exact exists_congr fun P => by rw [hsame]

lemma agree (hq : Steady m q) (hq' : Steady m' q) : Agree m m' q := by
  have hlens : ∀ {leaf : Query} {l : Key}, l ∈ lensCode →
      (∀ m, evaluate m leaf = some (postingsUnder m l)) → Agree m m' leaf := fun hl heval =>
    .inr ⟨_, _, heval m, heval m', alike_lens h h' hW hsame hl⟩
  refine agree_of_leaves fun leaf hleaf => ?_
  cases leaf with
  | term field name =>
    exact hlens (termPrefix_mem_lensCode field name) fun m => by rw [evaluate]
  | termPrefix field pre =>
    obtain ⟨hvalid, hmem⟩ := postingsUnder_steady h hW (hq field pre hleaf)
    obtain ⟨hvalid', hmem'⟩ := postingsUnder_steady h' hW (hq' field pre hleaf)
    refine .inr ⟨_, _, by rw [evaluate], by rw [evaluate], hvalid, hvalid', fun id => ?_⟩
    rw [hmem, hmem']
    exact exists_congr fun P => by rw [hsame]
  | equals column value =>
    cases hl : orderedValuePrefix column (.scalar value) with
    | none =>
      refine .inl ⟨?_, ?_⟩
      · rw [evaluate, hl]
        rfl
      · rw [evaluate, hl]
        rfl
    | some l =>
      refine hlens (orderedValuePrefix_mem_lensCode hl) fun m => ?_
      rw [evaluate, hl]
      rfl
  | edge edgeType src direction =>
    cases direction with
    | outbound => exact hlens (edgePrefix_mem_lensCode edgeType src) fun m => by rw [evaluate]
    | inbound => exact hlens (reverseEdgePrefix_mem_lensCode edgeType src) fun m => by rw [evaluate]
  | range column lower upper => exact agree_range h h' hW hsame column lower upper
  | and | or => exact absurd (q.isLeaf_of_mem_leaves _ hleaf) (by simp [Query.isLeaf])

end

lemma holds_congr (hman : manifestAt m' = manifestAt m) (P : Key) : Holds m.get P ↔ Holds m'.get P := by
  rw [holds_iff, holds_iff, hman]

end Zelavis.Db.SameAnswers
