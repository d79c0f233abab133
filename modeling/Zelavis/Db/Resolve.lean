import Zelavis.Db.Ranges

/-!
# What a query answers

In every store a run reaches, a query's answer is what the manifests say it should be.
-/

namespace Zelavis.Db

open Lib OrderedMap List

variable {W : Seq → IndexManifest → Prop} {m : Store}

/-- A query evaluates to a valid set of exactly the identifiers that satisfy it. -/
def Answered (m : Store) (q : Query) : Prop :=
  ∃ run, evaluate m q = some run ∧ run.Valid ∧ ∀ id, run.Mem id ↔ q.Satisfies (manifestAt m) id

variable {q : Query}

lemma Answered.resolve (h : Answered m q) :
    ∃ out, resolve m q = some out ∧ Enumerates out fun id => q.Satisfies (manifestAt m) id := by
  obtain ⟨run, hrun, hvalid, hmem⟩ := h
  obtain ⟨hasc, hout⟩ := hvalid.iterate_enumerates
  refine ⟨run.iterate, by rw [Db.resolve, hrun]; rfl, hasc, fun z => ?_⟩
  rw [hout]
  exact exists_congr fun id => by rw [hmem]

/-! ## Combinations -/

variable {qs : List Query}

lemma exists_runs (h : ∀ q ∈ qs, Answered m q) :
    ∃ runs, evaluateEach m qs = some runs ∧ List.Forall₂ (fun q (run : Postings) => run.Valid ∧
      ∀ id, run.Mem id ↔ q.Satisfies (manifestAt m) id) qs runs := by
  induction qs with
  | nil => exact ⟨[], rfl, List.Forall₂.nil⟩
  | cons q qs ih =>
    obtain ⟨run, hrun, hq⟩ := h q (mem_cons_self ..)
    obtain ⟨runs, hruns, hqs⟩ := ih fun q hq => h q (mem_cons_of_mem _ hq)
    exact ⟨run :: runs, by rw [evaluateEach, hrun, hruns]; rfl, List.Forall₂.cons hq hqs⟩

lemma valid_of_runs {runs : List Postings} (h : List.Forall₂ (fun q (run : Postings) => run.Valid ∧
      ∀ id, run.Mem id ↔ q.Satisfies (manifestAt m) id) qs runs) :
    (∀ run ∈ runs, run.Valid) ∧ (qs = [] ↔ runs = []) ∧ ∀ id,
      ((∀ run ∈ runs, run.Mem id) ↔ ∀ q ∈ qs, q.Satisfies (manifestAt m) id) ∧
      ((∃ run ∈ runs, run.Mem id) ↔ ∃ q ∈ qs, q.Satisfies (manifestAt m) id) := by
  induction h with
  | nil => simp
  | cons hq _ ih =>
    obtain ⟨hvalid, -, hmem⟩ := ih
    refine ⟨?_, by simp, fun id => ?_⟩
    · rintro run (_ | ⟨_, hrun⟩)
      · exact hq.1
      · exact hvalid run hrun
    · simp only [forall_mem_cons, exists_mem_cons_iff, hq.2 id, (hmem id).1, (hmem id).2, and_self]

lemma answered_of_leaves (h : ∀ leaf ∈ q.leaves, Answered m leaf) : Answered m q := by
  refine q.induction (fun leaf _ hmem => h leaf hmem) (fun qs hqs => ?_) (fun qs hqs => ?_)
  · obtain ⟨runs, hruns, hall⟩ := exists_runs hqs
    obtain ⟨hvalid, hnil, hmem⟩ := valid_of_runs hall
    obtain ⟨hand, hmemand⟩ := Postings.valid_lawful.andAll hvalid
    refine ⟨_, by rw [evaluate, hruns]; rfl, hand, fun id => ?_⟩
    rw [hmemand, Query.satisfies_and, (hmem id).1, Ne, ← hnil]
  · obtain ⟨runs, hruns, hall⟩ := exists_runs hqs
    obtain ⟨hvalid, -, hmem⟩ := valid_of_runs hall
    obtain ⟨hor, hmemor⟩ := Postings.valid_lawful.orAll hvalid
    refine ⟨_, by rw [evaluate, hruns]; rfl, hor, fun id => ?_⟩
    rw [hmemor, Query.satisfies_or, (hmem id).2]

/-! ## Leaves -/

def LeafTold (m : Store) (leaf : Query) : Prop :=
  ∀ s ∈ leaf.strings, ∀ id, ∀ man ∈ manifestAt m id, ∀ t ∈ man.strings, utf8 s = utf8 t → s = t

variable {man : IndexManifest}

lemma IndexManifest.mem_strings_term {p : Utf16 × Utf16}
    (h : p ∈ man.terms) : p.1 ∈ man.strings ∧ p.2 ∈ man.strings := by
  simp only [strings, mem_append, mem_flatMap]
  exact ⟨.inl (.inl ⟨p, h, by simp⟩), .inl (.inl ⟨p, h, by simp⟩)⟩

variable {p : Utf16 × OrderedScalar}

lemma IndexManifest.mem_strings_column
    (h : p ∈ man.columns) : p.1 ∈ man.strings ∧ ∀ s ∈ p.2.strings, s ∈ man.strings := by
  simp only [strings, mem_append, mem_flatMap]
  exact ⟨.inl (.inr ⟨p, h, by simp⟩), fun s hs => .inl (.inr ⟨p, h, by simp [hs]⟩)⟩

lemma IndexManifest.mem_strings_edge {p : Utf16 × Seq} (h : p ∈ man.edges) : p.1 ∈ man.strings := by
  simp only [strings, mem_append, List.mem_map]
  exact .inr ⟨p, h, rfl⟩

lemma eq_of_mod_eq {a b : ℕ} (ha : a < 2 ^ 32) (hb : b < 2 ^ 32) (h : a % 2 ^ 32 = b % 2 ^ 32) : a = b := by
  rwa [Nat.mod_eq_of_lt ha, Nat.mod_eq_of_lt hb] at h

/-- The prefix of one lens answers a query whose meaning is that a manifest holds the posting. -/
theorem answered_lens (h : Tiers W m.get) (hW : Below W) {leaf : Query} {l : Key}
    (hl : l ∈ lensCode) (heval : evaluate m leaf = some (postingsUnder m l))
    (hmeaning : ∀ id, leaf.Satisfies (manifestAt m) id ↔
      id < 2 ^ 32 ∧ ∃ n man, manifestAt m n = some man ∧ l ++ writeU32 id ∈ postingKeys n man) :
    Answered m leaf := by
  obtain ⟨hvalid, hmem⟩ := postingsUnder_lens h hW hl
  refine ⟨_, heval, hvalid, fun id => ?_⟩
  rw [hmem, hmeaning, holds_iff]

lemma answered_term (h : Tiers W m.get) (hW : Below W) {field name : Utf16}
    (htold : LeafTold m (.term field name)) : Answered m (.term field name) := by
  refine answered_lens h hW (termPrefix_mem_lensCode field name) (by rw [evaluate]) fun id => ?_
  simp only [mem_postingKeys_term]
  constructor
  · rintro ⟨man, hman, hmem⟩
    exact ⟨(manifestAt_eq_some.1 hman).1, id, man, hman, ⟨_, hmem, rfl, rfl⟩, rfl⟩
  · rintro ⟨hid, n, man, hman, ⟨p, hp, hf, ht⟩, hn⟩
    obtain rfl := eq_of_mod_eq (manifestAt_eq_some.1 hman).1 hid hn
    obtain ⟨hpf, hpt⟩ := IndexManifest.mem_strings_term hp
    rw [htold field (by simp [Query.strings]) n man hman _ hpf hf.symm,
      htold name (by simp [Query.strings]) n man hman _ hpt ht.symm]
    exact ⟨man, hman, hp⟩

variable {value : OrderedScalar}

lemma exists_encoding (h : value.isOrdered = true) : ∃ w, writeOrderedValue (.scalar value) = some w := by
  rcases value with _ | (_ | _) | n | s
  · exact ⟨_, rfl⟩
  · exact ⟨_, rfl⟩
  · exact ⟨_, rfl⟩
  · exact ⟨_, by rw [writeOrderedValue, writeNumber, if_pos (show n.isFinite = true from h)]; rfl⟩
  · exact ⟨_, rfl⟩

lemma isOrdered_jsonScalar (value : OrderedScalar) : (jsonScalar value).isOrdered = true := by
  rcases value with _ | b | n | s
  · rfl
  · rfl
  · by_cases hn : n.isFinite
    · simp [jsonScalar, OrderedScalar.isOrdered, hn]
    · simp [jsonScalar, OrderedScalar.isOrdered, hn]
  · rfl

lemma Tiers.isOrdered (h : Tiers W m.get) {id : Seq}
    (hman : manifestAt m id = some man) (hp : p ∈ man.columns) : p.2.isOrdered = true := by
  obtain ⟨n, -, man', -, hman'⟩ := h.manifest_shape _ _ rfl (manifestAt_eq_some.1 hman).2
  rw [Stored.manifest.inj hman', jsonManifest, List.mem_map] at hp
  obtain ⟨q, -, rfl⟩ := hp
  exact isOrdered_jsonScalar q.2

variable {column : Utf16}

lemma answered_equals (h : Tiers W m.get) (hW : Below W)
    (hordered : value.isOrdered = true) (htold : LeafTold m (.equals column value)) :
    Answered m (.equals column value) := by
  obtain ⟨w, hw⟩ := exists_encoding hordered
  have hl : orderedValuePrefix column (.scalar value) = some (orderedColumnPrefix column ++ w) :=
    orderedValuePrefix_eq_some.2 ⟨w, hw, rfl⟩
  refine answered_lens h hW (orderedValuePrefix_mem_lensCode hl) (by rw [evaluate, hl]; rfl)
    fun id => ?_
  have hsame : ∀ {id : ℕ} {man : IndexManifest} {p : Utf16 × OrderedScalar} {w' : Bytes},
      manifestAt m id = some man → p ∈ man.columns → writeOrderedValue (.scalar p.2) = some w' →
      (w = w' ↔ value.same p.2) := fun hman hp hw' => encode_eq_iff hw hw' fun s hs t ht =>
    htold s (by simp [Query.strings, hs]) _ _ hman t ((IndexManifest.mem_strings_column hp).2 t ht)
  simp only [mem_postingKeys_ordered]
  constructor
  · rintro ⟨man, hman, v, hmem, hv⟩
    obtain ⟨w', hw'⟩ := exists_encoding (h.isOrdered hman hmem)
    obtain rfl := (hsame hman hmem hw').2 hv
    exact ⟨(manifestAt_eq_some.1 hman).1, id, man, hman, ⟨_, hmem, rfl, hw'⟩, rfl⟩
  · rintro ⟨hid, n, man, hman, ⟨p, hp, hc, hpw⟩, hn⟩
    obtain rfl := eq_of_mod_eq (manifestAt_eq_some.1 hman).1 hid hn
    refine ⟨man, hman, p.2, ?_, (hsame hman hp hpw).1 rfl⟩
    rw [htold column (by simp [Query.strings]) n man hman _ (IndexManifest.mem_strings_column hp).1
      hc.symm]
    exact hp

lemma answered_edge (h : Tiers W m.get) (hW : Below W) {edgeType : Utf16} {src : Seq}
    {direction : EdgeDirection} (hsrc : src < 2 ^ 32) (htold : LeafTold m (.edge edgeType src direction)) :
    Answered m (.edge edgeType src direction) := by
  have hedge : ∀ {n : ℕ} {man : IndexManifest} {e : Utf16 × Seq}, manifestAt m n = some man →
      e ∈ man.edges → utf8 e.1 = utf8 edgeType → e.1 = edgeType := fun hman he hty =>
    (htold edgeType (by simp [Query.strings]) _ _ hman _
      (IndexManifest.mem_strings_edge he) hty.symm).symm
  have htarget : ∀ {n : ℕ} {man : IndexManifest} {e : Utf16 × Seq}, manifestAt m n = some man →
      e ∈ man.edges → e.2 < 2 ^ 32 := fun hman he =>
    ((hW _ _ (h.manifests _ (manifestAt_eq_some.1 hman).1 _
      (manifestAt_eq_some.1 hman).2)).2 _ he).trans (by norm_num)
  cases direction with
  | outbound =>
    refine answered_lens h hW (edgePrefix_mem_lensCode edgeType src) (by rw [evaluate]) fun id => ?_
    simp only [mem_postingKeys_edge]
    constructor
    · rintro ⟨man, hman, hmem⟩
      exact ⟨htarget hman hmem, src, man, hman, ⟨_, hmem, rfl, rfl⟩, rfl⟩
    · rintro ⟨hid, n, man, hman, ⟨e, he, hty, hdst⟩, hn⟩
      obtain rfl := eq_of_mod_eq (manifestAt_eq_some.1 hman).1 hsrc hn
      rw [← hedge hman he hty, ← eq_of_mod_eq (htarget hman he) hid hdst]
      exact ⟨man, hman, he⟩
  | inbound =>
    refine answered_lens h hW (reverseEdgePrefix_mem_lensCode edgeType src) (by rw [evaluate])
      fun id => ?_
    simp only [mem_postingKeys_reverseEdge]
    constructor
    · rintro ⟨man, hman, hmem⟩
      exact ⟨(manifestAt_eq_some.1 hman).1, id, man, hman, ⟨_, hmem, rfl, rfl⟩, rfl⟩
    · rintro ⟨hid, n, man, hman, ⟨e, he, hty, hdst⟩, hn⟩
      obtain rfl := eq_of_mod_eq (manifestAt_eq_some.1 hman).1 hid hn
      rw [← hedge hman he hty, ← eq_of_mod_eq (htarget hman he) hsrc hdst]
      exact ⟨man, hman, he⟩

lemma answered_range (h : Tiers W m.get) (hW : Below W) {lower upper : Option RangeBound}
    (hwire : ∀ b ∈ lower.toList ++ upper.toList, b.value.isOrdered = true)
    (htold : LeafTold m (.range column lower upper)) : Answered m (.range column lower upper) := by
  obtain ⟨bounds, hb⟩ : ∃ bounds, rangeBounds column lower upper = some bounds := by
    have hstarts : ∀ b ∈ lower.toList ++ upper.toList,
        ∃ p, orderedValuePrefix column (.scalar b.value) = some p := fun b hb => by
      obtain ⟨w, hw⟩ := exists_encoding (hwire b hb)
      exact ⟨_, orderedValuePrefix_eq_some.2 ⟨w, hw, rfl⟩⟩
    rcases lower with _ | l <;> rcases upper with _ | u
    · exact ⟨_, rfl⟩
    · obtain ⟨p, hp⟩ := hstarts u (by simp)
      exact ⟨_, by simp only [rangeBounds, rangeFrom, rangeTo, hp]; rfl⟩
    · obtain ⟨p, hp⟩ := hstarts l (by simp)
      exact ⟨_, by simp only [rangeBounds, rangeFrom, rangeTo, hp]; rfl⟩
    · obtain ⟨p, hp⟩ := hstarts l (by simp)
      obtain ⟨q, hq⟩ := hstarts u (by simp)
      exact ⟨_, by simp only [rangeBounds, rangeFrom, rangeTo, hp, hq]; rfl⟩
  have hboundsTold : ∀ {id : ℕ} {man : IndexManifest} {p : Utf16 × OrderedScalar},
      manifestAt m id = some man → p ∈ man.columns → BoundsTold lower upper p.2 :=
    fun hman hp b hb s hs t ht => htold s (by
      simp only [Query.strings, mem_cons, mem_flatMap]
      exact .inr ⟨b, hb, hs⟩) _ _ hman t ((IndexManifest.mem_strings_column hp).2 t ht)
  obtain ⟨run, hrun, hvalid, hmem⟩ := rangePostings_valid h hW hb
  refine ⟨run, by rw [evaluate, hrun], hvalid, fun id => ?_⟩
  rw [hmem, Query.Satisfies]
  constructor
  · rintro ⟨P, hP, hp, hbetween, rfl, hholds⟩
    obtain ⟨v, w, hw, hl⟩ := (h.written_of_holds hholds).scalar hp
    have he := hP.eq
    rw [hl] at he
    rw [he] at hbetween
    obtain ⟨n, man, hman, hmem⟩ := holds_iff.1 hholds
    rw [he, mem_postingKeys_ordered] at hmem
    obtain ⟨⟨p, hpm, hc, hpw⟩, hn⟩ := hmem
    obtain rfl := eq_of_mod_eq (manifestAt_eq_some.1 hman).1 hP.seqOf_lt hn
    obtain ⟨Q, hQ, hQr⟩ := rangeBounds_iff hb hpw
    refine ⟨man, hman, p.2, ?_, (hQr (hboundsTold hman hpm)).1 ((hQ _).1 hbetween)⟩
    rw [htold column (by simp [Query.strings]) _ man hman _ (IndexManifest.mem_strings_column hpm).1
      hc.symm]
    exact hpm
  · rintro ⟨man, hman, v, hcol, hrange⟩
    obtain ⟨w, hw⟩ := exists_encoding (h.isOrdered hman hcol)
    obtain ⟨Q, hQ, hQr⟩ := rangeBounds_iff hb hw
    have hid := (manifestAt_eq_some.1 hman).1
    have hl : orderedColumnPrefix column ++ w ∈ lensCode :=
      orderedValuePrefix_mem_lensCode (orderedValuePrefix_eq_some.2 ⟨w, hw, rfl⟩)
    refine ⟨_, isPosting_append hl id, ?_, (hQ _).2 ((hQr (hboundsTold hman hcol)).2 hrange),
      by rw [seqOf_append, Nat.mod_eq_of_lt hid], holds_iff.2 ⟨id, man, hman,
        mem_postingKeys_ordered.2 ⟨⟨_, hcol, rfl, hw⟩, rfl⟩⟩⟩
    rw [append_assoc]
    exact prefix_append _ _

/-! ## Term prefixes -/

lemma cuts_termPrefixKey (field pre : Utf16) : Cuts (termPrefixKey field pre) where
  tag := show Tag.term ∈ SEALABLE_TAGS by decide
  cut l hl x h := by
    obtain ⟨tag, body, hbody, rfl⟩ := hl
    obtain ⟨htag, -⟩ := cons_prefix_cons.1 h
    rw [← htag, lensBody, if_pos rfl] at hbody
    obtain ⟨_, ⟨f, rfl⟩, _, ⟨t, rfl⟩, rfl⟩ := hbody
    rw [← htag] at h ⊢
    have hiff := termPrefixKey_prefix_iff field pre f t
    rw [← append_nil (Tag.term :: _)]
    exact (hiff []).2 ((hiff x).1 h)

/-- What the three runs under a term prefix have to keep to. -/
structure PrefixFits (m : Store) (field pre : Utf16) : Prop where
  runs : RunsBuild m (termPrefixKey field pre)
  kept : ∀ id, Removed m (termPrefixKey field pre) id →
    ¬ (Query.termPrefix field pre).Satisfies (manifestAt m) id
  told : ∀ id, ∀ man ∈ manifestAt m id, ∀ p ∈ man.terms, p.1 = field → (utf8 pre <+: utf8 p.2 ↔ pre <+: p.2)

variable {field pre : Utf16}

lemma answered_termPrefix (h : Tiers W m.get) (hW : Below W)
    (htold : LeafTold m (.termPrefix field pre)) (hfits : PrefixFits m field pre) :
    Answered m (.termPrefix field pre) := by
  have hcuts := cuts_termPrefixKey field pre
  obtain ⟨hvalid, hmem⟩ := postingsUnder_of_buildable h hW hcuts hfits.runs
  have hmeaning : ∀ id, (Query.termPrefix field pre).Satisfies (manifestAt m) id ↔
      ∃ P, IsPosting P ∧ termPrefixKey field pre <+: P ∧ seqOf P = id ∧ Holds m.get P := by
    intro id
    constructor
    · rintro ⟨man, hman, t, hmem, hpre⟩
      have hid := (manifestAt_eq_some.1 hman).1
      exact ⟨_, isPosting_append (termPrefix_mem_lensCode field t) id,
        (termPrefixKey_prefix_iff ..).2 ⟨rfl, (hfits.told id man hman _ hmem rfl).2 hpre⟩,
        by rw [seqOf_append, Nat.mod_eq_of_lt hid],
        holds_iff.2 ⟨id, man, hman, mem_postingKeys_term.2 ⟨⟨_, hmem, rfl, rfl⟩, rfl⟩⟩⟩
    · rintro ⟨P, hP, hp, rfl, hholds⟩
      obtain ⟨n, man, hman, hmem⟩ := holds_iff.1 hholds
      rcases mem_postingKeys.1 hmem with ⟨t, ht, rfl⟩ | ⟨c, -, hc⟩ | ⟨e, -, rfl | rfl⟩
      · obtain ⟨hf, ht8⟩ := (termPrefixKey_prefix_iff ..).1 hp
        have hn : seqOf (termKey t.1 t.2 n) = n := by
          rw [termKey, seqOf_append, Nat.mod_eq_of_lt (manifestAt_eq_some.1 hman).1]
        have hfield : field = t.1 := htold field (by simp [Query.strings]) n man hman _
          (IndexManifest.mem_strings_term ht).1 hf
        rw [hn]
        refine ⟨man, hman, t.2, by rw [hfield]; exact ht, ?_⟩
        exact (hfits.told n man hman t ht hfield.symm).1 ht8
      · obtain ⟨l, hl, rfl⟩ := orderedKey_eq_some.1 hc
        obtain ⟨w, -, rfl⟩ := orderedValuePrefix_eq_some.1 hl
        exact absurd (cons_prefix_cons.1 hp).1 (by decide)
      · exact absurd (cons_prefix_cons.1 hp).1 (by decide)
      · exact absurd (cons_prefix_cons.1 hp).1 (by decide)
  refine ⟨_, by rw [evaluate], hvalid, fun id => ?_⟩
  rw [hmem]
  constructor
  · rintro ⟨⟨P, hP, hp, rfl, htier⟩, hno⟩
    refine (hmeaning _).2 ⟨P, hP, hp, rfl, (h.answer P hP).1 ⟨htier, ?_⟩⟩
    exact by_contra fun htomb => hno ⟨P, hP, hp, rfl, htomb⟩
  · intro hsat
    obtain ⟨P, hP, hp, rfl, hholds⟩ := (hmeaning id).1 hsat
    exact ⟨⟨P, hP, hp, rfl, ((h.answer P hP).2 hholds).1⟩, fun hr => hfits.kept _ hr hsat⟩

/-! ## Every run -/

/-- What a query keeps to, given the store it is asked of: it is one the wire carries, its strings
are told apart from those stored, and its term prefixes fit. -/
structure Query.Fits (m : Store) (q : Query) : Prop where
  wire : q.Wire
  told : q.ToldApart (manifestAt m)
  prefixes : ∀ field pre, .termPrefix field pre ∈ q.leaves → PrefixFits m field pre

lemma answered_of_fits (h : Tiers W m.get) (hW : Below W) (hq : q.Fits m) : Answered m q := by
  refine answered_of_leaves fun leaf hleaf => ?_
  have hwire := hq.wire leaf hleaf
  have htold : LeafTold m leaf := hq.told leaf hleaf
  cases leaf with
  | term field name => exact answered_term h hW htold
  | termPrefix field pre => exact answered_termPrefix h hW htold (hq.prefixes field pre hleaf)
  | equals column value => exact answered_equals h hW hwire htold
  | edge edgeType src direction =>
    exact answered_edge h hW (of_decide_eq_true hwire) htold
  | range column lower upper => exact answered_range h hW (List.all_eq_true.1 hwire) htold
  | and | or => exact absurd (q.isLeaf_of_mem_leaves _ hleaf) (by simp [Query.isLeaf])

/-- Identifiers below `2 ^ 31`, of an object and of the targets of its edges. -/
def IdsBelow (n : Seq) (man : IndexManifest) : Prop :=
  n < 0x80000000 ∧ ∀ e ∈ man.edges, e.2 < 0x80000000

/-- The runs that write no identifier from `2 ^ 31` on. -/
def idsBelow : Conditions where
  event _ e := e.kind = .put → IdsBelow e.seq (e.manifest.getD emptyManifest)

lemma below_idsBelow : Below IdsBelow := fun _ _ h => h

lemma Reachable.tiers (h : Reachable idsBelow m) : Tiers IdsBelow m.get := by
  refine (h.stepped fun _ e he hput => ?_).1
  obtain ⟨hseq, hedges⟩ := he hput
  rw [Nat.mod_eq_of_lt (hseq.trans (by norm_num))]
  exact ⟨hseq, hedges⟩

lemma answered_of_reachable (h : Reachable idsBelow m) (hq : q.Fits m) :
    Answered m q := answered_of_fits h.tiers below_idsBelow hq

variable {claim : WriterClaim}

lemma manifestAt_of_seal {m' : Store} (h : Tiers W m.get)
    (hseal : (StoreOp.sealPostings.prog claim).Reaches m m') : manifestAt m' = manifestAt m := by
  have hsafe : (StoreOp.sealPostings.prog claim).safe (Sealed W m) (fun _ _ => True) m :=
    discard_safe (seal_safe h)
  obtain ⟨-, hframe⟩ := Prog.safe_reaches hsafe ⟨h, fun _ _ _ => rfl⟩ hseal
  funext id
  rw [manifestAt, manifestAt, hframe (manifestKey id)
    (show Tag.manifest ∉ SEAL_TAGS by decide)
    fun hmem => absurd (tagOf_sealMeta hmem) (show Tag.manifest ≠ Tag.meta by decide)]

/-! ### On fixed inputs -/

def Stored.strings : Stored → List Utf16
  | .manifest man => man.strings
  | _ => []

lemma Query.toldApart_of_wellFormed (hq : ∀ leaf ∈ q.leaves, ∀ s ∈ leaf.strings, wellFormed s = true)
    (hm : ∀ e ∈ m.entries, ∀ t ∈ e.2.strings, wellFormed t = true) : q.ToldApart (manifestAt m) := by
  intro leaf hleaf s hs id man hman t ht heq
  have hentry := mem_entries.2 (manifestAt_eq_some.1 hman).2
  exact (utf8_inj (hq leaf hleaf s hs) (hm _ hentry t ht)).1 heq

/-- A term prefix fits where nothing under it is tombstoned, its runs build and strings are well
formed. -/
theorem PrefixFits.of_wellFormed (h : Tiers W m.get) (hruns : RunsBuild m (termPrefixKey field pre))
    (hremoved : removedIds m (termPrefixKey field pre) = []) (hpre : wellFormed pre = true)
    (hm : ∀ e ∈ m.entries, ∀ t ∈ e.2.strings, wellFormed t = true) : PrefixFits m field pre where
  runs := hruns
  kept id hid := by
    have hmem := (mem_removedIds h).2 hid
    rw [hremoved] at hmem
    exact absurd hmem not_mem_nil
  told id man hman p hp _ := utf8_prefix_iff hpre
    (hm _ (mem_entries.2 (manifestAt_eq_some.1 hman).2) _ (IndexManifest.mem_strings_term hp).2)

def putTerms (seq : Seq) (terms : List Utf16) : TxnOp :=
  .put 0 seq [] { terms := terms.map fun t => (utf16 "f", t) } none

def TxnOp.isLow : TxnOp → Bool
  | .put _ seq _ manifest _ => decide (seq < 0x80000000 ∧ ∀ e ∈ manifest.edges, e.2 < 0x80000000)
  | .retract _ _ => true

def StoreOp.isLow : StoreOp → Bool
  | .transact ops => ops.all TxnOp.isLow
  | .apply _ => false
  | _ => true

lemma TxnOp.idsBelow_of_isLow {op : TxnOp} {c : Contents} {event : StoredEvent} (hop : op.isLow = true)
    (h : op.event claim c = some (some event)) : idsBelow.event c event := by
  intro hkind
  cases op with
  | put now seq body manifest identity =>
    simp only [TxnOp.event, Option.bind_eq_bind, Option.bind_eq_some_iff, Option.pure_def, Option.some.injEq] at h
    obtain ⟨v, -, rfl⟩ := h
    have hlow : seq < 0x80000000 ∧ ∀ e ∈ manifest.edges, e.2 < 0x80000000 := of_decide_eq_true hop
    exact hlow
  | retract now seq =>
    simp only [TxnOp.event, Option.bind_eq_bind, Option.bind_eq_some_iff, Option.pure_def] at h
    obtain ⟨v, -, h⟩ := h
    split_ifs at h
    · cases h
    · obtain ⟨identity, -, h⟩ := Option.bind_eq_some_iff.1 h
      obtain rfl := Option.some.inj (Option.some.inj h)
      cases hkind

lemma StoreOp.meets_of_isLow {op : StoreOp} (hop : op.isLow = true) (claim : WriterClaim) (m : Store) :
    op.Meets idsBelow claim m := by
  cases op with
  | transact ops =>
    exact fun _ _ _ _ => opsMeet_of_forall (fun op hop' _ _ => op.idsBelow_of_isLow (List.all_eq_true.1 hop op hop')) _
  | apply event => cases hop
  | _ => trivial

lemma reachable_of_isLow {ops : List StoreOp} (h : ∀ op ∈ ops, op.isLow = true) : Reachable idsBelow (ranFrom ops) :=
  Reachable.empty.run fun op hop m => by
    rcases mem_cons.1 hop with rfl | hop
    · trivial
    · exact op.meets_of_isLow (h op hop) fixedClaim m

/-- In every store a run reaches that writes no identifier from `2 ^ 31` on, a query without term
prefixes answers exactly the identifiers that satisfy it, ascending and each once, and sealing
changes no answer. -/
theorem resolve_enumerates (h : Reachable idsBelow m) {q : Query}
    (hstarts : ∀ field pre, .termPrefix field pre ∉ q.leaves) (hwire : q.Wire)
    (htold : q.ToldApart (manifestAt m)) :
    (∃ out, resolve m q = some out ∧ Enumerates out fun id => q.Satisfies (manifestAt m) id) ∧
      ∀ claim m', (StoreOp.sealPostings.prog claim).Reaches m m' → resolve m' q = resolve m q := by
  have hfits : ∀ m', manifestAt m' = manifestAt m → q.Fits m' := fun m' hm =>
    ⟨hwire, by rwa [hm], fun f p hmem => absurd hmem (hstarts f p)⟩
  obtain ⟨out, hout, hasc, hmem⟩ := (answered_of_reachable h (hfits m rfl)).resolve
  refine ⟨⟨out, hout, hasc, hmem⟩, fun claim m' hseal => ?_⟩
  have hm := manifestAt_of_seal h.tiers hseal
  obtain ⟨out', hout', hasc', hmem'⟩ :=
    (answered_of_reachable (h.step claim .sealPostings trivial hseal) (hfits m' hm)).resolve
  rw [hout, hout', hasc'.ext hasc fun z => by rw [hmem, hmem', hm]]

/-- A string that is not well formed is found under another: their encodings are one. -/
theorem not_resolve_enumerates : ¬ ∀ m, Reachable {} m → ∀ q : Query,
    (∀ field pre, .termPrefix field pre ∉ q.leaves) → q.Wire →
      ∃ out, resolve m q = some out ∧ Enumerates out fun id => q.Satisfies (manifestAt m) id := by
  intro h
  obtain ⟨out, hout, -, hmem⟩ := h _ (reachable_ranFrom [.transact [putTerms 1 [[0xD800]]]])
    (.term (utf16 "f") [0xD801]) (by simp [Query.leaves]) (by simp [Query.Wire, Query.leaves,
      Query.isWire])
  have heval : resolve (ranFrom [.transact [putTerms 1 [[0xD800]]]])
      (.term (utf16 "f") [0xD801]) = some [1] := by decide +kernel
  have hman : manifestAt (ranFrom [.transact [putTerms 1 [[0xD800]]]]) 1 =
      some { terms := [(utf16 "f", [0xD800])] } := by decide +kernel
  obtain rfl := Option.some.inj (heval.symm.trans hout)
  obtain ⟨id, hid, hz⟩ := (hmem 1).1 (List.mem_singleton_self 1)
  obtain rfl : id = 1 := by exact_mod_cast hz.symm
  rw [Query.Satisfies, hman] at hid
  obtain ⟨man, hmem, hterm⟩ := hid
  rw [← Option.some.inj hmem] at hterm
  exact absurd hterm (by decide)

theorem resolve_enumerates_fixed :
    let m := ranFrom [.transact [putTerms 1 [utf16 "a", utf16 "b"], putTerms 2 [utf16 "a"]],
      .sealPostings, .transact [putTerms 1 [utf16 "a"]]]
    let q : Query := .or [.term (utf16 "f") (utf16 "b"), .and [.term (utf16 "f") (utf16 "a")]]
    (∃ out, resolve m q = some out ∧ Enumerates out fun id => q.Satisfies (manifestAt m) id) ∧
      ∀ claim m', (StoreOp.sealPostings.prog claim).Reaches m m' → resolve m' q = resolve m q := by
  intro m q
  refine resolve_enumerates (reachable_of_isLow (by decide)) ?_ ?_ ?_
  · simp [q, Query.leaves, Query.leavesOf]
  · simp [q, Query.Wire, Query.leaves, Query.leavesOf, Query.isWire]
  · exact Query.toldApart_of_wellFormed (by decide +kernel) (by decide +kernel)

/-! ## Term prefixes, over every run -/

lemma exists_outs (h : Reachable idsBelow m) (hqs : ∀ q ∈ qs, q.Fits m) :
    ∃ outs, List.Forall₂ (fun q out => resolve m q = some out ∧
      Enumerates out fun id => q.Satisfies (manifestAt m) id) qs outs := by
  induction qs with
  | nil => exact ⟨[], List.Forall₂.nil⟩
  | cons q qs ih =>
    obtain ⟨out, hout⟩ := (answered_of_reachable h (hqs q (mem_cons_self ..))).resolve
    obtain ⟨outs, houts⟩ := ih fun q hq => hqs q (mem_cons_of_mem _ hq)
    exact ⟨out :: outs, List.Forall₂.cons hout houts⟩

lemma mem_outs {outs : List (List ℤ)} (h : List.Forall₂ (fun q out => resolve m q = some out ∧
      Enumerates out fun id => q.Satisfies (manifestAt m) id) qs outs) (id : ℕ) :
    ((∀ out ∈ outs, (id : ℤ) ∈ out) ↔ ∀ q ∈ qs, q.Satisfies (manifestAt m) id) ∧
      ((∃ out ∈ outs, (id : ℤ) ∈ out) ↔ ∃ q ∈ qs, q.Satisfies (manifestAt m) id) ∧
      (outs = [] ↔ qs = []) ∧ ∀ out ∈ outs, ∀ z ∈ out, ∃ n : ℕ, z = n := by
  induction h with
  | nil => simp
  | cons hq _ ih =>
    obtain ⟨hall, hany, -, hnat⟩ := ih
    obtain ⟨-, -, hmem⟩ := hq
    have hid := hmem id
    simp only [Nat.cast_inj, exists_eq_right'] at hid
    refine ⟨?_, ?_, by simp, ?_⟩
    · rw [forall_mem_cons, forall_mem_cons, hid, hall]
    · rw [exists_mem_cons_iff, exists_mem_cons_iff, hid, hany]
    · rintro out (_ | ⟨_, hout⟩) z hz
      · obtain ⟨n, -, hn⟩ := (hmem z).1 hz
        exact ⟨n, hn⟩
      · exact hnat out hout z hz

/-- In every store a run reaches that writes no identifier from `2 ^ 31` on, a term prefix that fits
answers exactly the identifiers holding a term with the prefix, and the answer of a conjunction or a
disjunction is the intersection or the union of its parts' answers. -/
theorem resolve_termPrefix (h : Reachable idsBelow m) {field pre : Utf16}
    (hfits : (Query.termPrefix field pre).Fits m) :
    (∃ out, resolve m (.termPrefix field pre) = some out ∧ Enumerates out fun id =>
        ∃ man ∈ manifestAt m id, ∃ name, (field, name) ∈ man.terms ∧ pre <+: name) ∧
      ∀ qs : List Query, .termPrefix field pre ∈ qs → (∀ q ∈ qs, q.Fits m) →
        ∃ outs, List.Forall₂ (fun q out => resolve m q = some out) qs outs ∧
          (∃ both, resolve m (.and qs) = some both ∧ Ascending both ∧ ∀ z, z ∈ both ↔ ∀ out ∈ outs, z ∈ out) ∧
          ∃ either, resolve m (.or qs) = some either ∧ Ascending either ∧
            ∀ z, z ∈ either ↔ ∃ out ∈ outs, z ∈ out := by
  refine ⟨(answered_of_reachable h hfits).resolve, fun qs hmem hqs => ?_⟩
  have hcombined : ∀ c : Query, (∀ leaf, leaf ∈ c.leaves → ∃ q ∈ qs, leaf ∈ q.leaves) →
      c.Fits m := fun c hc =>
    { wire := fun leaf hl => by
        obtain ⟨q, hq, hlq⟩ := hc leaf hl
        exact (hqs q hq).wire leaf hlq
      told := fun leaf hl => by
        obtain ⟨q, hq, hlq⟩ := hc leaf hl
        exact (hqs q hq).told leaf hlq
      prefixes := fun f p hl => by
        obtain ⟨q, hq, hlq⟩ := hc _ hl
        exact (hqs q hq).prefixes f p hlq }
  obtain ⟨outs, houts⟩ := exists_outs h hqs
  obtain ⟨both, hboth, hbasc, hbmem⟩ := (answered_of_reachable h
    (hcombined (.and qs) fun leaf => Query.mem_leaves_and.1)).resolve
  obtain ⟨either, heither, heasc, hemem⟩ := (answered_of_reachable h
    (hcombined (.or qs) fun leaf => Query.mem_leaves_or.1)).resolve
  have hne : qs ≠ [] := List.ne_nil_of_mem hmem
  refine ⟨outs, houts.imp fun _ _ hq => hq.1, ⟨both, hboth, hbasc, fun z => ?_⟩,
    either, heither, heasc, fun z => ?_⟩
  · rw [hbmem]
    constructor
    · rintro ⟨id, hid, rfl⟩
      exact ((mem_outs houts id).1).2 (Query.satisfies_and.1 hid).2
    · intro hz
      obtain ⟨-, -, hnil, hnat⟩ := mem_outs houts 0
      obtain ⟨out, rest, rfl⟩ := List.exists_cons_of_ne_nil fun he => hne (hnil.1 he)
      obtain ⟨id, rfl⟩ := hnat out (List.mem_cons_self ..) z (hz out (List.mem_cons_self ..))
      exact ⟨id, Query.satisfies_and.2 ⟨hne, ((mem_outs houts id).1).1 hz⟩, rfl⟩
  · rw [hemem]
    constructor
    · rintro ⟨id, hid, rfl⟩
      exact ((mem_outs houts id).2.1).2 (Query.satisfies_or.1 hid)
    · rintro ⟨out, hout, hz⟩
      obtain ⟨id, rfl⟩ := (mem_outs houts 0).2.2.2 out hout z hz
      exact ⟨id, Query.satisfies_or.2 (((mem_outs houts id).2.1).1 ⟨out, hout, hz⟩), rfl⟩

/-- An object that lost one matching term after a seal is not found by another it still has. -/
theorem not_resolve_termPrefix : ¬ ∀ m, Reachable {} m → ∀ field pre : Utf16,
    ∃ out, resolve m (.termPrefix field pre) = some out ∧ Enumerates out fun id =>
      ∃ man ∈ manifestAt m id, ∃ name, (field, name) ∈ man.terms ∧ pre <+: name := by
  intro h
  obtain ⟨out, hout, -, hmem⟩ := h _ (reachable_ranFrom [
    .transact [putTerms 1 [utf16 "ab", utf16 "ac"]], .sealPostings,
    .transact [putTerms 1 [utf16 "ac"]]]) (utf16 "f") (utf16 "a")
  have heval : resolve (ranFrom [.transact [putTerms 1 [utf16 "ab", utf16 "ac"]], .sealPostings,
      .transact [putTerms 1 [utf16 "ac"]]]) (.termPrefix (utf16 "f") (utf16 "a")) = some [] := by
    decide +kernel
  have hman : manifestAt (ranFrom [.transact [putTerms 1 [utf16 "ab", utf16 "ac"]], .sealPostings,
      .transact [putTerms 1 [utf16 "ac"]]]) 1 = some { terms := [(utf16 "f", utf16 "ac")] } := by
    decide +kernel
  obtain rfl := Option.some.inj (heval.symm.trans hout)
  refine absurd ((hmem 1).2 ⟨1, ⟨_, hman, utf16 "ac", ?_, ?_⟩, rfl⟩) List.not_mem_nil
  · exact List.mem_singleton_self _
  · decide

theorem resolve_termPrefix_fixed :
    let m := ranFrom [.transact [putTerms 1 [utf16 "ab", utf16 "ac"], putTerms 2 [utf16 "ac"]]]
    let p : Query := .termPrefix (utf16 "f") (utf16 "a")
    (∃ out, resolve m p = some out ∧ Enumerates out fun id =>
        ∃ man ∈ manifestAt m id, ∃ name, (utf16 "f", name) ∈ man.terms ∧ utf16 "a" <+: name) ∧
      ∀ qs : List Query, p ∈ qs → (∀ q ∈ qs, q.Fits m) →
        ∃ outs, List.Forall₂ (fun q out => resolve m q = some out) qs outs ∧
          (∃ both, resolve m (.and qs) = some both ∧ Ascending both ∧ ∀ z, z ∈ both ↔ ∀ out ∈ outs, z ∈ out) ∧
          ∃ either, resolve m (.or qs) = some either ∧ Ascending either ∧
            ∀ z, z ∈ either ↔ ∃ out ∈ outs, z ∈ out := by
  intro m p
  have hreach : Reachable idsBelow m := reachable_of_isLow (by decide)
  refine resolve_termPrefix hreach ⟨?_, ?_, fun field pre hmem => ?_⟩
  · simp [Query.Wire, Query.leaves, Query.isWire]
  · exact Query.toldApart_of_wellFormed (by decide +kernel) (by decide +kernel)
  · simp only [Query.leaves, List.mem_singleton, Query.termPrefix.injEq] at hmem
    rw [hmem.1, hmem.2]
    exact PrefixFits.of_wellFormed hreach.tiers ⟨by decide +kernel, by decide +kernel,
      by decide +kernel⟩ (by decide +kernel) (by decide) (by decide +kernel)

end Zelavis.Db
