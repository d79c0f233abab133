import Zelavis.Db.IndexSteps

/-!
# Unique indexes

No two documents hold the same values under a unique index that is ready, whatever a batch writes.
-/

namespace Zelavis.Db

open Lib List

variable {o : Objects Record} {t : TenantId}

/-! ## The same values -/

/-- The values of a document at the fields of an index, as the order sees them. -/
def valuesOf (index : StoredIndex) (data : JsonObject) : List (Option OrderedScalar) :=
  index.fields.map fun field => orderable (readPath data field.path)

/-- Two documents hold the same values at the fields of an index, and a value at each. -/
def SameValues (index : StoredIndex) (d d' : JsonObject) : Prop :=
  List.Forall₂ (fun a b => ∃ v w, a = some v ∧ b = some w ∧ v ≠ .null ∧ v.same w)
    (valuesOf index d) (valuesOf index d')

variable {v w : OrderedScalar}

lemma writeOrderedValue_congr (h : v.same w) :
    writeOrderedValue (.scalar v) = writeOrderedValue (.scalar w) := by
  have heq : ∀ {v w : OrderedScalar}, v = w →
      writeOrderedValue (.scalar v) = writeOrderedValue (.scalar w) := by
    rintro v _ rfl
    rfl
  cases v with
  | null | boolean | string => exact heq h
  | number n =>
    cases w with
    | null | boolean | string => exact heq h
    | number m =>
      have h : n.normal = m.normal := h
      have hfinite : n.isFinite = m.isFinite := by
        rw [← JsNumber.isFinite_normal n, h, JsNumber.isFinite_normal]
      simp only [writeOrderedValue, writeNumber, h, hfinite]

lemma componentBytes_congr {direction : Direction}
    {nulls : NullPlacement} (hnull : v ≠ .null) (h : v.same w) :
    componentBytes ⟨some (.scalar v), direction, nulls⟩ =
      componentBytes ⟨some (.scalar w), direction, nulls⟩ := by
  have hwrite := writeOrderedValue_congr h
  cases v with
  | null => exact absurd rfl hnull
  | boolean b =>
    cases w with
    | boolean b' => simp only [componentBytes, hwrite]
    | _ => cases h
  | number n =>
    cases w with
    | number n' => simp only [componentBytes, hwrite]
    | _ => cases h
  | string s =>
    cases w with
    | string s' => simp only [componentBytes, hwrite]
    | _ => cases h

variable {index : StoredIndex}

lemma SameValues.tuple_eq {d d' : JsonObject} (h : SameValues index d d') :
    indexTuple index d = indexTuple index d' ∧ allValued index d = true ∧ allValued index d' = true := by
  unfold SameValues valuesOf at h
  unfold indexTuple allValued orderedTuple indexComponents
  obtain ⟨⟨name, fields, unique⟩, state, column⟩ := index
  have hvalued : ∀ {value : Option Json} {v : OrderedScalar}, orderable value = some v →
      v ≠ .null → hasValue value = true := by
    intro value v hv hnull
    unfold hasValue
    rw [hv]
    cases v with
    | null => exact absurd rfl hnull
    | boolean | number | string => rfl
  suffices hall : (fields.map fun field => (⟨(orderable (readPath d field.path)).map .scalar, field.direction,
        field.nulls⟩ : TupleComponent)).mapM componentBytes =
      (fields.map fun field => (⟨(orderable (readPath d' field.path)).map .scalar, field.direction,
        field.nulls⟩ : TupleComponent)).mapM componentBytes ∧
      (fields.all fun field => hasValue (readPath d field.path)) = true ∧
      (fields.all fun field => hasValue (readPath d' field.path)) = true by
    exact ⟨by rw [hall.1], hall.2⟩
  induction fields with
  | nil => exact ⟨rfl, rfl, rfl⟩
  | cons field fields ih =>
    rw [map_cons, map_cons, List.forall₂_cons] at h
    obtain ⟨⟨v, w, hv, hw, hnull, hsame⟩, hrest⟩ := h
    obtain ⟨hmap, hall, hall'⟩ := ih hrest
    have hnull' : w ≠ .null := by
      rintro rfl
      cases v with
      | null => exact hnull rfl
      | boolean | number | string => cases hsame
    refine ⟨?_, ?_, ?_⟩
    · rw [map_cons, map_cons, mapM_cons, mapM_cons, hmap, hv, hw,
        Option.map_some, Option.map_some, componentBytes_congr hnull hsame]
    · rw [all_cons, hall, hvalued hv hnull]
      rfl
    · rw [all_cons, hall', hvalued hw hnull']
      rfl

/-! ## What a store keeps to -/

def tupleIn (index : StoredIndex) (d : Document) : Option Utf16 :=
  if allValued index d.data = true then indexTuple index d.data else none

variable {d : Document} {tuple : Utf16}

lemma tupleIn_eq_some : tupleIn index d = some tuple ↔
      allValued index d.data = true ∧ indexTuple index d.data = some tuple := by
  unfold tupleIn
  split_ifs with h
  · simp [h]
  · simp [h]

def Distinct (docs : Seq → Option Document) (n : Utf16) (index : StoredIndex) : Prop :=
  ∀ q q' d d' tuple, docs q = some d → docs q' = some d' → d.collection = n → d'.collection = n →
    tupleIn index d = some tuple → tupleIn index d' = some tuple → q = q'

def PostedIn (o : Objects Record) (q : Seq) (d : Document) (index : StoredIndex) : Prop :=
  ∃ h tuple, o.held.get q = some h ∧ indexTuple index d.data = some tuple ∧
    (index.column, .string tuple) ∈ h.manifest.columns

/-- Every unique index of a tenant that is ready is respected: no two documents of its collection
hold the same values. -/
def UniqueIn (t : TenantId) (o : Objects Record) : Prop :=
  ∀ n c index, loadCollection t o n = some c → index ∈ c.indexes → index.state = .ready →
    index.unique = true → ∀ q q' d d', docAt t o q = some d → docAt t o q' = some d' →
      d.collection = n → d'.collection = n → SameValues index d.data d'.data → q = q'

/-- What a tenant's documents keep to: their collections are recorded, every ready index has their
tuples, and no two have one in a unique index. -/
structure Respects (t : TenantId) (o : Objects Record) : Prop where
  homed : ∀ q d, docAt t o q = some d → ∃ c, loadCollection t o d.collection = some c
  posted : ∀ n c index, loadCollection t o n = some c → index ∈ c.indexes → index.state = .ready →
    ∀ q d, docAt t o q = some d → d.collection = n → PostedIn o q d index
  distinct : ∀ n c index, loadCollection t o n = some c → index ∈ c.indexes →
    index.state = .ready → index.unique = true → Distinct (docAt t o) n index

lemma Respects.uniqueIn (h : Respects t o) : UniqueIn t o := by
  intro n c index hc hindex hready hunique q q' d d' hd hd' hn hn' hsame
  obtain ⟨htuple, hvalued, hvalued'⟩ := hsame.tuple_eq
  obtain ⟨held, tuple, -, hposted, -⟩ := h.posted n c index hc hindex hready q d hd hn
  exact h.distinct n c index hc hindex hready hunique q q' d d' tuple hd hd' hn hn'
    (tupleIn_eq_some.2 ⟨hvalued, hposted⟩) (tupleIn_eq_some.2 ⟨hvalued', htuple ▸ hposted⟩)

/-! ## Finding duplicates -/

lemma hexDigit_lt : ∀ n < 16, (hexDigit n).val < 0x80 ∧ hexDigit n ≠ 0 := by decide

lemma mem_hexOf {bytes : Bytes} {u : CodeUnit} (hu : u ∈ hexOf bytes) : u.val < 0x80 ∧ u ≠ 0 := by
  obtain ⟨b, -, hu⟩ := mem_flatMap.1 hu
  have hhigh : b.val / 16 < 16 := by have := b.isLt; omega
  have hlow : b.val % 16 < 16 := Nat.mod_lt _ (by omega)
  rcases mem_cons.1 hu with rfl | hu
  · exact hexDigit_lt _ hhigh
  · rw [mem_singleton.1 hu]
    exact hexDigit_lt _ hlow

lemma writeOrderedValue_hexOf_inj {b b' : Bytes} (h : writeOrderedValue (.scalar (.string (hexOf b))) =
      writeOrderedValue (.scalar (.string (hexOf b')))) : hexOf b = hexOf b' := by
  have hwell : ∀ b, wellFormed (hexOf b) = true := by
    intro b
    refine wellFormed_of_forall fun u hu => ?_
    have := (mem_hexOf hu).1
    unfold isSurrogate
    simp only [Bool.and_eq_false_iff, decide_eq_false_iff_not]
    omega
  simp only [writeOrderedValue, Option.some.injEq, List.cons.injEq, true_and, writeString_inj] at h
  exact (utf8_inj (hwell b) (hwell b')).1 h

section

variable {o : Objects Record} {column : Utf16}

lemma mem_orderedRows {r : OrderedScalar × Seq} : r ∈ orderedRows o column ↔
    ∃ h, o.held.get r.2 = some h ∧ (column, r.1) ∈ h.manifest.columns := by
  unfold orderedRows
  rw [mem_insertionSort, mem_flatMap]
  constructor
  · rintro ⟨e, he, hr⟩
    obtain ⟨c, hc, rfl⟩ := List.mem_map.1 hr
    obtain ⟨hmem, heq⟩ := mem_filter.1 hc
    rw [decide_eq_true_eq] at heq
    exact ⟨e.2, OrderedMap.mem_entries.1 he, by rw [← heq]; exact hmem⟩
  · rintro ⟨h, hheld, hmem⟩
    refine ⟨(r.2, h), OrderedMap.mem_entries.2 hheld, List.mem_map.2 ⟨(column, r.1), ?_, rfl⟩⟩
    exact mem_filter.2 ⟨hmem, by simp⟩

lemma orderedRows_sorted : (orderedRows o column).Pairwise fun a b =>
    (writeOrderedValue (.scalar a.1)).getD [] ≤ (writeOrderedValue (.scalar b.1)).getD [] := by
  refine (pairwise_insertionSort _ _).imp fun {a b} hab => ?_
  exact (Prod.Lex.toLex_le_toLex.1 hab).elim le_of_lt fun h => h.1.le

lemma eq_of_adjacentPair {directions : List Direction} {rows : List (OrderedScalar × Seq)}
    (hsorted : rows.Pairwise fun a b =>
      (writeOrderedValue (.scalar a.1)).getD [] ≤ (writeOrderedValue (.scalar b.1)).getD [])
    (hinj : ∀ a ∈ rows, ∀ b ∈ rows, (writeOrderedValue (.scalar a.1)).getD [] =
      (writeOrderedValue (.scalar b.1)).getD [] → a.1 = b.1)
    (h : adjacentPair directions rows = none) {v : OrderedScalar} {q q' : Seq}
    (hv : isValuedTuple directions v = true) (hq : (v, q) ∈ rows) (hq' : (v, q') ∈ rows) : q = q' := by
  induction rows with
  | nil => exact absurd hq not_mem_nil
  | cons a rows ih =>
    obtain ⟨hle, hsorted'⟩ := pairwise_cons.1 hsorted
    have hrest : adjacentPair directions rows = none ∧ ∀ r, (v, r) ∈ rows → a.1 ≠ v := by
      cases rows with
      | nil => exact ⟨rfl, fun _ hr => absurd hr not_mem_nil⟩
      | cons b rows =>
        rw [adjacentPair] at h
        split_ifs at h with hpair
        refine ⟨h, fun r hr hav => hpair ?_⟩
        -- what stands between two rows of a tuple is a row of it
        have hbv : b.1 = v := by
          have hab := hle b mem_cons_self
          have hbr : (writeOrderedValue (.scalar b.1)).getD [] ≤ (writeOrderedValue (.scalar v)).getD [] := by
            rcases mem_cons.1 hr with heq | hr
            · rw [← heq]
            · exact (pairwise_cons.1 hsorted').1 _ hr
          rw [hav] at hab
          exact hinj b (by simp) (v, r) (mem_cons_of_mem _ hr) (le_antisymm hbr hab)
        rw [hav, hbv]
        exact ⟨rfl, hv⟩
    rcases mem_cons.1 hq with heq | hmem
    · rcases mem_cons.1 hq' with heq' | hmem'
      · rw [← heq'] at heq
        exact (Prod.mk.inj heq).2
      · exact absurd (congrArg Prod.fst heq).symm (hrest.2 q' hmem')
    · rcases mem_cons.1 hq' with heq' | hmem'
      · exact absurd (congrArg Prod.fst heq').symm (hrest.2 q hmem)
      · exact ih hsorted' (fun a ha b hb => hinj a (mem_cons_of_mem _ ha) b
          (mem_cons_of_mem _ hb)) hrest.1 hmem hmem'

end

variable {q : Seq}

lemma Kept.tuple_of_row (ho : Kept o) (ht : TenantOk t)
    {n name salt : Utf16} (hn : isName n = true) {h : Held Record} {value : OrderedScalar}
    (hheld : o.held.get q = some h) (hmem : (indexColumnFor t n name salt, value) ∈ h.manifest.columns) :
    ∃ bytes, value = .string (hexOf bytes) := by
  cases ho.shapes q h hheld with
  | collection t' c _ _ _ _ columns =>
    exact absurd (columns _ hmem).1 (indexColumnFor_ne_collectionColumn ht)
  | document t' d tenant _ _ hname _ columns =>
    exact tuple_of_ownColumn ht tenant hn hname (columns _ hmem)
  | other i _ _ _ columns =>
    refine absurd ?_ (columns _ hmem)
    rw [indexColumnFor_eq]
    simp

lemma isValuedTuple_of_tupleIn (h : tupleIn index d = some tuple) :
    isValuedTuple (index.fields.map IndexField.direction) (.string tuple) = true := by
  obtain ⟨hvalued, htuple⟩ := tupleIn_eq_some.1 h
  have hcomponents : ∀ c ∈ indexComponents index d.data, ∃ v, c.value = some v ∧ v ≠ .scalar .null := by
    intro c hc
    obtain ⟨field, hfield, rfl⟩ := List.mem_map.1 hc
    have hvalue := List.all_eq_true.1 hvalued field hfield
    unfold hasValue at hvalue
    split at hvalue
    · cases hvalue
    next v hnull hv =>
      exact ⟨.scalar v, by rw [hv, Option.map_some], fun h => hnull (OrderedValue.scalar.inj h)⟩
    · cases hvalue
  obtain ⟨values, hvalues, hne⟩ := decodeOrderedTuple_orderedTuple hcomponents htuple
  have hdirections : (indexComponents index d.data).map TupleComponent.direction =
      index.fields.map IndexField.direction := by
    simp [indexComponents]
  rw [hdirections] at hvalues
  unfold isValuedTuple
  dsimp only
  rw [hvalues]
  exact List.all_eq_true.2 fun value hvalue => Option.isSome_iff_ne_none.2 (hne value hvalue)

variable {n : Utf16}

/-- Where an index has the tuples of all its documents and no duplicate is found in it, no two of
them have one tuple. -/
theorem distinct_of_duplicateIn (ho : Kept o) (ht : TenantOk t)
    (hn : isName n = true) {name salt : Utf16} (hcolumn : index.column = indexColumnFor t n name salt)
    (hposted : ∀ q d, docAt t o q = some d → d.collection = n → PostedIn o q d index)
    (h : duplicateIn o index = none) : Distinct (docAt t o) n index := by
  have hrow : ∀ r ∈ orderedRows o index.column, ∃ bytes, r.1 = .string (hexOf bytes) := by
    intro r hr
    obtain ⟨held, hheld, hmem⟩ := mem_orderedRows.1 hr
    rw [hcolumn] at hmem
    exact ho.tuple_of_row ht hn hheld hmem
  have hmem : ∀ q d tuple, docAt t o q = some d → d.collection = n →
      tupleIn index d = some tuple → (.string tuple, q) ∈ orderedRows o index.column := by
    intro q d tuple hd hcol htuple
    obtain ⟨held, tuple', hheld, htuple', hmem⟩ := hposted q d hd hcol
    rw [(tupleIn_eq_some.1 htuple).2] at htuple'
    cases htuple'
    exact mem_orderedRows.2 ⟨held, hheld, hmem⟩
  intro q q' d d' tuple hd hd' hcol hcol' htuple htuple'
  refine eq_of_adjacentPair orderedRows_sorted ?_ h (isValuedTuple_of_tupleIn htuple)
    (hmem q d tuple hd hcol htuple) (hmem q' d' tuple hd' hcol' htuple')
  intro a ha b hb heq
  obtain ⟨bytes, ha⟩ := hrow a ha
  obtain ⟨bytes', hb⟩ := hrow b hb
  rw [ha, hb] at heq ⊢
  rw [writeOrderedValue_hexOf_inj (congrArg some heq)]

/-! ## Claims -/

lemma zero_notMem_indexTuple {data : JsonObject}
    (h : indexTuple index data = some tuple) : (0 : CodeUnit) ∉ tuple := by
  obtain ⟨fields, -, rfl⟩ := Option.map_eq_some_iff.1 h
  exact fun hmem => (mem_hexOf hmem).2 rfl

lemma claimOf_inj {column column' tuple tuple' : Utf16} (ht : (0 : CodeUnit) ∉ tuple)
    (ht' : (0 : CodeUnit) ∉ tuple') (h : claimOf column tuple = claimOf column' tuple') :
    column = column' ∧ tuple = tuple' := by
  have hclaim : ∀ c t : Utf16, (claimOf c t).reverse = t.reverse ++ 0 :: c.reverse := by
    intro c t
    simp [claimOf]
  have hreverse := congrArg List.reverse h
  rw [hclaim, hclaim] at hreverse
  obtain ⟨htuple, hcolumn⟩ := append_cons_inj (by simpa using ht) (by simpa using ht') hreverse
  exact ⟨reverse_injective hcolumn, reverse_injective htuple⟩

def Claims (doc : Document) (index : StoredIndex) (key : Utf16) : Prop :=
  index.unique = true ∧ ∃ tuple, tupleIn index doc = some tuple ∧ key = claimOf index.column tuple

lemma claimAll_apply (doc : Document) (claimed : Utf16 → Option Utf16) (index : StoredIndex)
    (key : Utf16) : Claims doc index key ∧ claimAll doc claimed index key = some doc.name ∨
      ¬Claims doc index key ∧ claimAll doc claimed index key = claimed key := by
  unfold claimAll Claims tupleIn
  by_cases hunique : index.unique = true
  · by_cases hvalued : allValued index doc.data = true
    · have hboth : index.unique = true ∧ allValued index doc.data = true := ⟨hunique, hvalued⟩
      rw [if_pos hvalued, if_pos hboth]
      cases indexTuple index doc.data with
      | none => exact .inr ⟨by simp, rfl⟩
      | some tuple =>
        by_cases hkey : key = claimOf index.column tuple
        · exact .inl ⟨⟨hunique, tuple, rfl, hkey⟩, if_pos hkey⟩
        · refine .inr ⟨?_, if_neg hkey⟩
          rintro ⟨-, tuple', heq, hkey'⟩
          cases heq
          exact hkey hkey'
    · have hboth : ¬(index.unique = true ∧ allValued index doc.data = true) := fun h => hvalued h.2
      rw [if_neg hvalued, if_neg hboth]
      exact .inr ⟨by simp, rfl⟩
  · have hboth : ¬(index.unique = true ∧ allValued index doc.data = true) := fun h => hunique h.1
    rw [if_neg hboth]
    exact .inr ⟨fun h => hunique h.1, rfl⟩

lemma foldl_claimAll (doc : Document) (indexes : List StoredIndex)
    (claimed : Utf16 → Option Utf16) (key : Utf16) : (∃ index ∈ indexes, Claims doc index key) ∧
        indexes.foldl (claimAll doc) claimed key = some doc.name ∨
      (∀ index ∈ indexes, ¬Claims doc index key) ∧
        indexes.foldl (claimAll doc) claimed key = claimed key := by
  induction indexes generalizing claimed with
  | nil => exact .inr ⟨by simp, rfl⟩
  | cons index indexes ih =>
    rcases ih (claimAll doc claimed index) with ⟨⟨i, hi, hclaims⟩, heq⟩ | ⟨hnone, heq⟩
    · exact .inl ⟨⟨i, mem_cons_of_mem _ hi, hclaims⟩, heq⟩
    · rcases claimAll_apply doc claimed index key with
        ⟨hclaims, hone⟩ | ⟨hnot, hone⟩
      · exact .inl ⟨⟨index, mem_cons_self, hclaims⟩, heq.trans hone⟩
      · refine .inr ⟨fun i hi => ?_, heq.trans hone⟩
        rcases mem_cons.1 hi with rfl | hi
        · exact hnot
        · exact hnone i hi

lemma releasedBy_of_ne {claimed : Utf16 → Option Utf16} {held key name : Utf16}
    (h : claimed key = some name) (hne : name ≠ held) : releasedBy claimed held key = some name := by
  unfold releasedBy
  rw [if_neg, h]
  rw [h]
  exact fun heq => hne (Option.some.inj heq)

/-! ## Inside a batch -/

/-- What holds inside a batch of a store that respects its unique indexes: a tuple is one
document's, and what the batch has written holds its tuples as claims. -/
structure Apart (t : TenantId) (o : Objects Record) (ops : List DocumentWrite) (s : Staged) :
    Prop where
  homed : ∀ q d, curr t o s.pending q = some d → ∃ c, loadCollection t o d.collection = some c
  distinct : ∀ n c index, loadCollection t o n = some c → index ∈ c.indexes →
    index.state = .ready → index.unique = true → Distinct (curr t o s.pending) n index
  claimed : ∀ q d c index tuple, s.pending.bySeq q = some (some d) →
    loadCollection t o d.collection = some c → index ∈ c.indexes → index.state = .ready →
    index.unique = true → tupleIn index d = some tuple →
    s.pending.claimed (claimOf index.column tuple) = some d.name
  used : ∀ q doc, s.pending.bySeq q = some doc → q ∈ seqsOf ops ∨ ∃ d, docAt t o q = some d

variable {doc : Document} {seq : Seq} {c : StoredCollection}

namespace Apart

variable {host : Host} {t : TenantId} {o : Objects Record} {now : Utf16} {ops : List DocumentWrite}
  {rest : List Seq} {due : List (Seq × Document)} {s s' : Staged}

lemma start (h : Respects t o) : Apart t o ops {} where
  homed := h.homed
  distinct := h.distinct
  claimed _ _ _ _ _ hby := by cases hby
  used _ _ hby := by cases hby

lemma used_of_curr (h : Apart t o ops s)
    (hq : curr t o s.pending q = some d) : q ∈ seqsOf ops ∨ ∃ d, docAt t o q = some d := by
  cases hby : s.pending.bySeq q with
  | none => exact .inr ⟨d, by rwa [curr_of_none hby] at hq⟩
  | some doc => exact h.used q doc hby

lemma eq_of_name (ho : Kept o) (hw : Within host t o rest due s) {q q' : Seq} {d d' : Document}
    (hq : curr t o s.pending q = some d) (hq' : curr t o s.pending q' = some d')
    (hname : d'.name = d.name) : q' = q := by
  obtain ⟨hc, hid⟩ := nameOf_inj (hw.held_of_curr ho hq').1 (hw.held_of_curr ho hq).1 hname
  exact hw.curr_inj (hw.held_of_curr ho hq).1 hq hq' hc hid

lemma forget (ho : Kept o) (hw : Within host t o rest due s) (h : Apart t o ops s)
    (hq : curr t o s.pending q = some d) : Apart t o ops { s with pending := Db.forget s.pending d q } := by
  have hbySeq : ∀ q', (Db.forget s.pending d q).bySeq q' =
      if q' = q then some none else s.pending.bySeq q' := fun _ => rfl
  have hcurr : ∀ {q' d'}, curr t o (Db.forget s.pending d q) q' = some d' →
      q' ≠ q ∧ curr t o s.pending q' = some d' := by
    intro q' d' hq'
    unfold curr at hq' ⊢
    rw [hbySeq] at hq'
    split_ifs at hq' with heq
    exact ⟨heq, hq'⟩
  constructor
  · exact fun q' d' hq' => h.homed q' d' (hcurr hq').2
  · exact fun n c index hc hindex hready hunique q₁ q₂ d₁ d₂ tuple h₁ h₂ =>
      h.distinct n c index hc hindex hready hunique q₁ q₂ d₁ d₂ tuple (hcurr h₁).2 (hcurr h₂).2
  · intro q' d' c index tuple hby hc hindex hready hunique htuple
    obtain ⟨hne, hq'⟩ := hcurr (curr_of_some hby)
    have hby : s.pending.bySeq q' = some (some d') := by
      rw [← hby]
      exact ((hbySeq q').trans (if_neg hne)).symm
    exact releasedBy_of_ne (h.claimed q' d' c index tuple hby hc hindex hready hunique htuple)
      fun hname => hne (eq_of_name ho hw hq hq' hname)
  · intro q' doc hby
    have hby : (if q' = q then some none else s.pending.bySeq q') = some doc := hby
    split_ifs at hby with heq
    · rw [heq]
      exact h.used_of_curr hq
    · exact h.used q' doc hby

lemma forgetAgain (hw : Within host t o rest due s) (h : Apart t o ops s) (hd : (q, d) ∈ due) :
    Apart t o ops { s with pending := Db.forget s.pending d q } := by
  obtain ⟨hgone, hname, hbyName, -⟩ := hw.forgotten _ hd
  have hbySeq := Within.forget_bySeq d hgone
  have hcurr : curr t o (Db.forget s.pending d q) = curr t o s.pending := by
    unfold curr
    rw [hbySeq]
  constructor
  · simpa only [hcurr] using h.homed
  · simpa only [hcurr] using h.distinct
  · intro q' d' c index tuple hby hc hindex hready hunique htuple
    have hby : s.pending.bySeq q' = some (some d') := by
      rw [← hbySeq]
      exact hby
    refine releasedBy_of_ne (h.claimed q' d' c index tuple hby hc hindex hready hunique htuple) ?_
    intro hsame
    -- the name of what is forgotten addresses nothing
    have hnamed := (hw.names d'.collection d'.id (hw.name q' d' hby) q' d').2
      ⟨curr_of_some hby, rfl, rfl⟩
    unfold currentNamed at hnamed
    rw [show nameOf d'.collection d'.id = d.name from hsame, hbyName] at hnamed
    cases hnamed
  · simpa only [hbySeq] using h.used

/-- What a document that may be written finds of its tuple in a ready unique index: a claim of its own
name or none, and no other holder. -/
theorem holderFault_of_uniqueFault {p : PendingDocs} (hready : index.state = .ready)
    (hunique : index.unique = true) (hdoc : tupleIn index doc = some tuple)
    (h : uniqueFault o p doc seq index = none) :
    (∀ claimant, p.claimed (claimOf index.column tuple) = some claimant → claimant = doc.name) ∧
      holderFault o p doc seq index tuple = none := by
  obtain ⟨hvalued, htuple⟩ := tupleIn_eq_some.1 hdoc
  unfold uniqueFault at h
  rw [if_neg (by simp [hunique, hready]), if_neg (by simp [hvalued]), htuple] at h
  dsimp only at h
  split at h
  next hnone =>
    refine ⟨fun claimant hclaimant => ?_, h⟩
    rw [hnone] at hclaimant
    cases hclaimant
  next claimant hsome =>
    split_ifs at h with hname
    refine ⟨fun claimant' hclaimant => ?_, h⟩
    rw [hsome] at hclaimant
    cases hclaimant
    exact not_not.1 hname

lemma eq_of_uniqueFault (hrespects : Respects t o) (h : Apart t o ops s)
    (hc : loadCollection t o n = some c) (hindex : index ∈ c.indexes) (hready : index.state = .ready)
    (hunique : index.unique = true) (hfault : uniqueFault o s.pending doc seq index = none)
    (hq : curr t o s.pending q = some d) (hcol : d.collection = n)
    (hdoc : tupleIn index doc = some tuple) (hd : tupleIn index d = some tuple) :
    q = seq ∨ d.name = doc.name := by
  obtain ⟨hclaim, hholder⟩ := holderFault_of_uniqueFault hready hunique hdoc hfault
  cases hby : s.pending.bySeq q with
  | some written =>
    -- written by the batch: its claim is not another's
    rw [curr_of_some hby] at hq
    subst hq
    subst hcol
    exact .inr (hclaim _ (h.claimed q d c index tuple hby hc hindex hready hunique hd))
  | none =>
    -- as it was committed: its posting is found
    rw [curr_of_none hby] at hq
    left
    by_contra hne
    obtain ⟨held, tuple', hheld, htuple', hmem⟩ :=
      hrespects.posted n c index hc hindex hready q d hq hcol
    rw [(tupleIn_eq_some.1 hd).2] at htuple'
    cases htuple'
    have hresolve : q ∈ o.resolve (.equals index.column (.string tuple)) :=
      Objects.mem_resolve.2 ⟨⟨held, hheld⟩, held.manifest, by rw [Objects.manifests, hheld]; rfl,
        .string tuple, hmem, rfl⟩
    have hnone := List.findSome?_eq_none_iff.1 hholder q hresolve
    have hcurrent : currentAt o s.pending q = some d := by
      rw [currentAt_eq hq, curr_of_none hby, hq]
    rw [if_neg hne, hcurrent] at hnone
    dsimp only at hnone
    rw [if_neg (not_not.2 (tupleIn_eq_some.1 hd).2)] at hnone
    cases hnone

lemma put (ho : Kept o) (hrespects : Respects t o) {op : DocumentWrite} (hop : op ∈ ops)
    {loaded : Option StoredCollection} (hplaced : Placed host t o now op s.pending doc seq loaded)
    (hput : documentPut host t o doc seq loaded s = .ok s') {rest' : List Seq}
    (hw' : Within host t o rest' due s') (h : Apart t o ops s) : Apart t o ops s' := by
  -- the document's collection, and what its constraints say
  obtain ⟨c, hc⟩ : ∃ c, loadCollection t o doc.collection = some c := by
    cases hplaced with
    | inserted hop hrecord hvalid hschema hfree hexpiry => exact ⟨_, hrecord⟩
    | @updated _ current _ _ _ _ _ _ hcurr _ _ =>
      obtain ⟨c, hc⟩ := h.homed seq current hcurr
      exact ⟨c, hc⟩
    | cleared hcurr hrecord hnaming => exact ⟨_, hrecord⟩
  obtain ⟨edges, manifest, hedges, hmanifest, heq⟩ := documentPut_eq_ok hplaced.record_eq hput
  rw [hc] at hedges heq
  have hfaults : ∀ index ∈ c.indexes, uniqueFault o s.pending doc seq index = none := by
    unfold enforceConstraints at hedges
    dsimp only at hedges
    split at hedges
    · cases hedges
    next hnone =>
      unfold constraintFault at hnone
      simp only [Option.or_eq_none_iff] at hnone
      exact List.findSome?_eq_none_iff.1 hnone.2.2.2
  have hbySeq : ∀ q, s'.pending.bySeq q = if q = seq then some (some doc) else s.pending.bySeq q := by
    intro q
    rw [heq]
    rfl
  have hself : curr t o s'.pending seq = some doc := curr_of_some (by rw [hbySeq, if_pos rfl])
  have hother : ∀ {q}, q ≠ seq → curr t o s'.pending q = curr t o s.pending q := by
    intro q hq
    unfold curr
    rw [hbySeq, if_neg hq]
  have hcases : ∀ {q d}, curr t o s'.pending q = some d →
      q = seq ∧ d = doc ∨ q ≠ seq ∧ curr t o s.pending q = some d := by
    intro q d hq
    by_cases hqs : q = seq
    · rw [hqs, hself] at hq
      exact .inl ⟨hqs, (Option.some.inj hq).symm⟩
    · exact .inr ⟨hqs, by rw [← hother hqs]; exact hq⟩
  -- the new document's tuple is no other's
  have hnew : ∀ index ∈ c.indexes, index.state = .ready → index.unique = true → ∀ q d tuple,
      q ≠ seq → curr t o s.pending q = some d → d.collection = doc.collection →
      tupleIn index doc = some tuple → tupleIn index d = some tuple → False := by
    intro index hindex hready hunique q d tuple hne hq hcol hdoc hd
    rcases h.eq_of_uniqueFault hrespects hc hindex hready hunique (hfaults index hindex) hq
      hcol hdoc hd with heq | hname
    · exact hne heq
    · exact hne (eq_of_name ho hw' hself ((hother hne).trans hq) hname)
  have hdistinct : ∀ n c' index, loadCollection t o n = some c' → index ∈ c'.indexes →
      index.state = .ready → index.unique = true → Distinct (curr t o s'.pending) n index := by
    intro n c' index hc' hindex hready hunique q₁ q₂ d₁ d₂ tuple h₁ h₂ hn₁ hn₂ ht₁ ht₂
    rcases hcases h₁ with ⟨rfl, rfl⟩ | ⟨hne₁, hq₁⟩
    · rcases hcases h₂ with ⟨rfl, -⟩ | ⟨hne₂, hq₂⟩
      · rfl
      · rw [← hn₁, hc] at hc'
        cases hc'
        exact absurd (hnew index hindex hready hunique q₂ d₂ tuple hne₂ hq₂ (hn₂.trans hn₁.symm)
          ht₁ ht₂) id
    · rcases hcases h₂ with ⟨rfl, rfl⟩ | ⟨hne₂, hq₂⟩
      · rw [← hn₂, hc] at hc'
        cases hc'
        exact absurd (hnew index hindex hready hunique q₁ d₁ tuple hne₁ hq₁ (hn₁.trans hn₂.symm)
          ht₂ ht₁) id
      · exact h.distinct n c' index hc' hindex hready hunique q₁ q₂ d₁ d₂ tuple hq₁ hq₂ hn₁ hn₂ ht₁ ht₂
  refine ⟨?_, hdistinct, ?_, ?_⟩
  · intro q d hq
    rcases hcases hq with ⟨rfl, rfl⟩ | ⟨-, hq⟩
    · exact ⟨c, hc⟩
    · exact h.homed q d hq
  · intro q d c' index tuple hby hc' hindex hready hunique htuple
    have hclaimed : s'.pending.claimed =
        c.indexes.foldl (claimAll doc) (releasedBy s.pending.claimed doc.name) := by
      rw [heq]
      rfl
    rw [hclaimed]
    rcases hcases (curr_of_some hby) with ⟨rfl, rfl⟩ | ⟨hne, hq⟩
    · rw [hc] at hc'
      cases hc'
      rcases foldl_claimAll d c.indexes (releasedBy s.pending.claimed d.name)
        (claimOf index.column tuple) with ⟨-, hkey⟩ | ⟨hnone, -⟩
      · exact hkey
      · exact absurd ⟨hunique, tuple, htuple, rfl⟩ (hnone index hindex)
    · rw [hbySeq, if_neg hne] at hby
      have hname : d.name ≠ doc.name := fun hname =>
        hne (eq_of_name ho hw' hself ((hother hne).trans hq) hname)
      have hold := releasedBy_of_ne
        (h.claimed q d c' index tuple hby hc' hindex hready hunique htuple) hname
      rcases foldl_claimAll doc c.indexes (releasedBy s.pending.claimed doc.name)
        (claimOf index.column tuple) with
        ⟨⟨index', hindex', -, tuple', htuple', hkey⟩, -⟩ | ⟨-, hkey⟩
      · -- one column is one index's, so the tuple would be both documents'
        obtain ⟨hcolumn, rfl⟩ := claimOf_inj (zero_notMem_indexTuple (tupleIn_eq_some.1 htuple).2)
          (zero_notMem_indexTuple (tupleIn_eq_some.1 htuple').2) hkey
        obtain ⟨salt, hsalt⟩ := (ho.indexesOk hc').column index hindex
        obtain ⟨salt', hsalt'⟩ := (ho.indexesOk hc).column index' hindex'
        obtain ⟨hcname, hisName⟩ := ho.name_of_load hc
        obtain ⟨hcname', hisName'⟩ := ho.name_of_load hc'
        rw [hcname'] at hsalt
        rw [hcname] at hsalt'
        obtain ⟨hcol, hnames, -⟩ := indexColumnFor_inj hisName' hisName
          ((ho.indexesOk hc').named index hindex) ((ho.indexesOk hc).named index' hindex')
          (hsalt.symm.trans (hcolumn.trans hsalt'))
        rw [hcol, hc] at hc'
        cases hc'
        have hsame : index = index' :=
          inj_on_of_nodup_map (ho.indexesOk hc).nodup hindex hindex' hnames
        rw [← hsame] at htuple'
        exact absurd (hnew index hindex hready hunique q d tuple hne hq hcol htuple' htuple) id
      · exact hkey.trans hold
  · intro q written hby
    rw [hbySeq] at hby
    split_ifs at hby with hqs
    · rw [hqs]
      rcases hplaced.old_or_fresh ho with ⟨old, hold, -⟩ | ⟨hmem, -⟩
      · exact h.used_of_curr hold
      · obtain ⟨op', hop', hseq⟩ := mem_filterMap.1 hmem
        rw [mem_singleton.1 hop'] at hseq
        exact .inl (mem_filterMap.2 ⟨op, hop, hseq⟩)
    · exact h.used q written hby

lemma keeps (ho : Kept o) (hrespects : Respects t o) :
    Keeps host t o now ops (fun _ _ => True) fun _ s => Apart t o ops s where
  put := fun hop _ hplaced _ hput hw' h => h.put ho hrespects hop hplaced hput hw'
  forget := fun hw hq _ h => h.forget ho hw hq
  forgetAgain := fun hw h => h.forgetAgain hw mem_cons_self
  retract := fun _ h => ⟨h.homed, h.distinct, h.claimed, h.used⟩

end Apart

/-! ## What a batch leaves -/

/-- Every document of a tenant and what it contributes is as it was, or it has the tuples of every
index of its collection. -/
def Carried (t : TenantId) (o o' : Objects Record) : Prop :=
  ∀ q d, docAt t o' q = some d → docAt t o q = some d ∧ o'.held.get q = o.held.get q ∨
      ∀ c, loadCollection t o d.collection = some c → ∀ index ∈ c.indexes, PostedIn o' q d index

lemma SameDocuments.carried {o' : Objects Record} (h : SameDocuments o o') (t : TenantId) :
    Carried t o o' := by
  intro q d hd
  have hd' : Db.docAt t o q = some d := (h.docAt t q).symm.trans hd
  exact .inl ⟨hd', h.held t q d hd'⟩

lemma Carried.posted {o' : Objects Record} (h : Carried t o o')
    (hc : loadCollection t o n = some c) (hindex : index ∈ c.indexes) {E : Seq → Prop}
    (hposted : ∀ q d, docAt t o q = some d → d.collection = n → E q ∨ PostedIn o q d index) :
    ∀ q d, docAt t o' q = some d → d.collection = n → E q ∨ PostedIn o' q d index := by
  intro q d hd hcol
  rcases h q d hd with ⟨hd', hheld⟩ | hall
  · refine (hposted q d hd' hcol).imp_right ?_
    rintro ⟨held, tuple, hheld', htuple, hmem⟩
    exact ⟨held, tuple, hheld.trans hheld', htuple, hmem⟩
  · exact .inr (hall c (by rw [hcol]; exact hc) index hindex)

variable {t' : TenantId}

namespace Within

variable {host : Host} {t : TenantId} {o : Objects Record} {s : Staged}

lemma carried (h : Within host t o [] [] s) : Carried t o (o.commit s.writes) := by
  intro q d hd
  rw [h.docAt_commit] at hd
  cases hby : s.pending.bySeq q with
  | none =>
    rw [curr_of_none hby] at hd
    exact .inl ⟨hd, h.kept q hby⟩
  | some doc =>
    rw [curr_of_some hby] at hd
    subst hd
    obtain ⟨held, edges, hheld, -, -, hmanifest⟩ := h.put q d hby
    refine .inr fun c hc index hindex => ?_
    rw [hc] at hmanifest
    obtain ⟨tuple, htuple, hmem⟩ := posted_of_manifestFor hmanifest hindex
    exact ⟨held, tuple, hheld, htuple, hmem⟩

lemma held_commit_of_ne (ht : TenantOk t) (h : Within host t o [] [] s)
    (ht' : TenantOk t') (hne : t' ≠ t) (hd : docAt t' o q = some d) :
    (o.commit s.writes).held.get q = o.held.get q := by
  obtain ⟨held, hheld, -, hid⟩ := docAt_eq_some.1 hd
  rw [hheld]
  exact (h.held_commit hid fun c hns => hne (documentNs_inj ht' ht hns).1).2 hheld

lemma carried_of_ne (ht : TenantOk t) (h : Within host t o [] [] s)
    (ht' : TenantOk t') (hne : t' ≠ t) : Carried t' o (o.commit s.writes) := by
  intro q d hd
  rw [h.docAt_commit_of_ne ht ht' hne] at hd
  exact .inl ⟨hd, h.held_commit_of_ne ht ht' hne hd⟩

end Within

lemma Apart.respects_commit {host : Host}
    {ops : List DocumentWrite} {s : Staged} (ho : Kept o) (hrespects : Respects t o)
    (hw : Within host t o [] [] s) (h : Apart t o ops s) : Respects t (o.commit s.writes) := by
  have hload := hw.load_commit ho t
  refine ⟨?_, ?_, ?_⟩
  · intro q d hd
    rw [hw.docAt_commit] at hd
    rw [hload]
    exact h.homed q d hd
  · intro n c index hc hindex hready q d hd hcol
    rw [hload] at hc
    exact (hw.carried.posted hc hindex (E := fun _ => False) (fun q d hd hcol =>
      .inr (hrespects.posted n c index hc hindex hready q d hd hcol)) q d hd hcol).resolve_left id
  · intro n c index hc hindex hready hunique
    rw [hload] at hc
    intro q q' d d' tuple hd hd'
    rw [hw.docAt_commit] at hd hd'
    exact h.distinct n c index hc hindex hready hunique q q' d d' tuple hd hd'

end Zelavis.Db
