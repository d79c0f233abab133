import Zelavis.Db.KeyValueNames

/-!
# Pages of names

`kv-store.ts` `scanIdentities`, asked again after the last name it gave.
-/

namespace Zelavis.Db.IdentityPages

open Lib List

variable {r : NameRange} {b : Bindings} {n : ℕ}

/-! ## Names and pages -/

def encoded (i : ObjectIdentity) : Key := identityKey i.ns i.key

/-- The names a store holds: a key of the engine has one name, and so has an identifier. -/
structure Bindings where
  entries : List (ObjectIdentity × Seq)
  keys : (entries.map fun e => encoded e.1).Nodup
  seqs : (entries.map Prod.snd).Nodup

namespace Bindings

def index (b : Bindings) : OrderedMap Key Seq := .ofList (b.entries.map fun e => (encoded e.1, e.2))

def erase (b : Bindings) (names : List ObjectIdentity) : Bindings where
  entries := b.entries.filter fun e => encoded e.1 ∉ names.map encoded
  keys := b.keys.sublist (List.filter_sublist.map _)
  seqs := b.seqs.sublist (List.filter_sublist.map _)

end Bindings

/-- What a scan asks for, whatever page of it. -/
structure NameRange where
  ns : Utf16
  pre : Option Utf16 := none
  lower : Option Utf16 := none
  upper : Option Utf16 := none
  desc : Bool := false

namespace NameRange

def page (r : NameRange) (after : Option Utf16) (limit : ℕ) : IdentityScan where
  ns := r.ns
  pre := r.pre
  lower := r.lower
  upper := r.upper
  after := after
  desc := r.desc
  limit := limit

def Covers (r : NameRange) (k : Utf16) : Prop := (r.page none 0).Covers k

end NameRange

/-- `StoreError` of `identity.scan`: the limit must be an integer from 1 to 1000, not this. -/
inductive ScanError where
  | limit (asked : JsNumber)
  deriving DecidableEq

/-- The names a page takes. Source: `scanIdentities`. -/
def pageLimit (limit : Option JsNumber) : Except ScanError ℕ :=
  match limit with
  | none => .ok 100
  | some asked =>
    match asked.integer? with
    | none => .error (.limit asked)
    | some n => if n < 1 ∨ 1000 < n then .error (.limit asked) else .ok n.toNat

/-- What a scan gives of an engine's names. Source: `scanIdentities`. -/
def rows (index : OrderedMap Key Seq) (input : IdentityScan) : List (Utf16 × Seq) :=
  let entries := index.between input.range.1 input.range.2
  let read := (if input.desc then entries.reverse else entries).take
    (min 1001 (input.limit + if input.after.isSome then 1 else 0))
  ((read.map fun e => (decodeIdentity e.1, e.2)).filter fun e =>
    e.1.ns = input.ns && input.after ≠ some e.1.key).take input.limit |>.map fun e => (e.1.key, e.2)

lemma scanIdentities_eq (o : Objects Record) (input : IdentityScan) :
    scanIdentities o input = rows (identityIndex o) input := rfl

/-- A page: which of the names given so far are deleted before it, and its limit. -/
structure Page where
  gone : Utf16 → Bool := fun _ => false
  limit : Option JsNumber := none

/-- Pages one after another, each asked for after the last name given: all the names given. -/
def readPages (r : NameRange) : List Page → Bindings → List (Utf16 × Seq) →
    Except ScanError (List (Utf16 × Seq))
  | [], _, given => .ok given
  | p :: ps, b, given =>
    let left := b.erase (((given.map Prod.fst).filter p.gone).map fun k => ⟨r.ns, k⟩)
    match pageLimit p.limit with
    | .error fault => .error fault
    | .ok n => readPages r ps left
        (given ++ rows left.index (r.page (given.getLast?.map Prod.fst) n))

/-- Whatever the pages, they are the names in range from the first on, in the order of their bytes and
each of them once, as many as the pages take. -/
def ReadsAll (b : Bindings) (r : NameRange) : Prop :=
  ∃ l : List (Utf16 × Seq), (l.Pairwise fun e e' => Precedes r.desc e.1 e'.1) ∧
    (∀ k q, (k, q) ∈ l ↔ (⟨r.ns, k⟩, q) ∈ b.entries ∧ r.Covers k) ∧
    ∀ pages sizes, List.Forall₂ (fun p n => pageLimit p.limit = .ok n) pages sizes →
      readPages r pages b [] = .ok (l.take sizes.sum)

/-- No name in range is changed by its encoding: neither its namespace nor its key has a lone
surrogate or begins with a byte order mark. A name in another namespace of the same bytes counts
where the scan's own namespace is unchanged. -/
def Readable (b : Bindings) (r : NameRange) : Prop :=
  ∀ e ∈ b.entries, utf8 e.1.ns = utf8 r.ns → r.Covers e.1.key → Legible r.ns ∨ e.1.ns = r.ns →
    Legible e.1.ns ∧ Legible e.1.key

/-! ## The engine's rows in range -/

variable {i : ObjectIdentity}

lemma encoded_eq {ns : Utf16} (h : utf8 i.ns = utf8 ns) : encoded i = identityKey ns i.key := by
  simp only [encoded, identityKey, writeString, h]

lemma decodeIdentity_encoded (i : ObjectIdentity) :
    decodeIdentity (encoded i) = ⟨decodeText (utf8 i.ns), decodeText (utf8 i.key)⟩ := by
  have hkey : readString (writeString i.key) = (decodeText (utf8 i.key), []) := by
    have h := readEscaped_writeEscaped (utf8 i.key) []
    rw [append_nil] at h
    rw [readString, writeString, h]
  unfold decodeIdentity encoded identityKey
  rw [drop_one, tail_cons, readString, writeString, readEscaped_writeEscaped]
  dsimp only
  rw [hkey]

variable {q : Seq} {key : Key}

lemma Bindings.get_index :
    b.index.get key = some q ↔ ∃ i, (i, q) ∈ b.entries ∧ encoded i = key := by
  constructor
  · intro h
    obtain ⟨e, he, heq⟩ := List.mem_map.1 (OrderedMap.mem_of_get_ofList h)
    obtain ⟨rfl, rfl⟩ := Prod.mk.inj heq
    exact ⟨e.1, he, rfl⟩
  · rintro ⟨i, hi, rfl⟩
    obtain ⟨q', hq'⟩ := OrderedMap.get_ofList_of_mem
      (List.mem_map_of_mem (f := fun e : ObjectIdentity × Seq => (encoded e.1, e.2)) hi)
    obtain ⟨e, he, heq⟩ := List.mem_map.1 (OrderedMap.mem_of_get_ofList hq')
    obtain ⟨hkey, rfl⟩ := Prod.mk.inj heq
    have hsame : e = (i, q) := inj_on_of_nodup_map b.keys he hi hkey
    rw [hsame] at hq'
    exact hq'

def Before (desc : Bool) (a c : Key × Seq) : Prop := if desc = true then c.1 < a.1 else a.1 < c.1

instance (desc : Bool) (a c : Key × Seq) : Decidable (Before desc a c) :=
  inferInstanceAs (Decidable (if desc = true then _ else _))

variable {desc : Bool}

lemma Before.trans {a c e : Key × Seq} (h : Before desc a c) (h' : Before desc c e) : Before desc a e := by
  unfold Before at h h' ⊢
  split_ifs at h h' ⊢
  · exact h'.trans h
  · exact h.trans h'

lemma Before.ne {a c : Key × Seq} (h : Before desc a c) : a.1 ≠ c.1 := by
  unfold Before at h
  split_ifs at h
  · exact h.ne'
  · exact h.ne

lemma before_congr {a a' c : Key × Seq} (h : a.1 = a'.1) : Before desc a c ↔ Before desc a' c := by
  unfold Before
  rw [h]

lemma eq_of_before {l l' : List (Key × Seq)} (h : l.Pairwise (Before desc))
    (h' : l'.Pairwise (Before desc)) (hmem : ∀ e, e ∈ l ↔ e ∈ l') : l = l' := by
  have hnodup : ∀ {l : List (Key × Seq)}, l.Pairwise (Before desc) → l.Nodup := by
    intro l hl
    refine hl.imp ?_
    rintro a c hac rfl
    exact hac.ne rfl
  refine List.Perm.eq_of_pairwise ?_ h h' ((perm_ext_iff_of_nodup (hnodup h) (hnodup h')).2 hmem)
  intro a c _ _ hac hca
  exact absurd rfl (hac.trans hca).ne

def rawPage (b : Bindings) (input : IdentityScan) : List (Key × Seq) :=
  if input.desc = true then (b.index.between input.range.1 input.range.2).reverse
  else b.index.between input.range.1 input.range.2

lemma rawPage_sorted (b : Bindings) (input : IdentityScan) :
    (rawPage b input).Pairwise (Before input.desc) := by
  unfold rawPage Before
  split_ifs
  · exact pairwise_reverse.2 (b.index.between_sorted _ _)
  · exact b.index.between_sorted _ _

lemma mem_rawPage {input : IdentityScan} :
    (key, q) ∈ rawPage b input ↔ ∃ i, (i, q) ∈ b.entries ∧ encoded i = key ∧
      utf8 i.ns = utf8 input.ns ∧ input.Covers i.key := by
  have hmem : (key, q) ∈ rawPage b input ↔ (key, q) ∈ b.index.between input.range.1 input.range.2 := by
    unfold rawPage
    split_ifs
    · exact mem_reverse
    · exact Iff.rfl
  rw [hmem, OrderedMap.mem_between, Bindings.get_index]
  constructor
  · rintro ⟨⟨i, hi, rfl⟩, hrange⟩
    have hpre : identityPrefix input.ns <+: identityKey i.ns i.key := by
      have hpre := (scanRange_iff.1 hrange).1
      cases hp : input.pre with
      | none => rwa [hp] at hpre
      | some p =>
        rw [hp] at hpre
        exact identityPrefix_of_namePrefix hpre
    unfold identityPrefix identityKey at hpre
    rw [prefix_cons_inj] at hpre
    have hns := writeString_inj.1 (stringCode_prefixCode.eq_of_isPrefix (Set.mem_range_self input.ns)
      (Set.mem_range_self i.ns) hpre)
    rw [encoded_eq hns.symm] at hrange
    exact ⟨i, hi, rfl, hns.symm, (range_iff_covers input i.key).1 hrange⟩
  · rintro ⟨i, hi, rfl, hns, hcovers⟩
    refine ⟨⟨i, hi, rfl⟩, ?_⟩
    rw [encoded_eq hns]
    exact (range_iff_covers input i.key).2 hcovers

def row (e : Key × Seq) : Utf16 × Seq := ((decodeIdentity e.1).key, e.2)

/-- A row of the scan's own namespace whose key is unchanged by its encoding. -/
def Plainly (r : NameRange) (e : Key × Seq) : Prop := ∃ k, e.1 = identityKey r.ns k ∧ Legible k

variable {e : Key × Seq}

lemma Plainly.key_eq (h : Plainly r e) :
    e.1 = identityKey r.ns (row e).1 ∧ Legible (row e).1 := by
  obtain ⟨k, hkey, hk⟩ := h
  have hdecode : (row e).1 = k := by
    show (decodeIdentity e.1).key = k
    rw [hkey, show identityKey r.ns k = encoded ⟨r.ns, k⟩ from rfl, decodeIdentity_encoded]
    exact decodeText_utf8_iff.2 hk
  rw [hdecode]
  exact ⟨hkey, hk⟩

/-! ## A page -/

lemma take_filter_take {α : Type} {p : α → Bool} {here past : List α} (hone : here.length ≤ 1)
    (hhere : ∀ a ∈ here, p a = false) (hpast : ∀ a ∈ past.take n, p a = true) :
    (((here ++ past).take (n + 1)).filter p).take n = past.take n := by
  have htake : (past.take n).filter p = past.take n := filter_eq_self.2 hpast
  cases here with
  | nil =>
    rw [nil_append, take_add, filter_append, htake]
    rcases Nat.lt_or_ge past.length n with hlt | hle
    · rw [drop_eq_nil_of_le hlt.le, take_nil, filter_nil, append_nil,
        take_take, Nat.min_self]
    · rw [take_append_of_le_length (by rw [length_take]; omega), take_take, Nat.min_self]
  | cons a here =>
    obtain rfl : here = [] := by simpa using hone
    rw [cons_append, nil_append, take_succ_cons,
      filter_cons_of_neg (by rw [hhere a mem_cons_self]; exact Bool.false_ne_true), htake,
      take_take, Nat.min_self]

def ordered (b : Bindings) (r : NameRange) : List (Key × Seq) := rawPage b (r.page none 0)

lemma mem_ordered :
    (key, q) ∈ ordered b r ↔ ∃ i, (i, q) ∈ b.entries ∧ encoded i = key ∧ utf8 i.ns = utf8 r.ns ∧
      r.Covers i.key := mem_rawPage

lemma ordered_sorted (b : Bindings) (r : NameRange) : (ordered b r).Pairwise (Before r.desc) :=
  rawPage_sorted b (r.page none 0)

def past (b : Bindings) (r : NameRange) (after : Option Utf16) : List (Key × Seq) :=
  (ordered b r).filter fun e => ∀ a ∈ after, Before r.desc (identityKey r.ns a, e.2) e

variable {after : Option Utf16}

lemma mem_past : e ∈ past b r after ↔
      e ∈ ordered b r ∧ ∀ a ∈ after, Before r.desc (identityKey r.ns a, e.2) e := by
  unfold past
  rw [mem_filter, decide_eq_true_eq]

lemma past_sorted (b : Bindings) (r : NameRange) (after : Option Utf16) :
    (past b r after).Pairwise (Before r.desc) := (ordered_sorted b r).filter _

lemma covers_page {k : Utf16} : (r.page after n).Covers k ↔ r.Covers k ∧
      ∀ a ∈ after, if r.desc = true then utf8 k < utf8 a else utf8 a ≤ utf8 k := by
  unfold NameRange.Covers IdentityScan.Covers NameRange.page
  simp only [Option.mem_def, reduceCtorEq, false_implies, implies_true, and_true, and_assoc]

variable {a : Utf16}

lemma before_iff (h : utf8 i.ns = utf8 r.ns) :
    Before r.desc (identityKey r.ns a, q) (encoded i, q) ↔
      if r.desc = true then utf8 i.key < utf8 a else utf8 a < utf8 i.key := by
  unfold Before
  rw [encoded_eq h]
  split_ifs
  · exact identityKey_lt_iff
  · exact identityKey_lt_iff

/-- What the engine gives for a page past a key: a descending one those past it, an ascending one the
key itself before them. -/
theorem rawPage_page (b : Bindings) (r : NameRange) (a : Utf16) (n : ℕ) :
    ∃ here : List (Key × Seq), here.length ≤ 1 ∧ (∀ e ∈ here, e.1 = identityKey r.ns a) ∧
      rawPage b (r.page (some a) n) = here ++ past b r (some a) := by
  let here := (rawPage b (r.page (some a) n)).filter fun e => e.1 = identityKey r.ns a
  have hsorted := rawPage_sorted b (r.page (some a) n)
  have hkey : ∀ e ∈ here, e.1 = identityKey r.ns a := fun e he => by
    simpa using (mem_filter.1 he).2
  have hpast : ∀ {e}, e ∈ past b r (some a) → Before r.desc (identityKey r.ns a, e.2) e := fun he =>
    (mem_past.1 he).2 a rfl
  have hhere : here.Pairwise (Before r.desc) := hsorted.filter _
  refine ⟨here, ?_, hkey, eq_of_before hsorted ?_ ?_⟩
  · rcases hlist : here with _ | ⟨e, _ | ⟨e', rest⟩⟩
    · exact Nat.zero_le _
    · exact le_rfl
    · rw [hlist] at hhere hkey
      have hlt := rel_of_pairwise_cons hhere mem_cons_self
      exact absurd ((hkey e (by simp)).trans (hkey e' (by simp)).symm) hlt.ne
  · refine pairwise_append.2 ⟨hhere, past_sorted b r _, fun e he e' he' => ?_⟩
    have hlt := hpast he'
    unfold Before at hlt ⊢
    rwa [hkey e he]
  · rintro ⟨key, q⟩
    rw [mem_append, mem_filter, mem_past, mem_rawPage, mem_ordered]
    constructor
    · rintro ⟨i, hi, rfl, hns, hcovers⟩
      obtain ⟨hcovers, hafter⟩ := covers_page.1 hcovers
      have hbound := hafter a rfl
      by_cases heq : encoded i = identityKey r.ns a
      · refine .inl ⟨⟨i, hi, rfl, hns, covers_page.2 ⟨hcovers, hafter⟩⟩, by simpa using heq⟩
      · refine .inr ⟨⟨i, hi, rfl, hns, hcovers⟩, fun a' ha' => ?_⟩
        obtain rfl := Option.some.inj ha'
        refine (before_iff hns).2 ?_
        split_ifs at hbound ⊢ with hdesc
        · exact hbound
        · refine lt_of_le_of_ne hbound fun hbytes => heq ?_
          rw [encoded_eq (show utf8 i.ns = utf8 r.ns from hns)]
          simp only [identityKey, writeString, hbytes]
    · rintro (⟨h, -⟩ | ⟨⟨i, hi, rfl, hns, hcovers⟩, hafter⟩)
      · exact h
      · refine ⟨i, hi, rfl, hns, covers_page.2 ⟨hcovers, fun a' ha' => ?_⟩⟩
        have hlt := (before_iff hns).1 (hafter a' ha')
        split_ifs at hlt ⊢
        · exact hlt
        · exact hlt.le

lemma rows_eq (b : Bindings) (r : NameRange) (after : Option Utf16) (n : ℕ) :
    rows b.index (r.page after n) = ((((rawPage b (r.page after n)).take
      (min 1001 (n + if after.isSome = true then 1 else 0))).filter fun e =>
        (decodeIdentity e.1).ns = r.ns && after ≠ some (row e).1).take n).map row := by
  unfold rows
  dsimp only
  rw [List.filter_map, ← map_take, List.map_map]
  rfl

/-- A page is the first rows past the key it goes on from, as long as none of them is read as that
key. -/
theorem rows_page (hns : Legible r.ns)
    (hafter : ∀ a ∈ after, Legible a) (hn : n ≤ 1000)
    (hother : ∀ e ∈ (past b r after).take n, after ≠ some (row e).1) :
    rows b.index (r.page after n) = ((past b r after).take n).map row := by
  have hdecoded : ∀ e ∈ rawPage b (r.page after n), (decodeIdentity e.1).ns = r.ns := by
    rintro ⟨key, q⟩ he
    obtain ⟨i, -, rfl, hi, -⟩ := mem_rawPage.1 he
    rw [decodeIdentity_encoded, hi]
    exact decodeText_utf8_iff.2 hns
  have hfilter : ∀ e ∈ (rawPage b (r.page after n)).take
      (min 1001 (n + if after.isSome = true then 1 else 0)),
      ((decodeIdentity e.1).ns = r.ns && after ≠ some (row e).1) = decide (after ≠ some (row e).1) := by
    intro e he
    rw [hdecoded e (mem_of_mem_take he), decide_eq_true rfl, Bool.true_and]
  rw [rows_eq, filter_congr hfilter]
  refine congrArg (List.map row) ?_
  cases after with
  | none =>
    have hraw : rawPage b (r.page none n) = past b r none := by
      refine eq_of_before (rawPage_sorted b _) (past_sorted b r none) fun e => ?_
      rw [mem_past]
      exact (and_iff_left fun a ha => by cases ha).symm
    simp only [Option.isSome_none, Bool.false_eq_true, if_false, Nat.add_zero, ne_eq, reduceCtorEq,
      not_false_eq_true, decide_true, filter_true, take_take]
    congr 1
    omega
  | some a =>
    obtain ⟨here, hone, hkey, hraw⟩ := rawPage_page b r a n
    rw [hraw, Option.isSome_some, if_pos rfl, Nat.min_eq_right (by omega)]
    refine take_filter_take hone (fun e he => ?_) fun e he => decide_eq_true (hother e he)
    have hrow : (row e).1 = a := by
      show (decodeIdentity e.1).key = a
      rw [hkey e he, show identityKey r.ns a = encoded ⟨r.ns, a⟩ from rfl, decodeIdentity_encoded]
      exact decodeText_utf8_iff.2 (hafter a rfl)
    rw [hrow]
    simp

/-! ## Page after page -/

lemma Plainly.row_ne {e e' : Key × Seq} (h : Plainly r e) (h' : Plainly r e')
    (hlt : Before r.desc e e') : (row e).1 ≠ (row e').1 := by
  intro heq
  exact hlt.ne (h.key_eq.1.trans ((congrArg (identityKey r.ns) heq).trans h'.key_eq.1.symm))

def lastGiven (given : List (Utf16 × Seq)) : Option Utf16 := given.getLast?.map Prod.fst

lemma mem_lastGiven {l : List (Key × Seq)} (h : a ∈ lastGiven (l.map row)) :
    ∃ first x, l = first ++ [x] ∧ (row x).1 = a := by
  unfold lastGiven at h
  rw [List.getLast?_map, Option.map_map, Option.mem_def, Option.map_eq_some_iff] at h
  obtain ⟨x, hx, ha⟩ := h
  obtain ⟨first, hfirst⟩ := List.getLast?_eq_some_iff.1 hx
  exact ⟨first, x, hfirst, ha⟩

/-- The names that are left of a store after a page: those not given yet are all there. -/
structure Leaves (b : Bindings) (r : NameRange) (m : ℕ) (left : Bindings) : Prop where
  sub : ∀ e ∈ left.entries, e ∈ b.entries
  rest : ∀ e ∈ b.entries, (encoded e.1, e.2) ∈ (ordered b r).drop m → e ∈ left.entries

lemma Leaves.refl (b : Bindings) (r : NameRange) (m : ℕ) : Leaves b r m b :=
  ⟨fun _ he => he, fun _ he _ => he⟩

lemma before_of_take_drop {m : ℕ} {x e : Key × Seq}
    (hx : x ∈ (ordered b r).take m) (he : e ∈ (ordered b r).drop m) : Before r.desc x e := by
  have hsorted := ordered_sorted b r
  rw [← take_append_drop m (ordered b r)] at hsorted
  exact (pairwise_append.1 hsorted).2.2 x hx e he

section

variable {b left : Bindings} {r : NameRange} {m n : ℕ}

lemma past_lastGiven (hplain : ∀ e ∈ (ordered b r).take m, Plainly r e) (hleft : Leaves b r m left) :
    past left r (lastGiven (((ordered b r).take m).map row)) = (ordered b r).drop m := by
  refine eq_of_before (past_sorted left r _) ((ordered_sorted b r).drop) ?_
  rintro ⟨key, q⟩
  rw [mem_past]
  constructor
  · rintro ⟨he, hafter⟩
    obtain ⟨i, hi, rfl, hns, hcovers⟩ := mem_ordered.1 he
    have hmem : (encoded i, q) ∈ (ordered b r).take m ++ (ordered b r).drop m := by
      rw [take_append_drop]
      exact mem_ordered.2 ⟨i, hleft.sub _ hi, rfl, hns, hcovers⟩
    refine (mem_append.1 hmem).resolve_left fun hfirst => ?_
    have hne : (ordered b r).take m ≠ [] := ne_nil_of_mem hfirst
    obtain ⟨first, x, hlist⟩ : ∃ first x, (ordered b r).take m = first ++ [x] :=
      ⟨_, _, (dropLast_append_getLast hne).symm⟩
    have hlast : lastGiven (((ordered b r).take m).map row) = some (row x).1 := by
      simp [lastGiven, hlist]
    have hkey : (identityKey r.ns (row x).1, q).1 = x.1 := (hplain x (by simp [hlist])).key_eq.1.symm
    have hxe := (before_congr hkey).1 (hafter _ hlast)
    have hsorted : ((ordered b r).take m).Pairwise (Before r.desc) := (ordered_sorted b r).take
    rw [hlist] at hfirst hsorted
    rcases mem_append.1 hfirst with hbefore | hx
    · exact (hxe.trans ((pairwise_append.1 hsorted).2.2 _ hbefore x (by simp))).ne rfl
    · rw [mem_singleton.1 hx] at hxe
      exact hxe.ne rfl
  · intro he
    obtain ⟨i, hi, rfl, hns, hcovers⟩ := mem_ordered.1 (mem_of_mem_drop he)
    refine ⟨mem_ordered.2 ⟨i, hleft.rest _ hi he, rfl, hns, hcovers⟩, fun a ha => ?_⟩
    obtain ⟨first, x, hlist, rfl⟩ := mem_lastGiven ha
    have hx : x ∈ (ordered b r).take m := by simp [hlist]
    exact (before_congr (hplain x hx).key_eq.1).1 (before_of_take_drop hx he)

/-- The page after the first names is the next of them, as long as none is read as the last one. -/
theorem rows_next (hns : Legible r.ns) (hplain : ∀ e ∈ (ordered b r).take m, Plainly r e)
    (hleft : Leaves b r m left) (hn : n ≤ 1000) (hother : ∀ e ∈ ((ordered b r).drop m).take n,
      lastGiven (((ordered b r).take m).map row) ≠ some (row e).1) : ((ordered b r).take m).map row ++
        rows left.index (r.page (lastGiven (((ordered b r).take m).map row)) n) =
      ((ordered b r).take (m + n)).map row := by
  have hpast := past_lastGiven hplain hleft
  have hlegible : ∀ a ∈ lastGiven (((ordered b r).take m).map row), Legible a := by
    intro a ha
    obtain ⟨first, x, hlist, rfl⟩ := mem_lastGiven ha
    exact (hplain x (by simp [hlist])).key_eq.2
  rw [rows_page hns hlegible hn (by rwa [hpast]), hpast, take_add, map_append]

lemma lastGiven_ne (hplain : ∀ e ∈ (ordered b r).take (m + n), Plainly r e) :
    ∀ e ∈ ((ordered b r).drop m).take n, lastGiven (((ordered b r).take m).map row) ≠ some (row e).1 := by
  intro e he heq
  obtain ⟨first, x, hlist, hrow⟩ := mem_lastGiven heq
  have hx : x ∈ (ordered b r).take m := by simp [hlist]
  rw [take_add] at hplain
  exact (hplain x (mem_append_left _ hx)).row_ne (hplain e (mem_append_right _ he))
    (before_of_take_drop hx (mem_of_mem_take he)) hrow

end

lemma pageLimit_le {limit : Option JsNumber} (h : pageLimit limit = .ok n) : n ≤ 1000 := by
  unfold pageLimit at h
  cases limit with
  | none =>
    obtain rfl := Except.ok.inj h
    omega
  | some asked =>
    dsimp only at h
    cases hint : asked.integer? with
    | none =>
      rw [hint] at h
      cases h
    | some z =>
      rw [hint] at h
      dsimp only at h
      split_ifs at h with hz
      have := Except.ok.inj h
      omega

lemma readPages_cons {p : Page} {ps : List Page}
    {given : List (Utf16 × Seq)} (h : pageLimit p.limit = .ok n) :
    readPages r (p :: ps) b given =
      let left := b.erase (((given.map Prod.fst).filter p.gone).map fun k => ⟨r.ns, k⟩)
      readPages r ps left (given ++ rows left.index (r.page (lastGiven given) n)) := by
  rw [readPages, h]
  rfl

lemma Leaves.erase {left : Bindings} {m : ℕ} (hleft : Leaves b r m left)
    (hplain : ∀ e ∈ (ordered b r).take m, Plainly r e) (gone : Utf16 → Bool) : Leaves b r m (left.erase
      ((((((ordered b r).take m).map row).map Prod.fst).filter gone).map fun k => ⟨r.ns, k⟩)) where
  sub e he := hleft.sub e (mem_of_mem_filter he)
  rest e he hrest := by
    refine mem_filter.2 ⟨hleft.rest e he hrest, decide_eq_true fun hmem => ?_⟩
    simp only [List.mem_map, mem_filter] at hmem
    obtain ⟨-, ⟨k, ⟨⟨-, ⟨x, hx, rfl⟩, rfl⟩, -⟩, rfl⟩, hkey⟩ := hmem
    exact (before_of_take_drop hx hrest).ne ((hplain x hx).key_eq.1.trans hkey)

variable {pages : List Page} {sizes : List ℕ}

/-- Where every name in range is unchanged the pages are the names in range from the first on. -/
theorem readPages_eq (hns : Legible r.ns)
    (hplain : ∀ e ∈ ordered b r, Plainly r e)
    (hsizes : List.Forall₂ (fun p n => pageLimit p.limit = .ok n) pages sizes) :
    ∀ (m : ℕ) (left : Bindings), Leaves b r m left → readPages r pages left (((ordered b r).take m).map row) =
        .ok (((ordered b r).take (m + sizes.sum)).map row) := by
  have htake : ∀ m, ∀ e ∈ (ordered b r).take m, Plainly r e := fun m e he =>
    hplain e (mem_of_mem_take he)
  induction hsizes with
  | nil => exact fun _ _ _ => rfl
  | @cons p n pages sizes hlimit hsizes ih =>
    intro m left hleft
    rw [readPages_cons hlimit]
    dsimp only
    have hleft' := hleft.erase (htake m) p.gone
    rw [rows_next hns (htake m) hleft' (pageLimit_le hlimit) (lastGiven_ne (htake _)), sum_cons,
      ← Nat.add_assoc]
    refine ih (m + n) _ ⟨hleft'.sub, fun e he hrest => hleft'.rest e he ?_⟩
    rw [← drop_drop] at hrest
    exact mem_of_mem_drop hrest

/-! ## Where names are unchanged by their encoding -/

lemma readPages_of_not_legible (hns : ¬Legible r.ns)
    (hsizes : List.Forall₂ (fun p n => pageLimit p.limit = .ok n) pages sizes)
    (b : Bindings) : readPages r pages b [] = .ok [] := by
  have hnone : ∀ (b : Bindings) (n : ℕ), rows b.index (r.page none n) = [] := by
    intro b n
    have hdecoded : ∀ e ∈ rawPage b (r.page none n), (decodeIdentity e.1).ns ≠ r.ns := by
      rintro ⟨key, q⟩ he
      obtain ⟨i, -, rfl, hi, -⟩ := mem_rawPage.1 he
      rw [decodeIdentity_encoded, hi]
      exact fun heq => hns (decodeText_utf8_iff.1 heq)
    have hfilter : ((rawPage b (r.page none n)).take
        (min 1001 (n + if (none : Option Utf16).isSome = true then 1 else 0))).filter
        (fun e => (decodeIdentity e.1).ns = r.ns && none ≠ some (row e).1) = [] := by
      refine filter_eq_nil_iff.2 fun e he => ?_
      simp [hdecoded e (mem_of_mem_take he)]
    rw [rows_eq, hfilter, take_nil, map_nil]
  induction hsizes generalizing b with
  | nil => rfl
  | @cons p n pages sizes hlimit hsizes ih =>
    rw [readPages_cons hlimit]
    dsimp only
    rw [show lastGiven [] = none from rfl, hnone]
    exact ih _

lemma plainly_of_readable (hns : Legible r.ns) (h : Readable b r) :
    ∀ e ∈ ordered b r, Plainly r e := by
  rintro ⟨key, q⟩ he
  obtain ⟨i, hi, rfl, hbytes, hcovers⟩ := mem_ordered.1 he
  exact ⟨i.key, encoded_eq hbytes, (h _ hi hbytes hcovers (.inl hns)).2⟩

lemma readsAll_of_readable (h : Readable b r) : ReadsAll b r := by
  by_cases hns : Legible r.ns
  · have hplain := plainly_of_readable hns h
    refine ⟨(ordered b r).map row, pairwise_map.2 ?_, fun k q => ?_, fun pages sizes hsizes => ?_⟩
    · refine (ordered_sorted b r).imp_of_mem fun {e e'} he he' hlt => ?_
      unfold Before at hlt
      rw [(hplain e he).key_eq.1, (hplain e' he').key_eq.1, identityKey_lt_iff, identityKey_lt_iff] at hlt
      exact hlt
    · rw [List.mem_map]
      constructor
      · rintro ⟨⟨key, q'⟩, he, hrow⟩
        obtain ⟨i, hi, rfl, hbytes, hcovers⟩ := mem_ordered.1 he
        obtain ⟨hlegible, hkey⟩ := h _ hi hbytes hcovers (.inl hns)
        have hkey' : (row (encoded i, q')).1 = i.key := by
          show (decodeIdentity (encoded i)).key = i.key
          rw [decodeIdentity_encoded]
          exact decodeText_utf8_iff.2 hkey
        obtain ⟨hk, rfl⟩ := Prod.mk.inj hrow
        obtain rfl : i.key = k := hkey'.symm.trans hk
        rw [← hlegible.eq_of_utf8 hns hbytes]
        exact ⟨hi, hcovers⟩
      · rintro ⟨hmem, hcovers⟩
        refine ⟨(identityKey r.ns k, q), mem_ordered.2 ⟨⟨r.ns, k⟩, hmem, rfl, rfl, hcovers⟩, ?_⟩
        have hkey := (h _ hmem rfl hcovers (.inr rfl)).2
        refine Prod.ext ?_ rfl
        show (decodeIdentity (encoded ⟨r.ns, k⟩)).key = k
        rw [decodeIdentity_encoded]
        exact decodeText_utf8_iff.2 hkey
    · have hread := readPages_eq hns hplain hsizes 0 b (.refl b r 0)
      rw [Nat.zero_add, take_zero, map_nil, map_take] at hread
      exact hread
  · refine ⟨[], List.Pairwise.nil, fun k q => ?_, fun pages sizes hsizes => ?_⟩
    · refine iff_of_false not_mem_nil fun ⟨hmem, hcovers⟩ => hns ?_
      exact (h _ hmem rfl hcovers (.inr rfl)).1
    · rw [take_nil]
      exact readPages_of_not_legible hns hsizes b

lemma Bindings.erase_nil (b : Bindings) : b.erase [] = b := by
  obtain ⟨entries, hkeys, hseqs⟩ := b
  simp [Bindings.erase]

def plainPage (n : ℕ) : Page := { limit := some (.ofNat n) }

section

variable {b : Bindings} {r : NameRange}

lemma readPages_plain (hn : pageLimit (plainPage n).limit = .ok n) (ps : List Page)
    (given : List (Utf16 × Seq)) : readPages r (plainPage n :: ps) b given =
      readPages r ps b (given ++ rows b.index (r.page (lastGiven given) n)) := by
  rw [readPages_cons hn]
  rw [show (plainPage n).gone = fun _ => false from rfl, filter_false, map_nil, Bindings.erase_nil]

lemma readPages_singles (hns : Legible r.ns) (ps : List Page) (j : ℕ) :
    ∀ m, (∀ e ∈ (ordered b r).take (m + j), Plainly r e) →
      readPages r (List.replicate j (plainPage 1) ++ ps) b (((ordered b r).take m).map row) =
        readPages r ps b (((ordered b r).take (m + j)).map row) := by
  induction j with
  | zero => exact fun _ _ => rfl
  | succ j ih =>
    intro m hplain
    rw [← Nat.add_assoc, Nat.add_right_comm] at hplain ⊢
    have hnext : ∀ e ∈ (ordered b r).take (m + 1), Plainly r e := fun e he =>
      hplain e (take_subset_take_left _ (by omega) he)
    have hfirst : ∀ e ∈ (ordered b r).take m, Plainly r e := fun e he =>
      hnext e (by rw [take_add]; exact mem_append_left _ he)
    rw [replicate_succ, cons_append, readPages_plain (by decide +kernel),
      rows_next hns hfirst (.refl b r m) (by omega) (lastGiven_ne hnext)]
    exact ih (m + 1) hplain

/-- After unchanged names the next one is read too, on a page of its own or with the one before. -/
theorem exists_pages (hns : Legible r.ns) {m : ℕ} (hm : m < (ordered b r).length)
    (hplain : ∀ e ∈ (ordered b r).take m, Plainly r e) :
    ∃ pages sizes, List.Forall₂ (fun p n => pageLimit p.limit = .ok n) pages sizes ∧
      readPages r pages b [] = .ok (((ordered b r).take (m + 1)).map row) := by
  have hone : ∀ j, List.Forall₂ (fun p n => pageLimit (p : Page).limit = .ok n)
      (List.replicate j (plainPage 1)) (List.replicate j 1) := by
    intro j
    induction j with
    | zero => exact .nil
    | succ j ih => exact .cons (by decide +kernel) ih
  by_cases hlast : lastGiven (((ordered b r).take m).map row) = some (row (ordered b r)[m]).1
  · obtain ⟨first, y, hlist, hy⟩ := mem_lastGiven hlast
    obtain ⟨m', rfl⟩ : ∃ m', m = m' + 1 := by
      refine Nat.exists_eq_succ_of_ne_zero fun hzero => ?_
      rw [hzero, take_zero] at hlist
      exact append_ne_nil_of_right_ne_nil _ (cons_ne_nil _ _) hlist.symm
    have hfirst : ∀ e ∈ (ordered b r).take m', Plainly r e := fun e he =>
      hplain e (by rw [take_add]; exact mem_append_left _ he)
    obtain rfl : (ordered b r)[m'] = y := by
      rw [← take_append_getElem (by omega)] at hlist
      exact (append_inj_right' hlist rfl |> List.cons.inj).1
    refine ⟨List.replicate m' (plainPage 1) ++ [plainPage 2], List.replicate m' 1 ++ [2],
      rel_append (hone m') (.cons (by decide +kernel) .nil), ?_⟩
    have hread := readPages_singles (b := b) hns [plainPage 2] m' 0 (by rwa [Nat.zero_add])
    rw [take_zero, map_nil, Nat.zero_add] at hread
    rw [hread, readPages_plain (by decide +kernel), rows_next hns hfirst (.refl b r m') (by omega)]
    · rfl
    · have hown := lastGiven_ne hplain
      rw [drop_eq_getElem_cons (by omega), take_succ_cons] at hown
      rw [drop_eq_getElem_cons (by omega), drop_eq_getElem_cons hm, take_succ_cons,
        take_succ_cons, take_zero]
      intro e he
      rcases mem_cons.1 he with rfl | he
      · exact hown _ mem_cons_self
      · rw [mem_singleton.1 he, ← hy]
        exact hown _ mem_cons_self
  · refine ⟨List.replicate m (plainPage 1) ++ [plainPage 1], List.replicate m 1 ++ [1],
      rel_append (hone m) (.cons (by decide +kernel) .nil), ?_⟩
    have hread := readPages_singles (b := b) hns [plainPage 1] m 0 (by rwa [Nat.zero_add])
    rw [take_zero, map_nil, Nat.zero_add] at hread
    rw [hread, readPages_plain (by decide +kernel), rows_next hns hplain (.refl b r m) (by omega)]
    · rfl
    · intro e he
      rw [drop_eq_getElem_cons hm, take_succ_cons, take_zero] at he
      rwa [mem_singleton.1 he]

end

lemma Bindings.eq_of_seq {i i' : ObjectIdentity} (h : (i, q) ∈ b.entries)
    (h' : (i', q) ∈ b.entries) : i = i' :=
  congrArg Prod.fst (inj_on_of_nodup_map b.seqs h h' rfl)

lemma readable_of_readsAll (h : ReadsAll b r) : Readable b r := by
  obtain ⟨l, -, hmem, hread⟩ := h
  by_cases hns : Legible r.ns
  · have hgiven : ∀ m, ∀ e ∈ (ordered b r).take m, (⟨r.ns, (row e).1⟩, e.2) ∈ b.entries ∧ Plainly r e := by
      intro m
      induction m with
      | zero => simp
      | succ m ih =>
        rcases Nat.lt_or_ge m (ordered b r).length with hm | hm
        · obtain ⟨pages, sizes, hsizes, hpages⟩ := exists_pages hns hm fun e he => (ih e he).2
          have hl := Except.ok.inj (hpages.symm.trans (hread pages sizes hsizes))
          rw [← take_append_getElem hm] at hl ⊢
          intro e he
          rcases mem_append.1 he with he | he
          · exact ih e he
          · rw [← mem_singleton.1 he] at hl
            obtain ⟨i, hi, hkey, -, -⟩ : ∃ i, (i, e.2) ∈ b.entries ∧ encoded i = e.1 ∧
                utf8 i.ns = utf8 r.ns ∧ r.Covers i.key := by
              rw [← mem_ordered, mem_singleton.1 he]
              exact getElem_mem hm
            have hin : ((row e).1, e.2) ∈ l := by
              refine mem_of_mem_take (i := sizes.sum) ?_
              rw [← hl]
              simp [row]
            obtain ⟨hentry, -⟩ := (hmem _ _).1 hin
            obtain rfl := Bindings.eq_of_seq hi hentry
            refine ⟨hentry, (row e).1, hkey.symm, decodeText_utf8_iff.1 ?_⟩
            have hdecoded : row e = (decodeText (utf8 (row e).1), e.2) := by
              show ((decodeIdentity e.1).key, e.2) = _
              conv_lhs => rw [← hkey, decodeIdentity_encoded]
            exact (congrArg Prod.fst hdecoded).symm
        · rw [take_of_length_le (by omega)]
          rwa [take_of_length_le hm] at ih
    intro e he hbytes hcovers _
    have hin : (encoded e.1, e.2) ∈ (ordered b r).take (ordered b r).length := by
      rw [take_length]
      exact mem_ordered.2 ⟨e.1, he, rfl, hbytes, hcovers⟩
    obtain ⟨hentry, hplain⟩ := hgiven _ _ hin
    rw [Bindings.eq_of_seq he hentry]
    exact ⟨hns, hplain.key_eq.2⟩
  · intro e he hbytes hcovers hor
    have hown := hor.resolve_left hns
    have hin : (e.1.key, e.2) ∈ l := (hmem _ _).2 ⟨by rw [← hown]; exact he, hcovers⟩
    have hsizes : List.Forall₂ (fun p n => pageLimit (p : Page).limit = .ok n)
        (List.replicate l.length (plainPage 1)) (List.replicate l.length 1) := by
      induction l.length with
      | zero => exact .nil
      | succ j ih => exact .cons (by decide +kernel) ih
    have hl := Except.ok.inj ((readPages_of_not_legible hns hsizes b).symm.trans (hread _ _ hsizes))
    rw [sum_replicate_nat, Nat.mul_one, take_length] at hl
    rw [← hl] at hin
    cases hin

/-- The pages of a scan are the names in range, each once and in the order of their bytes, whatever
limits the pages have and whichever of the names given are deleted in between, exactly where no name in
range is changed by its encoding. -/
theorem identityPages_iff (b : Bindings) (r : NameRange) : ReadsAll b r ↔ Readable b r :=
  ⟨readable_of_readsAll, readsAll_of_readable⟩

/-- One name that begins with a byte order mark is given under another key. -/
theorem not_identityPages : ¬∀ b r, ReadsAll b r := by
  intro h
  let b : Bindings := ⟨[(⟨utf16 "a", utf16 "\uFEFFa"⟩, 0)], by decide, by decide⟩
  obtain ⟨l, -, hmem, hread⟩ := h b { ns := utf16 "a" }
  have hl := hread [{}] [100] (.cons rfl .nil)
  have hpage : readPages { ns := utf16 "a" } [{}] b [] = .ok [(utf16 "a", 0)] := by decide +kernel
  rw [hpage] at hl
  have hin : (utf16 "a", 0) ∈ l := List.mem_of_mem_take (Except.ok.inj hl ▸ List.mem_singleton_self _)
  exact absurd ((hmem _ _).1 hin).1 (by decide)

end Zelavis.Db.IdentityPages
