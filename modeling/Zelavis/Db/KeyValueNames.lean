import Zelavis.Db.KeyValueBatches

/-!
# The names of a namespace in order
-/

namespace Zelavis.Db

open Lib List

/-! ## The order of a scan -/

def Precedes (desc : Bool) (a b : Utf16) : Prop :=
  if desc = true then utf8 b < utf8 a else utf8 a < utf8 b

variable {desc : Bool}

lemma Precedes.trans {a b c : Utf16} (h : Precedes desc a b)
    (h' : Precedes desc b c) : Precedes desc a c := by
  unfold Precedes at h h' ⊢
  split_ifs at h h' ⊢
  · exact h'.trans h
  · exact h.trans h'

lemma Precedes.irrefl {a : Utf16} : ¬Precedes desc a a := by
  unfold Precedes
  split_ifs
  · exact lt_irrefl _
  · exact lt_irrefl _

lemma eq_of_precedes {α : Type} (key : α → Utf16) {l l' : List α}
    (h : l.Pairwise fun a b => Precedes desc (key a) (key b))
    (h' : l'.Pairwise fun a b => Precedes desc (key a) (key b)) (hmem : ∀ a, a ∈ l ↔ a ∈ l') : l = l' := by
  have hnodup : ∀ {l : List α}, l.Pairwise (fun a b => Precedes desc (key a) (key b)) → l.Nodup := by
    intro l hl
    refine List.Pairwise.imp ?_ hl
    rintro a b hab rfl
    exact Precedes.irrefl hab
  refine List.Perm.eq_of_pairwise ?_ h h' ((perm_ext_iff_of_nodup (hnodup h) (hnodup h')).2 hmem)
  intro a b _ _ hab hba
  exact absurd (hab.trans hba) Precedes.irrefl

lemma pairwise_reverse_precedes {α : Type} (key : α → Utf16) {l : List α}
    (h : l.Pairwise fun a b => utf8 (key a) < utf8 (key b)) (desc : Bool) :
    (if desc = true then l.reverse else l).Pairwise fun a b => Precedes desc (key a) (key b) := by
  unfold Precedes
  split_ifs
  · exact pairwise_reverse.2 h
  · exact h

/-! ## Identities -/

variable {ns k k' : Utf16}

lemma identityKey_lt_iff : identityKey ns k < identityKey ns k' ↔ utf8 k < utf8 k' := by
  unfold identityKey
  rw [cons_lt_cons_left_iff, append_lt_append_left_iff, writeString_lt_iff, utf8_lt_iff]

lemma identityKey_le_iff : identityKey ns k ≤ identityKey ns k' ↔ utf8 k ≤ utf8 k' := by
  rw [← not_lt, identityKey_lt_iff, not_lt]

lemma identityNamePrefix_iff {ns p k : Utf16} :
    identityNamePrefix ns p <+: identityKey ns k ↔ utf8 p <+: utf8 k := by
  unfold identityNamePrefix identityKey
  rw [prefix_cons_inj, prefix_append_right_inj]
  have h := writeEscapedPrefix_prefix_iff (utf8 p) (utf8 k) []
  rw [append_nil] at h
  exact h

lemma identityPrefix_isPrefix (ns k : Utf16) : identityPrefix ns <+: identityKey ns k :=
  prefix_append (identityPrefix ns) (writeString k)

variable {key : Key}

lemma identityPrefix_of_namePrefix {ns p : Utf16}
    (h : identityNamePrefix ns p <+: key) : identityPrefix ns <+: key :=
  (prefix_append (identityPrefix ns) _).trans h

lemma decodeIdentity_identityKey {ns k : Utf16} (hns : Plain ns) (hk : Legible k) :
    decodeIdentity (identityKey ns k) = ⟨ns, k⟩ := by
  have hkey := hk.readString []
  rw [append_nil] at hkey
  unfold decodeIdentity identityKey
  rw [drop_one, tail_cons, hns.readString]
  dsimp only
  rw [hkey]

/-- Whether a key is in the range of a scan of names; an ascending one begins at the key it goes on
from. -/
def IdentityScan.Covers (input : IdentityScan) (k : Utf16) : Prop :=
  (∀ p ∈ input.pre, utf8 p <+: utf8 k) ∧ (∀ l ∈ input.lower, utf8 l ≤ utf8 k) ∧
    (∀ u ∈ input.upper, utf8 k < utf8 u) ∧
    ∀ a ∈ input.after, if input.desc = true then utf8 k < utf8 a else utf8 a ≤ utf8 k

lemma start_iff {lower after : Option Key} :
    (∀ l ∈ after.elim lower fun a => some (lower.elim a fun l => if 0 < compareKeys a l then a else l),
      l ≤ key) ↔ (∀ l ∈ lower, l ≤ key) ∧ ∀ a ∈ after, a ≤ key := by
  cases after with
  | none => simp
  | some a =>
    cases lower with
    | none => simp
    | some l =>
      simp only [Option.elim_some, Option.mem_def, Option.some.injEq, forall_eq', compareKeys_pos_iff]
      split_ifs with h
      · exact ⟨fun ha => ⟨h.le.trans ha, ha⟩, And.right⟩
      · exact ⟨fun hl => ⟨hl, (not_lt.1 h).trans hl⟩, And.left⟩

lemma stop_iff {upper after : Option Key} :
    (∀ u ∈ after.elim upper fun a => some (upper.elim a fun u => if compareKeys a u < 0 then a else u),
      key < u) ↔ (∀ u ∈ upper, key < u) ∧ ∀ a ∈ after, key < a := by
  cases after with
  | none => simp
  | some a =>
    cases upper with
    | none => simp
    | some u =>
      simp only [Option.elim_some, Option.mem_def, Option.some.injEq, forall_eq', compareKeys_neg_iff]
      split_ifs with h
      · exact ⟨fun ha => ⟨ha.trans h, ha⟩, And.right⟩
      · exact ⟨fun hu => ⟨hu, hu.trans_le (not_lt.1 h)⟩, And.left⟩

lemma scanRange_iff {pre key : Key} {lower upper : Option Key} :
    (scanRange pre lower upper).1 ≤ key ∧ (∀ h ∈ (scanRange pre lower upper).2, key < h) ↔
      pre <+: key ∧ (∀ l ∈ lower, l ≤ key) ∧ ∀ u ∈ upper, key < u := by
  rw [le_scanRange_iff, show (scanRange pre lower upper).2 = lowerEnd upper (prefixEnd pre) from rfl,
    lt_lowerEnd_iff, ← prefixEnd_range]
  tauto

lemma range_iff_covers (input : IdentityScan) (k : Utf16) :
    input.range.1 ≤ identityKey input.ns k ∧ (∀ h ∈ input.range.2, identityKey input.ns k < h) ↔
      input.Covers k := by
  have hpre : (input.pre.elim (identityPrefix input.ns) (identityNamePrefix input.ns)) <+:
      identityKey input.ns k ↔ ∀ p ∈ input.pre, utf8 p <+: utf8 k := by
    cases input.pre with
    | none => simp [identityPrefix_isPrefix]
    | some p => simp [identityNamePrefix_iff]
  have hlower : (∀ l ∈ input.lower.map (identityKey input.ns), l ≤ identityKey input.ns k) ↔
      ∀ l ∈ input.lower, utf8 l ≤ utf8 k := by
    cases input.lower <;> simp [identityKey_le_iff]
  have hupper : (∀ u ∈ input.upper.map (identityKey input.ns), identityKey input.ns k < u) ↔
      ∀ u ∈ input.upper, utf8 k < utf8 u := by
    cases input.upper <;> simp [identityKey_lt_iff]
  unfold IdentityScan.range IdentityScan.Covers
  rw [scanRange_iff, hpre]
  cases input.desc with
  | true =>
    simp only [if_true, stop_iff, hlower, hupper]
    cases input.after <;> simp [identityKey_lt_iff]
  | false =>
    simp only [Bool.false_eq_true, if_false, start_iff, hlower, hupper]
    cases input.after <;> simp [identityKey_le_iff] <;> tauto

/-! ## The names a scan reads -/

def IdentityScan.names (input : IdentityScan) (o : Objects Record) : List Utf16 :=
  let entries := (identityIndex o).between input.range.1 input.range.2
  (((if input.desc then entries.reverse else entries).map fun e => decodeIdentity e.1).filter
    fun i => i.ns = input.ns && input.after ≠ some i.key).map ObjectIdentity.key

lemma take_filter_ne {α β : Type} [DecidableEq β] (f : α → β) {l : List α} (hl : (l.map f).Nodup)
    (a : β) (n : ℕ) :
    ((l.take (n + 1)).filter fun x => f x ≠ a).take n = (l.filter fun x => f x ≠ a).take n := by
  induction l generalizing n with
  | nil => simp
  | cons x l ih =>
    rw [map_cons, nodup_cons] at hl
    rw [take_succ_cons]
    by_cases hx : f x = a
    · have hall : ∀ y ∈ l, decide (f y ≠ a) = true := by
        intro y hy
        rw [decide_eq_true_eq]
        rintro rfl
        exact hl.1 (hx ▸ List.mem_map_of_mem hy)
      rw [filter_cons_of_neg (by simpa using hx), filter_cons_of_neg (by simpa using hx),
        filter_eq_self.2 hall, filter_eq_self.2 fun y hy => hall y (mem_of_mem_take hy),
        take_take, Nat.min_self]
    · rw [filter_cons_of_pos (by simpa using hx), filter_cons_of_pos (by simpa using hx)]
      cases n with
      | zero => rfl
      | succ n => rw [take_succ_cons, take_succ_cons, ih hl.2]

section

variable {t : TenantId} {o : Objects Record} {name : Utf16} {input : IdentityScan}

lemma name_of_mem (ho : Kept o) (ht : TenantOk t) (hns : Plain (documentNs t name))
    (hin : input.ns = documentNs t name) {e : Key × Seq}
    (he : e ∈ (identityIndex o).between input.range.1 input.range.2) :
    ∃ k, e.1 = identityKey input.ns k ∧ (∃ d, findById t o name k = some d) ∧ input.Covers k := by
  obtain ⟨key, q⟩ := e
  obtain ⟨hget, hrange⟩ := OrderedMap.mem_between.1 he
  obtain ⟨⟨q', held⟩, hmem, hmap⟩ := mem_filterMap.1 (OrderedMap.mem_of_get_ofList hget)
  obtain ⟨i, hidentity, heq⟩ := Option.map_eq_some_iff.1 hmap
  obtain ⟨rfl, rfl⟩ := Prod.mk.inj heq
  have hprefix : identityPrefix input.ns <+: identityKey i.ns i.key := by
    have hpre := (scanRange_iff.1 hrange).1
    cases hp : input.pre with
    | none => rwa [hp] at hpre
    | some p =>
      rw [hp] at hpre
      exact identityPrefix_of_namePrefix hpre
  have hns' : input.ns = i.ns := by
    unfold identityPrefix identityKey at hprefix
    rw [prefix_cons_inj] at hprefix
    have hword := stringCode_prefixCode.eq_of_isPrefix (Set.mem_range_self input.ns)
      (Set.mem_range_self i.ns) hprefix
    exact (hin ▸ hns).eq_of_utf8 (writeString_inj.1 hword)
  have hid : held.identity = some ⟨documentNs t name, i.key⟩ := by
    rw [show held.identity = some i from hidentity, ← hin, hns']
  obtain ⟨d, hd, hc, hkey⟩ := ho.document_of_identity ht (OrderedMap.mem_entries.1 hmem) hid
  refine ⟨i.key, by rw [hns'], ⟨d, (findById_eq_some ho ht).2 ⟨_, hd, hc, hkey⟩⟩, ?_⟩
  rw [← hns'] at hrange
  exact (range_iff_covers input i.key).1 hrange

lemma mem_of_name (ho : Kept o) (ht : TenantOk t) (hin : input.ns = documentNs t name) {k : Utf16}
    {d : Document} (hd : findById t o name k = some d) (hcovers : input.Covers k) :
    ∃ q, (identityKey input.ns k, q) ∈ (identityIndex o).between input.range.1 input.range.2 := by
  obtain ⟨q, hdoc, hc, hid⟩ := (findById_eq_some ho ht).1 hd
  obtain ⟨held, hheld, -, hidentity⟩ := docAt_eq_some.1 hdoc
  obtain ⟨q', hq'⟩ : ∃ q', (identityIndex o).get (identityKey input.ns k) = some q' := by
    refine OrderedMap.get_ofList_of_mem (v := q) (mem_filterMap.2
      ⟨(q, held), OrderedMap.mem_entries.2 hheld, ?_⟩)
    rw [hidentity, hin, hc, hid]
    rfl
  exact ⟨q', OrderedMap.mem_between.2 ⟨hq', (range_iff_covers input k).2 hcovers⟩⟩

variable (input) in
lemma names_sorted (ho : Kept o) (ht : TenantOk t) (hns : Plain (documentNs t name))
    (hplain : LegibleKeys t name o) (hin : input.ns = documentNs t name) :
    (if input.desc = true then ((identityIndex o).between input.range.1 input.range.2).reverse
      else (identityIndex o).between input.range.1 input.range.2).Pairwise fun a b =>
        Precedes input.desc (decodeIdentity a.1).key (decodeIdentity b.1).key := by
  refine pairwise_reverse_precedes (fun e : Key × Seq => (decodeIdentity e.1).key) ?_ _
  refine ((identityIndex o).between_sorted _ _).imp_of_mem fun {a b} ha hb hlt => ?_
  obtain ⟨k, hk, ⟨d, hd⟩, -⟩ := name_of_mem ho ht hns hin ha
  obtain ⟨k', hk', ⟨d', hd'⟩, -⟩ := name_of_mem ho ht hns hin hb
  rw [hk, hk'] at hlt
  rw [hk, hk', decodeIdentity_identityKey (hin ▸ hns) (hplain k d hd),
    decodeIdentity_identityKey (hin ▸ hns) (hplain k' d' hd')]
  exact identityKey_lt_iff.1 hlt

lemma decode_of_mem (ho : Kept o) (ht : TenantOk t) (hns : Plain (documentNs t name))
    (hplain : LegibleKeys t name o) (hin : input.ns = documentNs t name) {e : Key × Seq}
    (he : e ∈ if input.desc = true then ((identityIndex o).between input.range.1 input.range.2).reverse
      else (identityIndex o).between input.range.1 input.range.2) :
    ∃ k, decodeIdentity e.1 = ⟨input.ns, k⟩ ∧ (∃ d, findById t o name k = some d) ∧ input.Covers k := by
  have hmem : e ∈ (identityIndex o).between input.range.1 input.range.2 := by
    split_ifs at he
    · exact mem_reverse.1 he
    · exact he
  obtain ⟨k, hk, ⟨d, hd⟩, hcovers⟩ := name_of_mem ho ht hns hin hmem
  exact ⟨k, by rw [hk, decodeIdentity_identityKey (hin ▸ hns) (hplain k d hd)], ⟨d, hd⟩, hcovers⟩

lemma mem_names (ho : Kept o) (ht : TenantOk t) (hns : Plain (documentNs t name))
    (hplain : LegibleKeys t name o) (hin : input.ns = documentNs t name) {k : Utf16} : k ∈ input.names o ↔
      (∃ d, findById t o name k = some d) ∧ input.Covers k ∧ input.after ≠ some k := by
  unfold IdentityScan.names
  rw [List.mem_map]
  constructor
  · rintro ⟨i, hi, rfl⟩
    obtain ⟨hi, hafter⟩ := mem_filter.1 hi
    obtain ⟨e, he, rfl⟩ := List.mem_map.1 hi
    obtain ⟨k, hk, hd, hcovers⟩ := decode_of_mem ho ht hns hplain hin he
    rw [hk] at hafter ⊢
    exact ⟨hd, hcovers, by simpa using hafter⟩
  · rintro ⟨⟨d, hd⟩, hcovers, hafter⟩
    obtain ⟨q, hq⟩ := mem_of_name ho ht hin hd hcovers
    refine ⟨⟨input.ns, k⟩, mem_filter.2 ⟨List.mem_map.2 ⟨(identityKey input.ns k, q), ?_, ?_⟩, ?_⟩, rfl⟩
    · split_ifs
      · exact mem_reverse.2 hq
      · exact hq
    · exact decodeIdentity_identityKey (hin ▸ hns) (hplain k d hd)
    · simpa using hafter

variable (input) in
lemma names_pairwise (ho : Kept o) (ht : TenantOk t) (hns : Plain (documentNs t name))
    (hplain : LegibleKeys t name o) (hin : input.ns = documentNs t name) :
    (input.names o).Pairwise (Precedes input.desc) := by
  unfold IdentityScan.names
  dsimp only
  refine pairwise_map.2 (List.Pairwise.filter _ (pairwise_map.2 ?_))
  exact names_sorted input ho ht hns hplain hin

lemma map_filter_identities {ns : Utf16} (after : Option Utf16) {l : List (Key × Seq)}
    (hl : ∀ e ∈ l, (decodeIdentity e.1).ns = ns) : ((l.map fun e => decodeIdentity e.1).filter fun i =>
        i.ns = ns && after ≠ some i.key).map ObjectIdentity.key =
      (l.map fun e => (decodeIdentity e.1).key).filter (fun k => after ≠ some k) ∧
    ((l.map fun e => (decodeIdentity e.1, e.2)).filter fun e =>
        e.1.ns = ns && after ≠ some e.1.key).map (fun e => e.1.key) =
      (l.map fun e => (decodeIdentity e.1).key).filter fun k => after ≠ some k := by
  induction l with
  | nil => exact ⟨rfl, rfl⟩
  | cons e l ih =>
    obtain ⟨ih, ih'⟩ := ih fun e he => hl e (mem_cons_of_mem _ he)
    have hns : decide ((decodeIdentity e.1).ns = ns) = true :=
      decide_eq_true (hl e mem_cons_self)
    simp only [map_cons, filter_cons, hns, Bool.true_and]
    split_ifs
    · exact ⟨by rw [map_cons, ih], by rw [map_cons, ih']⟩
    · exact ⟨ih, ih'⟩

lemma map_scanIdentities (ho : Kept o) (ht : TenantOk t) (hns : Plain (documentNs t name))
    (hplain : LegibleKeys t name o) (hin : input.ns = documentNs t name) (hlimit : input.limit ≤ 1000) :
    (scanIdentities o input).map Prod.fst = (input.names o).take input.limit := by
  have hsorted := names_sorted input ho ht hns hplain hin
  have hmem : ∀ e, e ∈ (if input.desc = true then
      ((identityIndex o).between input.range.1 input.range.2).reverse
      else (identityIndex o).between input.range.1 input.range.2) →
      (decodeIdentity e.1).ns = input.ns := by
    intro e he
    obtain ⟨k, hk, -⟩ := decode_of_mem ho ht hns hplain hin he
    rw [hk]
  unfold scanIdentities IdentityScan.names
  dsimp only
  generalize (if input.desc = true then
    ((identityIndex o).between input.range.1 input.range.2).reverse
    else (identityIndex o).between input.range.1 input.range.2) = l at hsorted hmem ⊢
  have hnodup : (l.map fun e => (decodeIdentity e.1).key).Nodup := by
    refine List.Pairwise.map _ ?_ hsorted
    intro a b hab heq
    rw [heq] at hab
    exact Precedes.irrefl hab
  rw [List.map_map, (map_filter_identities input.after hmem).1, map_take]
  show List.take input.limit (List.map (fun e : ObjectIdentity × Seq => e.1.key) _) = _
  rw [(map_filter_identities input.after fun e he => hmem e (mem_of_mem_take he)).2, map_take]
  cases input.after with
  | none =>
    have hle : min 1001 (input.limit + if (none : Option Utf16).isSome = true then 1 else 0) =
        input.limit := by
      simp only [Option.isSome_none, Bool.false_eq_true, if_false]
      omega
    rw [hle]
    simp
  | some a =>
    have hle : min 1001 (input.limit + if (some a).isSome = true then 1 else 0) = input.limit + 1 := by
      simp only [Option.isSome_some, if_true]
      omega
    rw [hle]
    have htake := take_filter_ne id (l := l.map fun e => (decodeIdentity e.1).key)
      (by rw [List.map_id]; exact hnodup) a input.limit
    simp only [ne_eq, Option.some.injEq, id_eq] at htake ⊢
    simp only [eq_comm (a := a)]
    exact htake

end

/-! ## The entries of a map in the order of a scan -/

variable {options : KeyValueScanOptions} {after : Option Utf16}
  {visits : Utf16 → ℤ} {e : KeyValueEntry} {m : KeyValueMap} {D : Dates}

namespace KeyValueMap

def aliveIn (D : Dates) (visits : Utf16 → ℤ) (options : KeyValueScanOptions) (after : Option Utf16)
    (m : KeyValueMap) : List KeyValueEntry :=
  if options.desc = true then
    Paging.alive downKey (lively D visits) (after.map fun k => OrderDual.toDual (utf8 k))
      (inRange options m).reverse
  else Paging.alive upKey (lively D visits) (after.map utf8) (inRange options m)

lemma pageOf_eq (D : Dates) (visits : Utf16 → ℤ) (options : KeyValueScanOptions) (limit : ℕ)
    (after : Option Utf16) (m : KeyValueMap) : pageOf D visits options limit after m =
      ((aliveIn D visits options after m).take limit,
        if limit < (aliveIn D visits options after m).length then
          ((aliveIn D visits options after m).take limit).getLast? else none) := by
  unfold pageOf aliveIn
  cases options.desc with
  | true | false => rfl

lemma mem_aliveIn (hm : m.Keyed) :
    e ∈ aliveIn D visits options after m ↔ m.get (utf8 e.key) = some e ∧ covers options e = true ∧
      (∀ a ∈ after, Precedes options.desc a e.key) ∧ isExpired D (visits e.key) e.expiresAt = false := by
  have hlively : lively D visits e = true ↔ isExpired D (visits e.key) e.expiresAt = false := by
    unfold lively
    rw [Bool.not_eq_true']
  unfold aliveIn Precedes
  split_ifs with hdesc
  · rw [Paging.mem_alive, mem_reverse, mem_inRange hm, hlively, and_assoc]
    cases after with
    | none => simp
    | some a => simp [downKey]
  · rw [Paging.mem_alive, mem_inRange hm, hlively, and_assoc]
    cases after with
    | none => simp
    | some a => simp [upKey]

lemma aliveIn_pairwise (hm : m.Keyed) :
    (aliveIn D visits options after m).Pairwise fun a b => Precedes options.desc a.key b.key := by
  unfold aliveIn Precedes
  split_ifs with hdesc
  · exact Paging.alive_sorted (inRange_reverse_sorted hm options)
  · exact Paging.alive_sorted (inRange_sorted hm options)

end KeyValueMap

def KeyValueScanOptions.identities (options : KeyValueScanOptions) (ns : Utf16)
    (after : Option Utf16) (limit : ℕ) : IdentityScan where
  ns := ns
  pre := options.pre
  lower := options.lower
  upper := options.upper
  after := after
  desc := options.desc
  limit := limit

lemma covers_identities {ns : Utf16} {limit : ℕ} (hplain : Legible e.key) (hfrom : ∀ a ∈ after, Legible a) :
    (options.identities ns after limit).Covers e.key ∧ after ≠ some e.key ↔
      KeyValueMap.covers options e = true ∧ ∀ a ∈ after, Precedes options.desc a e.key := by
  have hbounds : KeyValueMap.covers options e = true ↔ (∀ p ∈ options.pre, utf8 p <+: utf8 e.key) ∧
      (∀ l ∈ options.lower, utf8 l ≤ utf8 e.key) ∧ ∀ u ∈ options.upper, utf8 e.key < utf8 u := by
    unfold KeyValueMap.covers
    rw [Bool.and_eq_true, Bool.and_eq_true, and_assoc]
    refine and_congr ?_ (and_congr ?_ ?_)
    · cases options.pre <;> simp
    · cases options.lower <;> simp
    · cases options.upper <;> simp
  have hafter : ∀ a, Legible a → ((if options.desc = true then utf8 e.key < utf8 a else utf8 a ≤ utf8 e.key) ∧
      a ≠ e.key ↔ Precedes options.desc a e.key) := by
    intro a ha
    unfold Precedes
    split_ifs
    · exact ⟨And.left, fun h => ⟨h, fun heq => lt_irrefl _ (heq ▸ h)⟩⟩
    · constructor
      · rintro ⟨hle, hne⟩
        exact lt_of_le_of_ne hle fun hbytes => hne (ha.eq_of_utf8 hplain hbytes)
      · exact fun h => ⟨h.le, fun heq => lt_irrefl _ (heq ▸ h)⟩
  rw [hbounds]
  unfold IdentityScan.Covers KeyValueScanOptions.identities
  cases after with
  | none => simp
  | some a =>
    have ha := hafter a (hfrom a rfl)
    simp only [Option.mem_def, Option.some.injEq, forall_eq', ne_eq] at ha ⊢
    tauto

end Zelavis.Db
