import Zelavis.Db.Documents

/-!
# What a store holds under its identities

A transaction names objects by identity, and an object keeps the identity it was written under.
-/

namespace Zelavis.Db

open Lib List Option

/-! ## Identities -/

variable {i : ObjectIdentity} {m : IndexManifest} {seq : Seq} {s : Seq}

namespace Objects

variable {α : Type} {c : Utf16} {c' : Utf16} {t : TenantId}

def Named (o : Objects α) : Prop :=
  ∀ i s, o.named i = some s ↔ ∃ h, o.held.get s = some h ∧ h.identity = some i

def under (o : Objects α) (i : ObjectIdentity) : Option (Held α) := (o.named i).bind o.held.get

/-- An identifier that an object may be written to under an identity: it holds that identity or
nothing, and nothing else holds it. -/
def Takes (o : Objects α) (seq : Seq) (i : ObjectIdentity) : Prop :=
  (∀ h, o.held.get seq = some h → h.identity = some i) ∧
    ∀ q h, o.held.get q = some h → h.identity = some i → q = seq

variable {o : Objects α}

lemma empty_named : (empty : Objects α).Named := by
  intro i s
  simp [empty]

variable {h : Held α}

section

variable (ho : o.Named)
include ho

lemma Named.identity (hs : o.named i = some s) (hheld : o.held.get s = some h) :
    h.identity = some i := by
  obtain ⟨h', hh', hid⟩ := (ho i s).1 hs
  rw [hheld] at hh'
  cases hh'
  exact hid

lemma Named.inj {j : ObjectIdentity} (hi : o.named i = some s) (hj : o.named j = some s) : i = j := by
  obtain ⟨h, hheld, hid⟩ := (ho i s).1 hi
  exact some.inj (hid.symm.trans (ho.identity hj hheld))

lemma Named.identity_of_under (hi : o.under i = some h) : h.identity = some i := by
  obtain ⟨s, hs, hheld⟩ := bind_eq_some_iff.1 hi
  exact ho.identity hs hheld

lemma Named.under_of_held
    (hs : o.held.get s = some h) (hi : h.identity = some i) : o.named i = some s ∧ o.under i = some h := by
  have hnamed : o.named i = some s := (ho i s).2 ⟨h, hs, hi⟩
  exact ⟨hnamed, by rw [under, hnamed, bind_some, hs]⟩

lemma Named.takes_of_named (h : o.named i = some s) : o.Takes s i := by
  constructor
  · exact fun _ hheld => ho.identity h hheld
  · intro q h'' hq hid'
    have := (ho.under_of_held hq hid').1
    rw [h] at this
    exact (some.inj this).symm

lemma Named.takes_of_fresh
    (hs : o.held.get s = none) (hi : o.named i = none) : o.Takes s i := by
  constructor
  · intro h hh
    rw [hs] at hh
    cases hh
  · intro q h hq hid
    have := (ho.under_of_held hq hid).1
    rw [hi] at this
    cases this

end

@[simp] lemma held_put (seq : Seq) (body : α) (m : IndexManifest) (i : Option ObjectIdentity) :
    (o.write (.put seq body m i)).held = o.held.insert seq
      ⟨i, ((o.held.get seq).elim 0 Held.version) + 1, body, m⟩ := rfl

@[simp] lemma held_retract (seq : Seq) : (o.write (.retract seq)).held = o.held.erase seq := rfl

variable {body : α} {m : IndexManifest} {held : Held α} {q : Seq}

lemma held_of_put {i : Option ObjectIdentity} (h : (o.write (.put seq body m i)).held.get q = some held) :
    q = seq ∧ held = ⟨i, ((o.held.get seq).elim 0 Held.version) + 1, body, m⟩ ∨ o.held.get q = some held := by
  rw [held_put, OrderedMap.get_insert] at h
  split_ifs at h with hq
  · cases h
    exact Or.inl ⟨hq, rfl⟩
  · exact Or.inr h

lemma held_of_retract (h : (o.write (.retract seq)).held.get q = some held) : o.held.get q = some held := by
  rw [held_retract, OrderedMap.get_erase] at h
  split_ifs at h
  exact h

lemma free_retract (h : o.held.get q = none) : (o.write (.retract seq)).held.get q = none := by
  rw [held_retract, OrderedMap.get_erase]
  split_ifs
  · rfl
  · exact h

lemma named_put (h : o.Takes seq i) (j : ObjectIdentity) :
    (o.write (.put seq body m (some i))).named j = if j = i then some seq else o.named j := by
  show (if some i = some j then some seq else o.unnamed seq j) = _
  by_cases hj : j = i
  · subst hj
    simp
  · rw [if_neg (by simpa using Ne.symm hj), if_neg hj, unnamed, if_neg]
    intro hseq
    obtain ⟨held, hheld, hid⟩ := bind_eq_some_iff.1 hseq
    rw [h.1 held hheld] at hid
    exact hj (some.inj hid).symm

section

variable (ho : o.Named)
include ho

lemma Named.named_retract (seq : Seq) (j : ObjectIdentity) :
    (o.write (.retract seq)).named j = if o.named j = some seq then none else o.named j := by
  show o.unnamed seq j = _
  refine if_congr ?_ rfl rfl
  rw [ho, bind_eq_some_iff]

lemma Named.put (h : o.Takes seq i) : (o.write (.put seq body m (some i))).Named := by
  intro j s
  rw [named_put h, held_put, OrderedMap.get_insert]
  by_cases hs : s = seq
  · subst hs
    rw [if_pos rfl]
    constructor
    · intro hj
      refine ⟨_, rfl, ?_⟩
      split_ifs at hj with hji
      · rw [hji]
      · obtain ⟨h', hh', hid⟩ := (ho j s).1 hj
        rw [h.1 h' hh'] at hid
        exact hid
    · rintro ⟨h', heq, hid⟩
      cases heq
      rw [if_pos (some.inj hid).symm]
  · rw [if_neg hs]
    split_ifs with hji
    · subst hji
      constructor
      · intro hseq
        exact absurd (some.inj hseq).symm hs
      · rintro ⟨h', hh', hid⟩
        exact absurd (h.2 s h' hh' hid) hs
    · exact ho j s

lemma Named.retract (seq : Seq) : (o.write (.retract seq)).Named := by
  intro j s
  rw [ho.named_retract, held_retract, OrderedMap.get_erase]
  by_cases hs : s = seq
  · subst hs
    rw [if_pos rfl]
    constructor
    · intro hj
      split_ifs at hj with hjs
      exact absurd hj hjs
    · rintro ⟨_, hnone, -⟩
      cases hnone
  · rw [if_neg hs, ← ho]
    split_ifs with hjs
    · constructor
      · intro hnone
        cases hnone
      · intro hj
        rw [hjs] at hj
        exact absurd (some.inj hj).symm hs
    · exact Iff.rfl

lemma Named.named_put_of_named
    {i j : ObjectIdentity} {q : Seq} (h : o.Takes seq i) (hj : o.named j = some q) :
    (o.write (.put seq body m (some i))).named j = some q := by
  rw [named_put h]
  split_ifs with hji
  · subst hji
    obtain ⟨held, hheld, hid⟩ := (ho j q).1 hj
    rw [h.2 q held hheld hid]
  · exact hj

lemma Named.under_put (h : o.Takes seq i) (j : ObjectIdentity) :
    (o.write (.put seq body m (some i))).under j = if j = i then
      some ⟨some i, ((o.held.get seq).elim 0 Held.version) + 1, body, m⟩ else o.under j := by
  unfold under
  rw [named_put h, held_put]
  split_ifs with hj
  · rw [bind_some, OrderedMap.get_insert, if_pos rfl]
  · cases hnamed : o.named j with
    | none => rfl
    | some s =>
      rw [bind_some, bind_some, OrderedMap.get_insert, if_neg]
      rintro rfl
      obtain ⟨h', hh', hid⟩ := (ho j s).1 hnamed
      rw [h.1 h' hh'] at hid
      exact hj (some.inj hid).symm

lemma Named.under_retract (seq : Seq) (j : ObjectIdentity) :
    (o.write (.retract seq)).under j = if o.named j = some seq then none else o.under j := by
  unfold under
  rw [ho.named_retract, held_retract]
  split_ifs with hj
  · rfl
  · cases hnamed : o.named j with
    | none => rfl
    | some s =>
      rw [bind_some, bind_some, OrderedMap.get_erase, if_neg]
      rintro rfl
      exact hj hnamed

end

@[simp] lemma commit_nil (o : Objects α) : o.commit [] = o := rfl

@[simp] lemma commit_cons (o : Objects α) (w : Write α) (ws : List (Write α)) :
    o.commit (w :: ws) = (o.write w).commit ws := rfl

lemma commit_append (o : Objects α) (ws ws' : List (Write α)) :
    o.commit (ws ++ ws') = (o.commit ws).commit ws' := foldl_append

end Objects

/-! ## Records -/

variable {n : Utf16}

lemma loadCollection_eq_some {o : Objects Record}
    {c : StoredCollection} : loadCollection t o n = some c ↔
      ∃ h, o.under ⟨collectionNs t, n⟩ = some h ∧ h.body = .collection c := by
  unfold loadCollection Objects.lookup Objects.read Objects.under
  constructor
  · intro h
    split at h
    next c' hbody =>
      obtain ⟨s, hs, hread⟩ := bind_eq_some_iff.1 hbody
      obtain ⟨held, hheld, hc⟩ := map_eq_some_iff.1 hread
      cases h
      exact ⟨held, bind_eq_some_iff.2 ⟨s, hs, hheld⟩, hc⟩
    next => cases h
  · rintro ⟨held, hunder, hc⟩
    obtain ⟨s, hs, hheld⟩ := bind_eq_some_iff.1 hunder
    rw [hs, bind_some, hheld, map_some, hc]

lemma loadCollection_congr {o o' : Objects Record}
    (h : o'.under ⟨collectionNs t, n⟩ = o.under ⟨collectionNs t, n⟩) :
    loadCollection t o' n = loadCollection t o n := by
  ext c
  rw [loadCollection_eq_some, loadCollection_eq_some, h]

/-! ## Names that never meet -/

/-- `/`. -/
def SLASH : CodeUnit := 0x2F

/-- A tenant id, as far as the namespaces go: it holds no slash, and is not the word collections
are recorded under, which is reserved. Source: `naming.ts` `isValidTenantId`. -/
def TenantOk (tenant : TenantId) : Prop := SLASH ∉ tenant ∧ tenant ≠ utf16 "zv.collection"

variable {u : CodeUnit}

lemma append_cons_inj {l l' r r' : Utf16} (hl : u ∉ l) (hl' : u ∉ l')
    (h : l ++ u :: r = l' ++ u :: r') : l = l' ∧ r = r' := by
  induction l generalizing l' with
  | nil =>
    cases l' with
    | nil => exact ⟨rfl, (List.cons.inj h).2⟩
    | cons a l' => exact absurd (by rw [(List.cons.inj h).1]; simp) hl'
  | cons a l ih =>
    cases l' with
    | nil => exact absurd (by rw [← (List.cons.inj h).1]; simp) hl
    | cons a' l' =>
      obtain ⟨rfl, hrest⟩ := List.cons.inj h
      obtain ⟨rfl, rfl⟩ := ih (fun hu => hl (mem_cons_of_mem _ hu))
        (fun hu => hl' (mem_cons_of_mem _ hu)) hrest
      exact ⟨rfl, rfl⟩

variable {t t' : TenantId}

lemma collectionNs_inj (h : collectionNs t = collectionNs t') : t = t' :=
  append_cancel_left h

section

variable {o : Objects Record} (ho : o.Named)
include ho

lemma loadCollection_retract (seq : Seq) (t : TenantId) (n : Utf16) :
    loadCollection t (o.write (.retract seq)) n =
      if o.named ⟨collectionNs t, n⟩ = some seq then none else loadCollection t o n := by
  have hunder := ho.under_retract seq ⟨collectionNs t, n⟩
  split_ifs with hseq
  · rw [if_pos hseq] at hunder
    cases hc : loadCollection t (o.write (.retract seq)) n with
    | none => rfl
    | some c =>
      obtain ⟨held, hheld, -⟩ := loadCollection_eq_some.1 hc
      rw [hunder] at hheld
      cases hheld
  · rw [if_neg hseq] at hunder
    exact loadCollection_congr hunder

/-- The record itself goes, and everything else is as it was. -/
lemma loadCollection_retract_record {seq : Seq} (hseq : o.named ⟨collectionNs t, n⟩ = some seq) (t' : TenantId)
    (n' : Utf16) : loadCollection t' (o.write (.retract seq)) n' =
      if t' = t ∧ n' = n then none else loadCollection t' o n' := by
  rw [loadCollection_retract ho]
  refine if_congr ⟨fun hn => ?_, ?_⟩ rfl rfl
  · obtain ⟨hns, hn⟩ := ObjectIdentity.mk.inj (ho.inj hn hseq)
    exact ⟨collectionNs_inj hns, hn⟩
  · rintro ⟨rfl, rfl⟩
    exact hseq

end

lemma documentNs_inj (ht : TenantOk t) (ht' : TenantOk t')
    (h : documentNs t c = documentNs t' c') : t = t' ∧ c = c' := by
  unfold documentNs at h
  rw [append_assoc, append_assoc, append_assoc, append_assoc] at h
  exact append_cons_inj ht.1 ht'.1 (append_cancel_left h)

lemma documentNs_ne_collectionNs : documentNs t c ≠ collectionNs t' := by
  intro h
  exact absurd (List.cons.inj h).1 (by decide)

lemma collectionNs_ne_tenantNs : collectionNs t ≠ TENANT_NAMESPACE := by
  intro h
  have hlt := congrArg (List.take 4) h
  unfold collectionNs at hlt
  rw [take_append_of_le_length (by decide)] at hlt
  exact absurd hlt (by decide)

variable {name : Utf16}

lemma isNamePart_of_isName (h : isName name = true) (hu : u ∈ name) : isNamePart u = true := by
  cases name with
  | nil => cases h
  | cons v rest =>
    obtain ⟨hv, hrest⟩ := (Bool.and_eq_true _ _).mp h
    rcases mem_cons.1 hu with rfl | hu
    · unfold isNamePart
      rw [hv]
      rfl
    · exact List.all_eq_true.1 hrest u hu

lemma slash_notMem (h : isName name = true) : SLASH ∉ name := fun hu =>
  absurd (isNamePart_of_isName h hu) (by decide)

lemma name_append_inj {r r' : Utf16} {u u' : CodeUnit} (hc : isName c = true)
    (hc' : isName c' = true) (hu : isNamePart u = false) (hu' : isNamePart u' = false)
    (h : c ++ u :: r = c' ++ u' :: r') : c = c' ∧ u = u' := by
  have htake : ∀ {c r : Utf16} {u}, isName c = true → isNamePart u = false →
      (c ++ u :: r).takeWhile isNamePart = c := by
    intro c r u hc hu
    rw [takeWhile_append_of_pos fun v hv => isNamePart_of_isName hc hv,
      takeWhile_cons_of_neg (by simpa using hu), append_nil]
  have heq : c = c' := by rw [← htake hc hu (r := r), h, htake hc' hu']
  subst heq
  exact ⟨rfl, (List.cons.inj (append_cancel_left h)).1⟩

lemma nameOf_inj {id id' : Utf16} (hc : isName c = true) (hc' : isName c' = true)
    (h : nameOf c id = nameOf c' id') : c = c' ∧ id = id' := by
  unfold nameOf at h
  rw [append_assoc, append_assoc] at h
  exact append_cons_inj (slash_notMem hc) (slash_notMem hc') h

/-- A posting of a document of a collection: in the column of all its documents, of a field, or of
an index, where it is a tuple. -/
def OwnColumn (t : TenantId) (c : Utf16) (column : Utf16 × OrderedScalar) : Prop :=
  column = (collectionColumn t, .string c) ∨ (∃ path, column.1 = columnFor t c path) ∨
    ∃ name salt bytes, column = (indexColumnFor t c name salt, .string (hexOf bytes))

lemma columnFor_eq (t : TenantId) (c path : Utf16) :
    columnFor t c path = t ++ SLASH :: (c ++ DOT :: path) := by
  simp [columnFor, utf16, SLASH, DOT]

lemma columnFor_ne_collectionColumn {path : Utf16} (ht : TenantOk t) :
    columnFor t c path ≠ collectionColumn t' := by
  intro h
  have hcolumn : collectionColumn t' = utf16 "zv.collection" ++ SLASH :: t' := rfl
  rw [columnFor_eq, hcolumn] at h
  exact ht.2 (append_cons_inj ht.1 (by decide) h).1

lemma indexColumnFor_eq (t : TenantId) (c name salt : Utf16) :
    indexColumnFor t c name salt = t ++ SLASH :: (c ++ 0x3A :: (name ++ utf16 "#" ++ salt)) := by
  simp [indexColumnFor, utf16, SLASH]

lemma indexColumnFor_ne_collectionColumn {name salt : Utf16}
    (ht : TenantOk t) : indexColumnFor t c name salt ≠ collectionColumn t' := by
  intro h
  have hcolumn : collectionColumn t' = utf16 "zv.collection" ++ SLASH :: t' := rfl
  rw [indexColumnFor_eq, hcolumn] at h
  exact ht.2 (append_cons_inj ht.1 (by decide) h).1

lemma indexColumnFor_ne_columnFor {name salt path : Utf16}
    (ht : TenantOk t) (ht' : TenantOk t') (hc : isName c = true) (hc' : isName c' = true) :
    indexColumnFor t c name salt ≠ columnFor t' c' path := by
  intro h
  rw [indexColumnFor_eq, columnFor_eq] at h
  obtain ⟨rfl, hrest⟩ := append_cons_inj ht.1 ht'.1 h
  exact absurd (name_append_inj hc hc' (by decide) (by decide) hrest).2 (by decide)

lemma indexColumnFor_inj {name name' salt salt' : Utf16}
    (hc : isName c = true) (hc' : isName c' = true) (hname : isName name = true)
    (hname' : isName name' = true) (h : indexColumnFor t c name salt = indexColumnFor t c' name' salt') :
    c = c' ∧ name = name' ∧ salt = salt' := by
  rw [indexColumnFor_eq, indexColumnFor_eq] at h
  have hrest := (List.cons.inj (append_cancel_left h)).2
  obtain ⟨rfl, -⟩ := name_append_inj hc hc' (by decide) (by decide) hrest
  have hnames := (List.cons.inj (append_cancel_left hrest)).2
  rw [append_assoc, append_assoc] at hnames
  obtain ⟨rfl, -⟩ := name_append_inj hname hname' (by decide) (by decide) hnames
  exact ⟨rfl, rfl, (List.cons.inj (append_cancel_left hnames)).2⟩

variable {value : OrderedScalar}

lemma eq_of_ownColumn {path : Utf16}
    (ht : TenantOk t) (ht' : TenantOk t') (hc : isName c = true) (hc' : isName c' = true)
    (h : OwnColumn t' c' (columnFor t c path, value)) : t = t' ∧ c = c' := by
  have hdot : isNamePart DOT = false := by decide
  rcases h with h | ⟨path', h⟩ | ⟨name, salt, bytes, h⟩
  · exact absurd (Prod.mk.inj h).1 (columnFor_ne_collectionColumn ht)
  · rw [columnFor_eq, columnFor_eq] at h
    obtain ⟨rfl, hrest⟩ := append_cons_inj ht.1 ht'.1 h
    exact ⟨rfl, (name_append_inj hc hc' hdot hdot hrest).1⟩
  · exact absurd (Prod.mk.inj h).1.symm (indexColumnFor_ne_columnFor ht' ht hc' hc)

lemma tuple_of_ownColumn {name salt : Utf16}
    (ht : TenantOk t) (ht' : TenantOk t') (hc : isName c = true) (hc' : isName c' = true)
    (h : OwnColumn t' c' (indexColumnFor t c name salt, value)) : ∃ bytes, value = .string (hexOf bytes) := by
  rcases h with h | ⟨path, h⟩ | ⟨name', salt', bytes, h⟩
  · exact absurd (Prod.mk.inj h).1 (indexColumnFor_ne_collectionColumn ht)
  · exact absurd h (indexColumnFor_ne_columnFor ht ht' hc hc')
  · exact ⟨bytes, (Prod.mk.inj h).2⟩

end Zelavis.Db
