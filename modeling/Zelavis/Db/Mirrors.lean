import Zelavis.Db.Catalogs

/-!
# References and the back-references that mirror them

A collection's record lists the references made to its documents, so that a delete finds what names
them. That list is kept by the four operations of `References`, each of which changes several
records in one transaction whose reads see what was committed before it.
-/

namespace Zelavis.Db

open Lib List Option

variable {o : Objects Record}

/-! ## Catalogs -/

def Declares (K : Catalog) (back : BackReference) (target : Utf16) : Prop :=
  ∃ a, K back.collection = some a ∧ ∃ r ∈ a.references, r.name = back.reference ∧ r.collection = target

/-- Every collection is listed what references it, once and nothing else; its own references have
a name each and name collections that exist. -/
structure Mirrored (K : Catalog) : Prop where
  named : ∀ n c, K n = some c → c.name = n
  once : ∀ n c, K n = some c → (c.references.map ReferenceConstraint.name).Nodup
  whole : ∀ n c, K n = some c → ∀ r ∈ c.references, ∃ b, K r.collection = some b
  nodup : ∀ n c, K n = some c → c.referencedBy.Nodup
  mirror : ∀ n c, K n = some c → ∀ back, back ∈ c.referencedBy ↔ Declares K back n

namespace Catalog

variable (K : Catalog)

def added (source : Utf16) (reference : ReferenceConstraint) : Catalog := fun n =>
  (K n).map fun c =>
    linked source (if reference.collection = n then [reference] else [])
      (if n = source then { c with references := c.references ++ [reference] } else c)

def without (source : Utf16) (reference : ReferenceConstraint) : Catalog := fun n =>
  (K n).map fun c =>
    let kept := if n = source then withoutReference reference.name c else c
    if n = reference.collection then unlinked source reference.name kept else kept

/-- The catalog without a collection, one reference to each of its targets taken off. -/
def dropped (c : StoredCollection) : Catalog := fun n =>
  if n = c.name then none
  else (K n).map fun b =>
    match c.references.find? fun r => r.collection = n with
    | none => b
    | some r => unlinked c.name r.name b

end Catalog

variable {rs : List ReferenceConstraint}

lemma nodup_backs {s : Utf16}
    (h : (rs.map ReferenceConstraint.name).Nodup) : (rs.map (ReferenceConstraint.back s)).Nodup := by
  refine List.Nodup.of_map BackReference.reference ?_
  rw [List.map_map]
  exact h

variable {reference : ReferenceConstraint}

lemma Catalog.added_of_ne {K : Catalog} {source n : Utf16}
    (hs : n ≠ source) (ht : n ≠ reference.collection) : K.added source reference n = K n := by
  unfold Catalog.added
  cases K n with
  | none => rfl
  | some b => rw [map_some, if_neg (Ne.symm ht), if_neg hs, linked_nil]

lemma Catalog.without_of_ne {K : Catalog} {source n : Utf16}
    (hs : n ≠ source) (ht : n ≠ reference.collection) : K.without source reference n = K n := by
  unfold Catalog.without
  cases K n with
  | none => rfl
  | some b =>
    rw [map_some, if_neg ht, if_neg hs]

variable {c : StoredCollection} {a : StoredCollection} {n : Utf16} {source : Utf16}

namespace Mirrored

variable {K : Catalog}

lemma eq_of_name (hK : Mirrored K) (hc : K n = some c)
    {r r' : ReferenceConstraint} (hr : r ∈ c.references) (hr' : r' ∈ c.references)
    (h : r.name = r'.name) : r = r' :=
  inj_on_of_nodup_map (hK.once n c hc) hr hr' h

lemma not_mem_of_absent (hK : Mirrored K) {a : Utf16} (ha : K a = none)
    (hc : K n = some c) {back : BackReference} (hback : back.collection = a) : back ∉ c.referencedBy := by
  intro hmem
  obtain ⟨a', ha', -⟩ := (hK.mirror n c hc back).1 hmem
  rw [hback, ha] at ha'
  cases ha'

/-! ## The operations -/

/-- A collection created under a name nothing had, its references naming collections that exist or
itself, keeps the lists. -/
theorem created (hK : Mirrored K) (hfresh : K c.name = none)
    (honce : (c.references.map ReferenceConstraint.name).Nodup) (hempty : c.referencedBy = [])
    (hwhole : ∀ r ∈ c.references, r.collection ≠ c.name → ∃ b, K r.collection = some b) :
    Mirrored (K.created c) := by
  -- what the new catalog holds under a name that is not the new one
  have hother : ∀ {n b'}, n ≠ c.name → K.created c n = some b' → ∃ b, K n = some b ∧
      b' = linked c.name (c.references.filter fun r => r.collection = n) b := by
    intro n b' hn hb'
    unfold Catalog.created at hb'
    rw [if_neg hn, map_eq_some_iff] at hb'
    obtain ⟨b, hb, rfl⟩ := hb'
    exact ⟨b, hb, rfl⟩
  have hself : K.created c c.name =
      some (linked c.name (c.references.filter fun r => r.collection = c.name) c) := if_pos rfl
  have hsome : ∀ {n b}, K n = some b → ∃ b', K.created c n = some b' := by
    intro n b hb
    unfold Catalog.created
    split_ifs
    · exact ⟨_, rfl⟩
    · rw [hb]
      exact ⟨_, rfl⟩
  -- a reference declared in the new catalog is the new collection's, or was declared before
  have hdeclares : ∀ {back n}, Declares (K.created c) back n ↔
      (back.collection = c.name ∧ ∃ r ∈ c.references, r.name = back.reference ∧ r.collection = n) ∨
        Declares K back n := by
    intro back n
    by_cases hback : back.collection = c.name
    · unfold Declares
      rw [hback, hself, hfresh]
      simp
    · constructor
      · rintro ⟨a', ha', r, hr, hname, hcol⟩
        obtain ⟨a, ha, rfl⟩ := hother hback ha'
        exact .inr ⟨a, ha, r, hr, hname, hcol⟩
      · rintro (⟨hback', -⟩ | ⟨a, ha, r, hr, hname, hcol⟩)
        · exact absurd hback' hback
        · obtain ⟨a', ha'⟩ := hsome ha
          obtain ⟨a₂, ha₂, rfl⟩ := hother hback ha'
          rw [ha] at ha₂
          cases ha₂
          exact ⟨_, ha', r, hr, hname, hcol⟩
  have hnone : ∀ {back}, ¬ Declares K back c.name := by
    rintro back ⟨a, ha, r, hr, -, hcol⟩
    obtain ⟨b, hb⟩ := hK.whole _ a ha r hr
    rw [hcol, hfresh] at hb
    cases hb
  have hmem : ∀ {back : BackReference} {n : Utf16},
      back ∈ (c.references.filter fun r => r.collection = n).map (ReferenceConstraint.back c.name) ↔
        back.collection = c.name ∧ ∃ r ∈ c.references, r.name = back.reference ∧ r.collection = n := by
    rintro ⟨bc, br⟩ n
    simp only [List.mem_map, mem_filter, decide_eq_true_eq, ReferenceConstraint.back,
      BackReference.mk.injEq]
    constructor
    · rintro ⟨r, ⟨hr, hcol⟩, rfl, rfl⟩
      exact ⟨rfl, r, hr, rfl, hcol⟩
    · rintro ⟨rfl, r, hr, rfl, hcol⟩
      exact ⟨r, ⟨hr, hcol⟩, rfl, rfl⟩
  have hbacks : ∀ n, ((c.references.filter fun r => r.collection = n).map
      (ReferenceConstraint.back c.name)).Nodup := by
    intro n
    exact nodup_backs (honce.sublist (filter_sublist.map _))
  constructor
  case named =>
    intro n b' hb'
    by_cases hn : n = c.name
    · subst hn
      rw [hself] at hb'
      cases hb'
      rfl
    · obtain ⟨b, hb, rfl⟩ := hother hn hb'
      exact hK.named n b hb
  case once =>
    intro n b' hb'
    by_cases hn : n = c.name
    · subst hn
      rw [hself] at hb'
      cases hb'
      exact honce
    · obtain ⟨b, hb, rfl⟩ := hother hn hb'
      exact hK.once n b hb
  case whole =>
    intro n b' hb' r hr
    by_cases hn : n = c.name
    · subst hn
      rw [hself] at hb'
      cases hb'
      by_cases hcol : r.collection = c.name
      · rw [hcol]
        exact ⟨_, hself⟩
      · obtain ⟨b, hb⟩ := hwhole r hr hcol
        exact hsome hb
    · obtain ⟨b, hb, rfl⟩ := hother hn hb'
      obtain ⟨t, ht⟩ := hK.whole n b hb r hr
      exact hsome ht
  case nodup =>
    intro n b' hb'
    by_cases hn : n = c.name
    · subst hn
      rw [hself] at hb'
      cases hb'
      rw [linked_referencedBy, hempty, nil_append]
      exact hbacks _
    · obtain ⟨b, hb, rfl⟩ := hother hn hb'
      refine (hK.nodup n b hb).append (hbacks n) ?_
      intro back hold hnew
      exact hK.not_mem_of_absent hfresh hb (hmem.1 hnew).1 hold
  case mirror =>
    intro n b' hb' back
    rw [hdeclares]
    by_cases hn : n = c.name
    · subst hn
      rw [hself] at hb'
      cases hb'
      rw [linked_referencedBy, hempty, nil_append, hmem]
      simp [hnone]
    · obtain ⟨b, hb, rfl⟩ := hother hn hb'
      rw [linked_referencedBy, mem_append, hmem, hK.mirror n b hb, or_comm]

/-- A reference added to a collection that had none of its name, to a collection that exists, keeps
the lists. -/
theorem added (hK : Mirrored K) (ha : K source = some a) (hnew : ∀ r ∈ a.references, r.name ≠ reference.name)
    (hwhole : ∃ b, K reference.collection = some b) : Mirrored (K.added source reference) := by
  have hold : ∀ {n b'}, K.added source reference n = some b' → ∃ b, K n = some b ∧
      b' = linked source (if reference.collection = n then [reference] else [])
        (if n = source then { b with references := b.references ++ [reference] } else b) := by
    intro n b' hb'
    obtain ⟨b, hb, rfl⟩ := map_eq_some_iff.1 hb'
    exact ⟨b, hb, rfl⟩
  have hsome : ∀ {n b}, K n = some b → ∃ b', K.added source reference n = some b' := by
    intro n b hb
    exact ⟨_, by rw [Catalog.added, hb, map_some]⟩
  have hrefs : ∀ {n b b'}, K n = some b → K.added source reference n = some b' →
      ∀ r, r ∈ b'.references ↔ r ∈ b.references ∨ (n = source ∧ r = reference) := by
    intro n b b' hb hb' r
    obtain ⟨b₂, hb₂, rfl⟩ := hold hb'
    rw [hb] at hb₂
    cases hb₂
    rw [linked_references]
    split_ifs with hn
    · simp [hn]
    · simp [hn]
  have hdeclares : ∀ {back n}, Declares (K.added source reference) back n ↔
      Declares K back n ∨ (back = reference.back source ∧ reference.collection = n) := by
    rintro ⟨bc, br⟩ n
    constructor
    · rintro ⟨b', hb', r, hr, hname, hcol⟩
      obtain ⟨b, hb, -⟩ := hold hb'
      rcases (hrefs hb hb' r).1 hr with hr | ⟨hsource, rfl⟩
      · exact .inl ⟨b, hb, r, hr, hname, hcol⟩
      · simp only at hsource hname
        subst hsource hname
        exact .inr ⟨rfl, hcol⟩
    · rintro (⟨b, hb, r, hr, hname, hcol⟩ | ⟨hback, hcol⟩)
      · obtain ⟨b', hb'⟩ := hsome hb
        exact ⟨b', hb', r, (hrefs hb hb' r).2 (.inl hr), hname, hcol⟩
      · obtain ⟨rfl, rfl⟩ := BackReference.mk.inj hback
        obtain ⟨b', hb'⟩ := hsome ha
        exact ⟨b', hb', reference, (hrefs ha hb' reference).2 (.inr ⟨rfl, rfl⟩), rfl, hcol⟩
  -- nothing listed before is the new back-reference
  have hfresh : ∀ {n b}, K n = some b → reference.back source ∉ b.referencedBy := by
    intro n b hb hmem
    obtain ⟨a', ha', r, hr, hname, -⟩ := (hK.mirror n b hb _).1 hmem
    unfold ReferenceConstraint.back at ha' hname
    rw [ha] at ha'
    cases ha'
    exact hnew r hr hname
  constructor
  case named =>
    intro n b' hb'
    obtain ⟨b, hb, rfl⟩ := hold hb'
    split_ifs <;> exact hK.named n b hb
  case once =>
    intro n b' hb'
    obtain ⟨b, hb, rfl⟩ := hold hb'
    rw [linked_references]
    split_ifs with hn
    · subst hn
      rw [ha] at hb
      cases hb
      rw [map_append, map_singleton]
      refine (hK.once n a ha).append (nodup_singleton _) ?_
      intro name hold' hname
      obtain ⟨r, hr, rfl⟩ := List.mem_map.1 hold'
      exact hnew r hr (mem_singleton.1 hname)
    · exact hK.once n b hb
  case whole =>
    intro n b' hb' r hr
    obtain ⟨b, hb, -⟩ := hold hb'
    rcases (hrefs hb hb' r).1 hr with hr | ⟨-, rfl⟩
    · obtain ⟨t, ht⟩ := hK.whole n b hb r hr
      exact hsome ht
    · obtain ⟨t, ht⟩ := hwhole
      exact hsome ht
  case nodup =>
    intro n b' hb'
    obtain ⟨b, hb, rfl⟩ := hold hb'
    have hreferencedBy : (if n = source then { b with references := b.references ++ [reference] }
        else b).referencedBy = b.referencedBy := by
      split_ifs <;> rfl
    rw [linked_referencedBy, hreferencedBy]
    split_ifs with hcol
    · rw [map_singleton]
      refine (hK.nodup n b hb).append (nodup_singleton _) ?_
      intro back hold' hback
      rw [mem_singleton.1 hback] at hold'
      exact hfresh hb hold'
    · rw [map_nil, append_nil]
      exact hK.nodup n b hb
  case mirror =>
    intro n b' hb' back
    obtain ⟨b, hb, rfl⟩ := hold hb'
    have hreferencedBy : (if n = source then { b with references := b.references ++ [reference] }
        else b).referencedBy = b.referencedBy := by
      split_ifs <;> rfl
    rw [hdeclares, linked_referencedBy, hreferencedBy, mem_append, hK.mirror n b hb]
    split_ifs with hcol
    · simp [hcol]
    · simp [hcol]

lemma without (hK : Mirrored K) (ha : K source = some a) (hr : reference ∈ a.references) :
    Mirrored (K.without source reference) := by
  have hold : ∀ {n b'}, K.without source reference n = some b' → ∃ b, K n = some b ∧ b'.name = b.name ∧
      (∀ r, r ∈ b'.references ↔ r ∈ b.references ∧ ¬(n = source ∧ r.name = reference.name)) ∧
      b'.references.Sublist b.references ∧ b'.referencedBy.Sublist b.referencedBy ∧
      (∀ back, back ∈ b'.referencedBy ↔
        back ∈ b.referencedBy ∧ ¬(n = reference.collection ∧ back = reference.back source)) := by
    intro n b' hb'
    obtain ⟨b, hb, rfl⟩ := map_eq_some_iff.1 hb'
    refine ⟨b, hb, ?_, ?_, ?_, ?_, ?_⟩
    · dsimp only
      split_ifs <;> rfl
    · intro r
      dsimp only
      split_ifs with hcol hn hn <;>
        simp [hn, mem_withoutReference]
    · dsimp only
      split_ifs
      · exact filter_sublist
      · exact List.Sublist.refl _
      · exact filter_sublist
      · exact List.Sublist.refl _
    · dsimp only
      split_ifs
      · exact filter_sublist
      · exact filter_sublist
      · exact List.Sublist.refl _
      · exact List.Sublist.refl _
    · intro back
      dsimp only
      split_ifs with hcol hn hn <;>
        simp [hcol, mem_unlinked, ReferenceConstraint.back]
  have hsome : ∀ {n b}, K n = some b → ∃ b', K.without source reference n = some b' := by
    intro n b hb
    exact ⟨_, by rw [Catalog.without, hb, map_some]⟩
  have hdeclares : ∀ {back n}, Declares (K.without source reference) back n ↔
      Declares K back n ∧ back ≠ reference.back source := by
    rintro ⟨bc, br⟩ n
    constructor
    · rintro ⟨b', hb', r, hr', hname, hcol⟩
      obtain ⟨b, hb, -, hrefs, -⟩ := hold hb'
      obtain ⟨hmem, hnot⟩ := (hrefs r).1 hr'
      refine ⟨⟨b, hb, r, hmem, hname, hcol⟩, fun hback => ?_⟩
      obtain ⟨rfl, rfl⟩ := BackReference.mk.inj hback
      exact hnot ⟨rfl, hname⟩
    · rintro ⟨⟨b, hb, r, hr', hname, hcol⟩, hne⟩
      obtain ⟨b', hb'⟩ := hsome hb
      obtain ⟨b₂, hb₂, -, hrefs, -⟩ := hold hb'
      rw [hb] at hb₂
      cases hb₂
      refine ⟨b', hb', r, (hrefs r).2 ⟨hr', ?_⟩, hname, hcol⟩
      rintro ⟨hsource, hname'⟩
      subst hsource
      exact hne (by rw [ReferenceConstraint.back, ← hname', hname])
  constructor
  case named =>
    intro n b' hb'
    obtain ⟨b, hb, hname, -⟩ := hold hb'
    rw [hname]
    exact hK.named n b hb
  case once =>
    intro n b' hb'
    obtain ⟨b, hb, -, -, hsub, -⟩ := hold hb'
    exact (hK.once n b hb).sublist (hsub.map _)
  case whole =>
    intro n b' hb' r hr'
    obtain ⟨b, hb, -, hrefs, -⟩ := hold hb'
    obtain ⟨t, ht⟩ := hK.whole n b hb r ((hrefs r).1 hr').1
    exact hsome ht
  case nodup =>
    intro n b' hb'
    obtain ⟨b, hb, -, -, -, hsub, -⟩ := hold hb'
    exact (hK.nodup n b hb).sublist hsub
  case mirror =>
    intro n b' hb' back
    obtain ⟨b, hb, -, -, -, -, hbacks⟩ := hold hb'
    rw [hbacks, hdeclares, hK.mirror n b hb]
    constructor
    · rintro ⟨hdecl, hnot⟩
      refine ⟨hdecl, ?_⟩
      rintro rfl
      refine hnot ⟨?_, rfl⟩
      -- the one reference of this name goes where it is declared to go
      obtain ⟨a', ha', r, hr', hname, hcol⟩ := hdecl
      have haa : a' = a := by
        have : K source = some a' := ha'
        rw [ha] at this
        exact (some.inj this).symm
      subst haa
      rw [← hcol, hK.eq_of_name ha hr' hr hname]
    · rintro ⟨hdecl, hne⟩
      exact ⟨hdecl, fun hnot => hne hnot.2⟩

/-- A collection that nothing else references dropped, with no two references to one other
collection, keeps the lists. -/
theorem dropped (hK : Mirrored K) (hc : K c.name = some c)
    (hforeign : ∀ back ∈ c.referencedBy, back.collection = c.name)
    (hsingle : ∀ r ∈ c.references, ∀ r' ∈ c.references, r.collection ≠ c.name →
      r.collection = r'.collection → r = r') : Mirrored (K.dropped c) := by
  have hold : ∀ {n b'}, K.dropped c n = some b' → n ≠ c.name ∧ ∃ b, K n = some b ∧
      b'.name = b.name ∧ b'.references = b.references ∧ b'.referencedBy.Sublist b.referencedBy ∧
      (∀ back, back ∈ b'.referencedBy ↔ back ∈ b.referencedBy ∧ back.collection ≠ c.name) := by
    intro n b' hb'
    unfold Catalog.dropped at hb'
    split_ifs at hb' with hn
    obtain ⟨b, hb, rfl⟩ := map_eq_some_iff.1 hb'
    refine ⟨hn, b, hb, ?_, ?_, ?_, ?_⟩
    · split <;> rfl
    · split <;> rfl
    · split
      · exact List.Sublist.refl _
      · exact filter_sublist
    · intro back
      -- a back-reference of the dropped collection is that of one of its references to this one
      have hfrom : back ∈ b.referencedBy → back.collection = c.name →
          ∃ r ∈ c.references, r.name = back.reference ∧ r.collection = n := by
        intro hmem hcol
        obtain ⟨a, ha, r, hr, hname, hcol'⟩ := (hK.mirror n b hb back).1 hmem
        rw [hcol, hc] at ha
        cases ha
        exact ⟨r, hr, hname, hcol'⟩
      split
      next hnone =>
        rw [List.find?_eq_none] at hnone
        refine ⟨fun hmem => ⟨hmem, fun hcol => ?_⟩, And.left⟩
        obtain ⟨r, hr, -, hcol'⟩ := hfrom hmem hcol
        exact hnone r hr (by simpa using hcol')
      next r hfind =>
        have hr : r ∈ c.references := mem_of_find?_eq_some hfind
        have hcol' : r.collection = n := by simpa using List.find?_some hfind
        rw [mem_unlinked]
        refine and_congr_right fun hmem => ?_
        constructor
        · intro hne hcol
          obtain ⟨r', hr', hname, hcol''⟩ := hfrom hmem hcol
          have heq : r = r' := hsingle r hr r' hr' (by rw [hcol']; exact hn) (by rw [hcol', hcol''])
          subst heq
          obtain ⟨bc, br⟩ := back
          subst hcol hname
          exact hne rfl
        · rintro hcol rfl
          exact hcol rfl
  have hsome : ∀ {n b}, n ≠ c.name → K n = some b → ∃ b', K.dropped c n = some b' := by
    intro n b hn hb
    exact ⟨_, by rw [Catalog.dropped, if_neg hn, hb, map_some]⟩
  constructor
  case named =>
    intro n b' hb'
    obtain ⟨-, b, hb, hname, -⟩ := hold hb'
    rw [hname]
    exact hK.named n b hb
  case once =>
    intro n b' hb'
    obtain ⟨-, b, hb, -, hrefs, -⟩ := hold hb'
    rw [hrefs]
    exact hK.once n b hb
  case whole =>
    intro n b' hb' r hr
    obtain ⟨hn, b, hb, -, hrefs, -⟩ := hold hb'
    rw [hrefs] at hr
    obtain ⟨t, ht⟩ := hK.whole n b hb r hr
    refine hsome ?_ ht
    -- a reference to the dropped collection would have kept it
    intro hcol
    rw [hcol, hc] at ht
    cases ht
    have hback := (hK.mirror c.name c hc ⟨n, r.name⟩).2 ⟨b, hb, r, hr, rfl, hcol⟩
    exact hn (hforeign _ hback)
  case nodup =>
    intro n b' hb'
    obtain ⟨-, b, hb, -, -, hsub, -⟩ := hold hb'
    exact (hK.nodup n b hb).sublist hsub
  case mirror =>
    intro n b' hb' back
    obtain ⟨-, b, hb, -, -, -, hbacks⟩ := hold hb'
    rw [hbacks, hK.mirror n b hb]
    constructor
    · rintro ⟨⟨a, ha, hdecl⟩, hne⟩
      obtain ⟨a', ha'⟩ := hsome hne ha
      obtain ⟨-, a₂, ha₂, -, hrefs, -⟩ := hold ha'
      rw [ha] at ha₂
      cases ha₂
      exact ⟨a', ha', by rw [hrefs]; exact hdecl⟩
    · rintro ⟨a', ha', hdecl⟩
      obtain ⟨hne, a, ha, -, hrefs, -⟩ := hold ha'
      rw [hrefs] at hdecl
      exact ⟨⟨a, ha, hdecl⟩, hne⟩

end Mirrored

/-! ## Stores of collections -/

/-- A store of collections and tenants' markers, each under its own name. -/
structure Shelved (o : Objects Record) : Prop where
  named : o.Named
  bounded : ∀ s h, o.held.get s = some h → s ≤ o.lastSeq
  shapes : ∀ s h, o.held.get s = some h →
    (∃ t c, h.body = .collection c ∧ h.identity = some ⟨collectionNs t, c.name⟩) ∨
      ∃ t, h.body = .tenant t ∧ h.identity = some ⟨TENANT_NAMESPACE, t⟩

variable {t : TenantId} {seq : Seq}

namespace Shelved

variable {o : Objects Record}

lemma empty : Shelved .empty :=
  ⟨Objects.empty_named, fun _ _ h => absurd h (by simp [Objects.empty]),
    fun _ _ h => absurd h (by simp [Objects.empty])⟩

section

variable (ho : Shelved o)
include ho

lemma nextSeq : Shelved o.nextSeq.2 :=
  ⟨ho.named, fun s h hs => (ho.bounded s h hs).trans (Nat.le_succ _), ho.shapes⟩

lemma held_nextSeq : o.nextSeq.2.held.get o.nextSeq.1 = none := by
  cases h : o.nextSeq.2.held.get o.nextSeq.1 with
  | none => rfl
  | some h' => exact absurd (ho.bounded _ h' h) (Nat.not_succ_le_self _)

lemma load_of_named {s : Seq} (h : o.named ⟨collectionNs t, n⟩ = some s) :
    ∃ c, loadCollection t o n = some c ∧ c.name = n := by
  obtain ⟨held, hheld, hid⟩ := (ho.named _ s).1 h
  rcases ho.shapes s held hheld with ⟨t', c, hbody, hid'⟩ | ⟨t', -, hid'⟩
  · rw [hid'] at hid
    obtain ⟨-, hname⟩ := ObjectIdentity.mk.inj (some.inj hid)
    refine ⟨c, loadCollection_eq_some.2 ⟨held, ?_, hbody⟩, hname⟩
    rw [Objects.under, h, bind_some, hheld]
  · rw [hid'] at hid
    exact absurd (ObjectIdentity.mk.inj (some.inj hid)).1.symm collectionNs_ne_tenantNs

lemma named_of_load
    (h : loadCollection t o n = some c) : c.name = n ∧ ∃ s, o.named ⟨collectionNs t, n⟩ = some s := by
  obtain ⟨held, hunder, -⟩ := loadCollection_eq_some.1 h
  obtain ⟨s, hs, -⟩ := bind_eq_some_iff.1 hunder
  obtain ⟨c', hc', hname⟩ := ho.load_of_named hs
  rw [h] at hc'
  cases hc'
  exact ⟨hname, s, hs⟩

lemma named_eq_none
    (h : loadCollection t o n = none) : o.named ⟨collectionNs t, n⟩ = none := by
  cases hn : o.named ⟨collectionNs t, n⟩ with
  | none => rfl
  | some s =>
    obtain ⟨c, hc, -⟩ := ho.load_of_named hn
    rw [h] at hc
    cases hc

lemma readDocument_eq_none (s : Seq) : readDocument o s = none := by
  unfold readDocument Objects.read
  cases h : o.held.get s with
  | none => rfl
  | some held =>
    rw [map_some]
    rcases ho.shapes s held h with ⟨t, c, hbody, -⟩ | ⟨t, hbody, -⟩
    · rw [hbody]
    · rw [hbody]

lemma put {body : Record} {m : IndexManifest} {i : ObjectIdentity}
    (h : o.Takes seq i) (hseq : seq ≤ o.lastSeq)
    (hshape : (∃ t c, body = .collection c ∧ i = ⟨collectionNs t, c.name⟩) ∨
      ∃ t, body = .tenant t ∧ i = ⟨TENANT_NAMESPACE, t⟩) : Shelved (o.write (.put seq body m (some i))) := by
  refine ⟨ho.named.put h, ?_, ?_⟩
  · intro s held hs
    obtain ⟨rfl, -⟩ | hs := Objects.held_of_put hs
    · exact hseq
    · exact ho.bounded s held hs
  · intro s held hs
    obtain ⟨-, rfl⟩ | hs := Objects.held_of_put hs
    · rcases hshape with ⟨t, c, rfl, rfl⟩ | ⟨t, rfl, rfl⟩
      · exact .inl ⟨t, c, rfl, rfl⟩
      · exact .inr ⟨t, rfl, rfl⟩
    · exact ho.shapes s held hs

lemma retract (seq : Seq) : Shelved (o.write (.retract seq)) :=
  ⟨ho.named.retract seq, fun s held hs => ho.bounded s held (Objects.held_of_retract hs),
    fun s held hs => ho.shapes s held (Objects.held_of_retract hs)⟩

lemma collectionPut (h : o.Takes seq ⟨collectionNs t, c.name⟩) (hseq : seq ≤ o.lastSeq) :
    Shelved (o.write (collectionPut t seq c)) :=
  ho.put h hseq (.inl ⟨t, c, rfl, rfl⟩)

lemma listed : Listed o :=
  ⟨ho.named, fun _ _ _ h => (ho.named_of_load h).1⟩

end

/-- What a transaction of collection records leaves, where each name has its identifier already: a
store of collections, each name the last record it was given, and everything else as it was. -/
theorem puts (ho : Shelved o) {l : List (Seq × StoredCollection)}
    (hl : ∀ e ∈ l, o.named ⟨collectionNs t, e.2.name⟩ = some e.1) :
    Shelved (o.commit (l.map fun e => Db.collectionPut t e.1 e.2)) ∧
      (o.commit (l.map fun e => Db.collectionPut t e.1 e.2)).named = o.named ∧
      (∀ n, loadCollection t (o.commit (l.map fun e => Db.collectionPut t e.1 e.2)) n =
        l.foldl (fun K e => changed K e.2.name (some e.2)) (loadCollection t o) n) ∧
      ∀ t' ≠ t, ∀ n, loadCollection t' (o.commit (l.map fun e => Db.collectionPut t e.1 e.2)) n =
        loadCollection t' o n := by
  obtain ⟨-, hnamed, hsame, hother⟩ := puts_catalog ho.named hl
  refine ⟨commit_puts_induct (P := Shelved) ho.named hl ?_ ho, hnamed, hsame, hother⟩
  intro e he o' ho' hnamed
  have he' : o'.named ⟨collectionNs t, e.2.name⟩ = some e.1 := by
    rw [hnamed]
    exact hl e he
  obtain ⟨held, hheld, -⟩ := (ho'.named _ _).1 he'
  exact ho'.collectionPut (ho'.named.takes_of_named he') (ho'.bounded _ _ hheld)

end Shelved

/-! ## The operations -/

/-- A store of collections whose lists are right for every tenant. -/
structure Catalogued (o : Objects Record) : Prop extends Shelved o where
  mirrored : ∀ t, Mirrored (loadCollection t o)

variable {ws : List (Objects.Write Record)}

namespace Catalogued

variable {o o' : Objects Record} {tenant : TenantId}

lemma empty : Catalogued .empty := by
  refine ⟨Shelved.empty, fun t => ?_⟩
  have hnone : ∀ {n c}, ¬ loadCollection t .empty n = some c := by
    intro n c h
    obtain ⟨held, hunder, -⟩ := loadCollection_eq_some.1 h
    simp [Objects.under, Objects.empty] at hunder
  constructor <;> intro n c hc <;> exact absurd hc hnone

lemma of_eq (tenant : TenantId) (ho : Catalogued o) (ho' : Shelved o') {K : Catalog} (hK : Mirrored K)
    (hsame : ∀ n, loadCollection tenant o' n = K n)
    (hother : ∀ t ≠ tenant, ∀ n, loadCollection t o' n = loadCollection t o n) : Catalogued o' := by
  refine ⟨ho', fun t => ?_⟩
  by_cases ht : t = tenant
  · subst ht
    rw [funext hsame]
    exact hK
  · rw [funext (hother t ht)]
    exact ho.mirrored t

section

variable (ho : Catalogued o)
include ho

lemma congr (ho' : Shelved o')
    (h : ∀ t n, loadCollection t o' n = loadCollection t o n) : Catalogued o' :=
  ⟨ho', fun t => by rw [funext (h t)]; exact ho.mirrored t⟩

lemma nextSeq : Catalogued o.nextSeq.2 :=
  ho.congr ho.toShelved.nextSeq fun _ _ => rfl

lemma markTenant : Catalogued (markTenant tenant o) := by
  unfold Db.markTenant
  cases hmarker : o.lookup TENANT_NAMESPACE tenant with
  | some s => exact ho
  | none =>
    have htakes := ho.nextSeq.named.takes_of_fresh ho.held_nextSeq hmarker
    refine ho.congr (ho.nextSeq.put htakes le_rfl (.inr ⟨tenant, rfl, rfl⟩)) fun t n => ?_
    refine loadCollection_congr ?_
    rw [Objects.commit_cons, Objects.commit_nil, ho.nextSeq.named.under_put htakes, if_neg]
    · rfl
    · intro hid
      exact collectionNs_ne_tenantNs (ObjectIdentity.mk.inj hid).1

lemma unmarkTenant : Catalogued (unmarkTenant tenant o) := by
  unfold Db.unmarkTenant
  split_ifs
  · cases hmarker : o.lookup TENANT_NAMESPACE tenant with
    | none => exact ho
    | some s =>
      refine ho.congr (ho.retract s) fun t n =>
        (loadCollection_retract ho.named s t n).trans (if_neg fun hn => ?_)
      exact collectionNs_ne_tenantNs (ObjectIdentity.mk.inj (ho.named.inj hn hmarker)).1
  · exact ho

lemma createWrites (hfresh : loadCollection tenant o c.name = none)
    (honce : (c.references.map ReferenceConstraint.name).Nodup) (hempty : c.referencedBy = [])
    (h : createWrites tenant o o.nextSeq.1 c = .ok ws) : Catalogued (o.nextSeq.2.commit ws) := by
  obtain ⟨l, rfl, hl, hcover⟩ := createWrites_eq_ok ho.listed h
  -- the new record first, under an identifier and a name that held nothing
  have htakes : o.nextSeq.2.Takes o.nextSeq.1 ⟨collectionNs tenant, c.name⟩ :=
    ho.nextSeq.named.takes_of_fresh ho.held_nextSeq (ho.named_eq_none hfresh)
  obtain ⟨hcatalog, hother⟩ := created_catalog ho.nextSeq.listed htakes hl hcover
  have hshelved := ho.nextSeq.toShelved.collectionPut (t := tenant)
    (c := linked c.name (c.references.filter fun r => r.collection = c.name) c) htakes le_rfl
  obtain ⟨hputs, -⟩ := hshelved.puts (t := tenant) (l := l) fun e he => by
    rw [collectionPut, linked_name, Objects.named_put htakes, if_neg]
    · exact (hl e he).2.1
    · intro hid
      exact (hl e he).1 (ObjectIdentity.mk.inj hid).2
  refine ho.of_eq tenant hputs ((ho.mirrored tenant).created hfresh honce hempty ?_) hcatalog hother
  · intro r hr hcol
    obtain ⟨e, he, hname⟩ := hcover r hr hcol
    obtain ⟨-, -, b, hb, -⟩ := hl e he
    exact ⟨b, by rw [← hname]; exact hb⟩

lemma createCollection (now : Utf16) (salt : Utf16 → Utf16)
    (input : CollectionInput) : Catalogued (createCollection tenant o now salt input).2 := by
  unfold Db.createCollection
  split
  · exact ho
  · exact ho
  · split_ifs with hexisting
    · exact ho
    · split
      · exact ho
      next c hc =>
        obtain ⟨hname, hempty, honce, -⟩ := collectionFor_eq_ok hc
        have hfresh : loadCollection tenant o c.name = none := by
          rw [hname]
          exact not_isSome_iff_eq_none.1 hexisting
        split
        · exact ho.nextSeq
        next ws hws => exact (ho.createWrites hfresh honce hempty hws).markTenant

lemma addWrites
    (hseq : o.named ⟨collectionNs tenant, source⟩ = some seq) (ha : loadCollection tenant o source = some a)
    (hnew : ∀ r ∈ a.references, r.name ≠ reference.name)
    (h : addWrites tenant o source seq a reference = .ok ws) : Catalogued (o.commit ws) := by
  have hname : a.name = source := (ho.mirrored tenant).named source a ha
  unfold Db.addWrites at h
  split_ifs at h with hcol
  · -- a collection that references itself is written once
    cases h
    obtain ⟨hshelved, -, hsame, hother⟩ := ho.puts (t := tenant)
      (l := [(seq, linked source [reference] { a with references := a.references ++ [reference] })])
      (by simpa [hname] using hseq)
    refine ho.of_eq tenant hshelved ((ho.mirrored tenant).added ha hnew ⟨a, by rw [hcol]; exact ha⟩)
      (fun n => (hsame n).trans (foldl_changed_eq ?_ ?_)) hother
    · intro e he hn
      rw [mem_singleton.1 he] at hn ⊢
      have hn : n = source := by rw [← hn]; exact hname
      unfold Catalog.added
      rw [hn, ha, map_some, if_pos hcol, if_pos rfl]
    · intro hnone
      have hns : n ≠ source := by
        rintro rfl
        exact hnone _ (mem_singleton_self _) hname
      exact (Catalog.added_of_ne hns (by rw [hcol]; exact hns)).symm
  · cases hlinks : linkTargets tenant o source [reference] with
    | error fault =>
      rw [hlinks] at h
      cases h
    | ok links =>
      rw [hlinks] at h
      cases h
      obtain ⟨l, rfl, hl, hfrom, hcover⟩ := linkTargets_eq_ok ho.listed hlinks
      have hfrom : ∀ e ∈ l, e.2.name = reference.collection := by
        intro e he
        obtain ⟨r, hr, hr'⟩ := hfrom e he
        rw [← hr', mem_singleton.1 hr]
      obtain ⟨e, he, hname'⟩ := hcover reference mem_cons_self
      obtain ⟨-, b, hb, -⟩ := hl e he
      rw [hname'] at hb
      obtain ⟨hshelved, -, hsame, hother⟩ := ho.puts (t := tenant)
        (l := (seq, { a with references := a.references ++ [reference] }) :: l) (by
          intro e' he'
          rcases mem_cons.1 he' with rfl | he'
          · rw [← hname] at hseq
            exact hseq
          · exact (hl e' he').1)
      refine ho.of_eq tenant hshelved ((ho.mirrored tenant).added ha hnew ⟨b, hb⟩) (fun n => ?_)
        hother
      refine (hsame n).trans (foldl_changed_eq ?_ ?_)
      · intro e' he' hn
        unfold Catalog.added
        rcases mem_cons.1 he' with rfl | he'
        · have hn : n = source := by rw [← hn]; exact hname
          rw [hn, ha, map_some, if_neg hcol, if_pos rfl]
          simp [linked]
        · obtain ⟨-, b', hb', heq⟩ := hl e' he'
          rw [hfrom e' he'] at hb' heq hn
          rw [← hn, hb', map_some, if_pos rfl, if_neg hcol, heq]
          simp
      · intro hnone
        have hns : n ≠ source := by
          rintro rfl
          exact hnone _ mem_cons_self hname
        have hnt : n ≠ reference.collection := by
          rintro rfl
          exact hnone e (mem_cons_of_mem _ he) hname'
        exact (Catalog.added_of_ne hns hnt).symm

end

/-- What taking a reference off writes: its collection without it, and its target without the
back-reference, once where they are one. -/
theorem unlinkReference_eq (ho : Catalogued o) {source name : Utf16}
    (ha : loadCollection tenant o source = some a)
    (hr : reference ∈ a.references) (hname : reference.name = name) :
    ∃ seq, o.named ⟨collectionNs tenant, source⟩ = some seq ∧
      (reference.collection = source → unlinkReference tenant o source name =
        [collectionPut tenant seq (unlinked source name (withoutReference name a))]) ∧
      (reference.collection ≠ source → ∃ target b,
        o.named ⟨collectionNs tenant, reference.collection⟩ = some target ∧
        loadCollection tenant o reference.collection = some b ∧ unlinkReference tenant o source name =
          [collectionPut tenant seq (withoutReference name a),
            collectionPut tenant target (unlinked source name b)]) := by
  obtain ⟨-, seq, hseq⟩ := ho.named_of_load ha
  obtain ⟨b, hb⟩ := (ho.mirrored tenant).whole source a ha reference hr
  obtain ⟨-, target, htarget⟩ := ho.named_of_load hb
  have hfind : a.references.find? (fun candidate => candidate.name = name) = some reference := by
    cases hfind : a.references.find? (fun candidate => candidate.name = name) with
    | none => exact absurd hname (by simpa using List.find?_eq_none.1 hfind reference hr)
    | some r =>
      have hrname : r.name = name := by simpa using List.find?_some hfind
      rw [(ho.mirrored tenant).eq_of_name ha (mem_of_find?_eq_some hfind) hr
        (hrname.trans hname.symm)]
  have hseq' : o.lookup (collectionNs tenant) source = some seq := hseq
  have htarget' : o.lookup (collectionNs tenant) reference.collection = some target := htarget
  refine ⟨seq, hseq, fun hcol => ?_, fun hcol => ⟨target, b, htarget, hb, ?_⟩⟩
  · unfold unlinkReference
    simp only [hseq', ha, hfind]
    rw [if_pos hcol]
  · unfold unlinkReference
    simp only [hseq', ha, hfind]
    rw [if_neg hcol, htarget', hb]

lemma unlinkReference (ho : Catalogued o) (source name : Utf16) :
    Catalogued (o.commit (unlinkReference tenant o source name)) := by
  by_cases hdeclared : ∃ a, loadCollection tenant o source = some a ∧ ∃ r ∈ a.references, r.name = name
  · obtain ⟨a, ha, reference, hr, hrname⟩ := hdeclared
    have hname : a.name = source := (ho.mirrored tenant).named source a ha
    obtain ⟨seq, hseq, hself, hother⟩ := ho.unlinkReference_eq ha hr hrname
    by_cases hcol : reference.collection = source
    · rw [hself hcol]
      obtain ⟨hshelved, -, hsame, hothers⟩ := ho.puts (t := tenant)
        (l := [(seq, unlinked source name (withoutReference name a))])
        (by simpa [hname] using hseq)
      refine ho.of_eq tenant hshelved ((ho.mirrored tenant).without ha hr)
        (fun n => (hsame n).trans (foldl_changed_eq ?_ ?_)) hothers
      · intro e he hn
        rw [mem_singleton.1 he] at hn ⊢
        have hn : n = source := by rw [← hn]; exact hname
        unfold Catalog.without
        rw [hn, ha, map_some, if_pos rfl, if_pos hcol.symm, hrname]
      · intro hnone
        have hns : n ≠ source := by
          rintro rfl
          exact hnone _ (mem_singleton_self _) hname
        exact (Catalog.without_of_ne hns (by rw [hcol]; exact hns)).symm
    · obtain ⟨target, b, htarget, hb, heq⟩ := hother hcol
      have hbname : b.name = reference.collection := (ho.mirrored tenant).named _ b hb
      rw [heq]
      obtain ⟨hshelved, -, hsame, hothers⟩ := ho.puts (t := tenant)
        (l := [(seq, withoutReference name a), (target, unlinked source name b)])
        (by simpa [hname, hbname] using ⟨hseq, htarget⟩)
      refine ho.of_eq tenant hshelved ((ho.mirrored tenant).without ha hr)
        (fun n => (hsame n).trans (foldl_changed_eq ?_ ?_)) hothers
      · intro e he hn
        unfold Catalog.without
        rcases mem_cons.1 he with rfl | he
        · have hn : n = source := by rw [← hn]; exact hname
          rw [hn, ha, map_some, if_pos rfl, if_neg (Ne.symm hcol), hrname]
        · rw [mem_singleton.1 he] at hn ⊢
          have hn : n = reference.collection := by rw [← hn]; exact hbname
          rw [hn, hb, map_some, if_neg hcol, if_pos rfl, hrname]
      · intro hnone
        have hns : n ≠ source := by
          rintro rfl
          exact hnone _ mem_cons_self hname
        have hnt : n ≠ reference.collection := by
          rintro rfl
          exact hnone _ (mem_cons_of_mem _ (mem_singleton_self _)) hbname
        exact (Catalog.without_of_ne hns hnt).symm
  · -- no such reference: nothing is written
    have hnil : Db.unlinkReference tenant o source name = [] := by
      unfold Db.unlinkReference
      split
      next seq record _ hrecord =>
        cases hfind : record.references.find? (fun candidate => candidate.name = name) with
        | none => rfl
        | some r =>
          exact absurd ⟨record, hrecord, r, mem_of_find?_eq_some hfind,
            by simpa using List.find?_some hfind⟩ hdeclared
      next => rfl
    rw [hnil]
    exact ho

lemma addReference (ho : Catalogued o) (source : Utf16) (reference : ReferenceConstraint) :
    Catalogued (addReference tenant o source reference).2 := by
  unfold Db.addReference
  split
  · exact ho
  · exact ho
  · split
    next seq a hseq ha =>
      split_ifs with hexists
      · exact ho
      · split
        · exact ho
        next ws hws =>
          have hadded := ho.addWrites hseq ha (by simpa using hexists) hws
          dsimp only
          split
          · exact hadded
          · exact hadded.unlinkReference source _
    next => exact ho

lemma dropReference (ho : Catalogued o) (collection name : Utf16) :
    Catalogued (dropReference tenant o collection name).2 := by
  unfold Db.dropReference
  split
  · exact ho
  · exact ho
  · exact ho.unlinkReference collection name

/-- What taking references to others off writes: the collection again and again, and each target
without a back-reference. -/
theorem unlinkReferences_eq (ho : Catalogued o) (ha : loadCollection tenant o a.name = some a)
    (hrs : ∀ r ∈ rs, r ∈ a.references ∧ r.collection ≠ a.name) : ∃ l : List (Seq × StoredCollection),
      rs.flatMap (fun r => Db.unlinkReference tenant o a.name r.name) =
        l.map (fun e => collectionPut tenant e.1 e.2) ∧
      (∀ e ∈ l, o.named ⟨collectionNs tenant, e.2.name⟩ = some e.1 ∧ (e.2.name = a.name ∨
        ∃ r ∈ rs, ∃ b, loadCollection tenant o r.collection = some b ∧ e.2 = unlinked a.name r.name b)) ∧
      ∀ r ∈ rs, ∃ e ∈ l, e.2.name = r.collection := by
  induction rs with
  | nil => exact ⟨[], rfl, by simp, by simp⟩
  | cons r rs ih =>
    obtain ⟨l, hl, hnamed, hcover⟩ := ih fun r' hr' => hrs r' (mem_cons_of_mem _ hr')
    obtain ⟨hr, hcol⟩ := hrs r mem_cons_self
    obtain ⟨seq, hseq, -, hother⟩ := ho.unlinkReference_eq ha hr rfl
    obtain ⟨target, b, htarget, hb, heq⟩ := hother hcol
    have hbname : b.name = r.collection := (ho.mirrored tenant).named _ b hb
    refine ⟨(seq, withoutReference r.name a) :: (target, unlinked a.name r.name b) :: l, ?_, ?_, ?_⟩
    · rw [flatMap_cons, heq, hl]
      rfl
    · intro e he
      rcases mem_cons.1 he with rfl | he
      · exact ⟨hseq, .inl rfl⟩
      · rcases mem_cons.1 he with rfl | he
        · refine ⟨?_, .inr ⟨r, mem_cons_self, b, hb, rfl⟩⟩
          rw [unlinked_name, hbname]
          exact htarget
        · obtain ⟨hname, hself | ⟨r', hr', hb'⟩⟩ := hnamed e he
          · exact ⟨hname, .inl hself⟩
          · exact ⟨hname, .inr ⟨r', mem_cons_of_mem _ hr', hb'⟩⟩
    · intro r' hr'
      rcases mem_cons.1 hr' with rfl | hr'
      · exact ⟨_, mem_cons_of_mem _ mem_cons_self, hbname⟩
      · obtain ⟨e, he, hname⟩ := hcover r' hr'
        exact ⟨e, mem_cons_of_mem _ (mem_cons_of_mem _ he), hname⟩

/-- A collection dropped as `dropWrites` drops it, with no two references to one other
collection. -/
theorem dropWrites (ho : Catalogued o) (ha : loadCollection tenant o a.name = some a)
    (hforeign : ∀ back ∈ a.referencedBy, back.collection = a.name)
    (hsingle : ∀ r ∈ a.references, ∀ r' ∈ a.references, r.collection ≠ a.name →
      r.collection = r'.collection → r = r') : Catalogued (o.commit (dropWrites tenant o a)) := by
  obtain ⟨-, seq, hseq⟩ := ho.named_of_load ha
  have hforeignTo : ∀ r ∈ a.references.filter fun r => decide (r.collection ≠ a.name),
      r ∈ a.references ∧ r.collection ≠ a.name := by
    intro r hr
    rw [mem_filter] at hr
    exact ⟨hr.1, by simpa using hr.2⟩
  obtain ⟨l, hl, hputs, hcover⟩ := ho.unlinkReferences_eq ha hforeignTo
  obtain ⟨hshelved, hnamed, hsame, hother⟩ := ho.puts (t := tenant) (l := l)
    fun e he => (hputs e he).1
  have hwrites : Db.dropWrites tenant o a =
      l.map (fun e => collectionPut tenant e.1 e.2) ++ [.retract seq] := by
    have hseq' : o.lookup (collectionNs tenant) a.name = some seq := hseq
    unfold Db.dropWrites
    rw [hl, hseq']
    rfl
  rw [hwrites, Objects.commit_append, Objects.commit_cons, Objects.commit_nil]
  have hload := loadCollection_retract_record hshelved.named (hnamed ▸ hseq)
  refine ho.of_eq tenant (hshelved.retract seq)
    ((ho.mirrored tenant).dropped ha hforeign hsingle) ?_ ?_
  · intro n
    rw [hload]
    unfold Catalog.dropped
    by_cases hn : n = a.name
    · rw [if_pos ⟨rfl, hn⟩, if_pos hn]
    · rw [if_neg (fun h => hn h.2), if_neg hn, hsame]
      refine foldl_changed_eq ?_ ?_
      · intro e he hname
        obtain ⟨-, hself | ⟨r, hr, b, hb, heq⟩⟩ := hputs e he
        · exact absurd (hname.symm.trans hself) hn
        · have hcol : r.collection = n := by
            rw [← hname, heq, unlinked_name]
            exact ((ho.mirrored tenant).named _ b hb).symm
          have hr := mem_filter.1 hr
          have hfind : a.references.find? (fun r => r.collection = n) = some r := by
            cases hfind : a.references.find? (fun r => r.collection = n) with
            | none => exact absurd hcol (by simpa using List.find?_eq_none.1 hfind r hr.1)
            | some r' =>
              have hcol' : r'.collection = n := by simpa using List.find?_some hfind
              rw [hsingle r' (mem_of_find?_eq_some hfind) r hr.1 (by rw [hcol']; exact hn)
                (by rw [hcol', hcol])]
          rw [hcol] at hb
          rw [hb, map_some, hfind, heq]
      · intro hnone
        have hfind : a.references.find? (fun r => r.collection = n) = none := by
          rw [List.find?_eq_none]
          intro r hr hcol
          have hcol : r.collection = n := by simpa using hcol
          obtain ⟨e, he, hname⟩ := hcover r
            (mem_filter.2 ⟨hr, by simpa [hcol] using hn⟩)
          exact hnone e he (by rw [hname, hcol])
        rw [hfind, Option.map_id']
  · intro t ht n
    rw [hload, if_neg (fun h => ht h.1), hother t ht]

lemma emptied_eq (ho : Catalogued o) (host : Host) (now collection : Utf16) (fuel : ℕ) :
    emptied host tenant now collection (fuel + 1) o = (none, o) := by
  have hpage : dropPage tenant o collection = [] := by
    have hnone : readDocument o = fun _ => none := funext ho.readDocument_eq_none
    unfold dropPage
    rw [hnone, filterMap_none, take_nil]
  unfold emptied
  rw [hpage]

end Catalogued

/-! ## Runs -/

/-- No collection that is dropped has two references to one and the same other collection. -/
def CollectionOp.DropsApart (op : CollectionOp) (o : Objects Record) : Prop :=
  ∀ tenant now name, op = .dropCollection tenant now name → ∀ a, loadCollection tenant o name = some a →
      ∀ r ∈ a.references, ∀ r' ∈ a.references, r.collection ≠ name → r.collection = r'.collection → r = r'

/-- `dropCollection` keeps the lists where the collection has no two references to one other. -/
theorem Catalogued.dropCollection (ho : Catalogued o) (host : Host)
    {tenant : TenantId} {now name : Utf16}
    (hop : (CollectionOp.dropCollection tenant now name).DropsApart o) :
    Catalogued (Db.dropCollection host tenant o now name).2 := by
  unfold Db.dropCollection
  split
  · exact ho
  · exact ho
  next a _ ha =>
    have hname : a.name = name := (ho.mirrored tenant).named name a ha
    split
    · exact ho
    next hnone =>
      have hforeign : ∀ back ∈ a.referencedBy, back.collection = a.name := by
        intro back hback
        rw [hname]
        simpa using List.find?_eq_none.1 hnone back hback
      rw [ho.emptied_eq]
      refine Catalogued.unmarkTenant (ho.dropWrites (by rw [hname]; exact ha) hforeign ?_)
      rw [hname]
      exact hop tenant now name rfl a ha

lemma Catalogued.run (ho : Catalogued o) (host : Host) {op : CollectionOp}
    (hop : op.DropsApart o) : Catalogued (op.run host o).2 := by
  cases op with
  | create tenant now salt input => exact ho.createCollection now salt input
  | addReference tenant source reference => exact ho.addReference source reference
  | dropReference tenant collection name => exact ho.dropReference collection name
  | dropCollection tenant now name => exact ho.dropCollection host hop

lemma Arrived.catalogued {host : Host}
    (h : Arrived host CollectionOp.DropsApart o) : Catalogued o := by
  induction h with
  | start => exact Catalogued.empty
  | step op _ hop ih => exact ih.run host hop

/-- A collection's back-references are the references made to it: one for each reference that a
collection which exists declares to it, each once, and nothing else. -/
def MirrorsReferences (tenant : TenantId) (o : Objects Record) : Prop :=
  ∀ B b, loadCollection tenant o B = some b → b.referencedBy.Nodup ∧
    ∀ back, back ∈ b.referencedBy ↔ ∃ a, loadCollection tenant o back.collection = some a ∧
      ∃ r ∈ a.references, r.name = back.reference ∧ r.collection = B

/-- In every run that drops no collection with two references to one and the same other, the
back-references mirror the references in every state. -/
theorem arrived_mirrorsReferences {host : Host} {o : Objects Record}
    (h : Arrived host CollectionOp.DropsApart o) (tenant : TenantId) : MirrorsReferences tenant o := by
  intro B b hb
  have hmirrored := h.catalogued.mirrored tenant
  exact ⟨hmirrored.nodup B b hb, hmirrored.mirror B b hb⟩

/-! ## The condition -/

def createNaming (name target : Utf16) (references : List Utf16) : CollectionOp :=
  .create (utf16 "t") [] (fun _ => utf16 "s") { name, references := references.map fun r =>
    { name := r, path := r, collection := target } }

def dropsDouble : List CollectionOp :=
  [createNaming (utf16 "b") [] [], createNaming (utf16 "a") (utf16 "b") [utf16 "r", utf16 "s"],
    .dropCollection (utf16 "t") [] (utf16 "a")]

/-- Dropping a collection with two references to another leaves one of the two listed there: both
are taken off in one transaction, and the second is taken off the record the first was still in. -/
theorem not_mirrorsReferences : ¬ ∀ (host : Host) (ops : List CollectionOp) (tenant : TenantId),
    MirrorsReferences tenant (ranCollections host ops .empty) := by
  intro hall
  let o := ranCollections plainHost dropsDouble .empty
  have hb : (loadCollection (utf16 "t") o (utf16 "b")).map StoredCollection.referencedBy =
      some [⟨utf16 "a", utf16 "r"⟩] := by decide +kernel
  have ha : (loadCollection (utf16 "t") o (utf16 "a")).map StoredCollection.referencedBy =
      none := by decide +kernel
  obtain ⟨b, hload, hlist⟩ := Option.map_eq_some_iff.1 hb
  have hmirror := (hall plainHost dropsDouble (utf16 "t") (utf16 "b") b hload).2
  obtain ⟨a, hload', -⟩ := (hmirror ⟨utf16 "a", utf16 "r"⟩).1 (by rw [hlist]; simp)
  exact absurd hload' (by rw [Option.map_eq_none_iff.1 ha]; simp)

def dropsSingle : List CollectionOp :=
  [createNaming (utf16 "b") (utf16 "b") [utf16 "q"], createNaming (utf16 "a") (utf16 "b") [utf16 "r"],
    .dropCollection (utf16 "t") [] (utf16 "a")]

lemma arrived_dropsSingle :
    Arrived plainHost CollectionOp.DropsApart (ranCollections plainHost dropsSingle .empty) := by
  have hcreate : ∀ name target references o, (createNaming name target references).DropsApart o := by
    intro name target references o tenant now dropped heq
    cases heq
  refine .step _ (.step _ (.step _ .start (hcreate _ _ _ _)) (hcreate _ _ _ _)) ?_
  intro tenant now name heq a ha r hr r' hr' _ _
  cases heq
  have hrefs : (loadCollection (utf16 "t") (ranCollections plainHost (dropsSingle.take 2) .empty)
      (utf16 "a")).map StoredCollection.references =
      some [{ name := utf16 "r", path := utf16 "r", collection := utf16 "b" }] := by decide +kernel
  obtain ⟨a', ha', hrefs⟩ := map_eq_some_iff.1 hrefs
  cases ha.symm.trans ha'
  rw [hrefs] at hr hr'
  rw [mem_singleton.1 hr, mem_singleton.1 hr']

/-- A run that drops a collection with one reference to another. -/
theorem arrived_mirrorsReferences_dropsSingle :
    (loadCollection (utf16 "t") (ranCollections plainHost dropsSingle .empty) (utf16 "b")).map
        StoredCollection.referencedBy = some [⟨utf16 "b", utf16 "q"⟩] ∧
      MirrorsReferences (utf16 "t") (ranCollections plainHost dropsSingle .empty) :=
  ⟨by decide +kernel, arrived_mirrorsReferences arrived_dropsSingle (utf16 "t")⟩

end Zelavis.Db
