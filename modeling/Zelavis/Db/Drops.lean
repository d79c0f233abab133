import Mathlib.Data.Finset.Card
import Zelavis.Db.Links
import Zelavis.Db.Listings

/-!
# Dropping a collection

`dropCollection` of `documents.ts`: the documents are deleted a page at a time, each through the
references made to it, and the record goes last.
-/

namespace Zelavis.Db

open Lib List

variable {c : StoredCollection}

/-! ## What a deletion meets -/

/-- A document that names another through a reference its collection declares. -/
structure Naming where
  seq : Seq
  source : StoredCollection
  reference : ReferenceConstraint

/-- What a deletion meets that may be in its way. -/
inductive Encounter where
  | named (naming : Naming)
  | clearing (source : StoredCollection) (cleared : Document) (seq : Seq) (s : Staged)

section

variable (host : Host) (t : TenantId) (o : Objects Record) (now : Utf16)

/-- A document found under a reference, where it names the one that goes as the transaction leaves
it. -/
def namingHeld (p : PendingDocs) (doc : Document) (source : StoredCollection)
    (reference : ReferenceConstraint) (held : Seq) : List Naming :=
  match currentAt o p held with
  | none => []
  | some holder => if namesId holder.data reference.path doc.id then [⟨held, source, reference⟩] else []

/-- The documents naming a document through one reference recorded on its collection. -/
def namingBack (p : PendingDocs) (doc : Document) (target : StoredCollection)
    (back : BackReference) : List Naming :=
  let source := if back.collection = doc.collection then some target
    else loadCollection t o back.collection
  match source with
  | none => []
  | some source =>
    match source.references.find? fun r => r.name = back.reference with
    | none => []
    | some reference =>
      (o.resolve (.equals (columnFor t back.collection reference.path) (.string doc.id))).flatMap
        (namingHeld o p doc source reference)

/-- The documents naming a document, once for each reference they name it through. -/
def namingOf (p : PendingDocs) (doc : Document) : List Naming :=
  match loadCollection t o doc.collection with
  | none => []
  | some target => target.referencedBy.flatMap (namingBack t o p doc target)

def gatherNamed (gathered : List Gathered) (n : Naming) : List Gathered :=
  gatherInto gathered n.seq n.source n.reference

/-- What an encounter has to be for the deletion to go on: a reference that does not restrict it, or a
document that its schema and its collection's constraints allow without what it named. -/
def Encounter.Harmless : Encounter → Prop
  | .named n => n.reference.onDelete ≠ .restrict
  | .clearing source cleared seq s => host.satisfiesSchema source.name cleared.data = true ∧
      (documentPut host t o cleared seq (some source) s).isOk = true

instance (e : Encounter) : Decidable (e.Harmless host t o) := by
  cases e <;> unfold Encounter.Harmless <;> infer_instance

def holderSwept (down : Document → Staged → List Encounter × Staged) (doc : Document) (s : Staged)
    (g : Gathered) : List Encounter × Staged :=
  match currentAt o s.pending g.seq with
  | none => ([], s)
  | some holder =>
    let naming := g.naming.filter fun r => namesId holder.data r.path doc.id
    if naming = [] then ([], s)
    else if naming.any fun r => r.onDelete = .cascade then
      let swept := down holder { s with pending := forget s.pending holder g.seq }
      (swept.1, { swept.2 with writes := swept.2.writes ++ [.retract g.seq] })
    else
      let cleared := clearedOf now s.pending holder g.seq naming
      ([.clearing g.source cleared g.seq s],
        (documentPut host t o cleared g.seq (some g.source) s).toOption.getD s)

/-- What becomes of the documents naming one that goes, whatever is in the way. -/
def releaseSwept : ℕ → Document → Staged → List Encounter × Staged
  | 0, _, s => ([], s)
  | fuel + 1, doc, s =>
    let names := namingOf t o s.pending doc
    let swept := sweep (holderSwept host t o now (releaseSwept fuel) doc)
      (names.foldl gatherNamed []) s
    (names.map .named ++ swept.1, swept.2)

def deleteSwept (collection : Utf16) (s : Staged) (doc : Document) : List Encounter × Staged :=
  match currentNamed t o s.pending collection doc.id with
  | some (seq, some current) =>
    let swept := releaseSwept host t o now (o.held.entries.length + 1) current
      { s with pending := forget s.pending current seq }
    (swept.1, { pending := forget swept.2.pending current seq
                writes := swept.2.writes ++ [.retract seq] })
  | _ => ([], s)

def pageSwept (collection : Utf16) : List Encounter × Staged :=
  sweep (deleteSwept host t o now collection) (dropPage t o collection) {}

end

def afterPages (host : Host) (t : TenantId) (now collection : Utf16) : ℕ → Objects Record → Objects Record
  | 0, o => o
  | n + 1, o => afterPages host t now collection n
      (o.commit (pageSwept host t o now collection).2.writes)

/-! ## What a deletion comes to -/

variable {p : PendingDocs} {doc : Document} {gathered : List Gathered}

section

variable {host : Host} {t : TenantId} {o : Objects Record} {now : Utf16}

lemma gatherNaming_eq_ok_iff : gatherNaming t o p doc = .ok gathered ↔
      (∀ n ∈ namingOf t o p doc, n.reference.onDelete ≠ .restrict) ∧
        gathered = (namingOf t o p doc).foldl gatherNamed [] := by
  unfold gatherNaming namingOf
  cases loadCollection t o doc.collection with
  | none => simp [eq_comm]
  | some target =>
    have hback : ∀ back ∈ target.referencedBy, ∀ gs, True → ∀ gs',
        gatherBack t o p doc target gs back = .ok gs' ↔
          (∀ n ∈ namingBack t o p doc target back, n.reference.onDelete ≠ .restrict) ∧
            gs' = (namingBack t o p doc target back).foldl gatherNamed gs := by
      intro back _ gs _ gs'
      unfold gatherBack namingBack
      cases (if back.collection = doc.collection then some target
        else loadCollection t o back.collection) with
      | none => simp [eq_comm]
      | some source =>
        dsimp only
        cases source.references.find? fun r => r.name = back.reference with
        | none => simp [eq_comm]
        | some reference =>
          rw [foldlM_eq_ok_iff_sweep (J := fun _ => True)
            (g := fun gs held => (namingHeld o p doc source reference held,
              (namingHeld o p doc source reference held).foldl gatherNamed gs))
            (p := fun n => n.reference.onDelete ≠ .restrict) ?_ (fun _ _ _ _ _ _ => trivial) trivial,
            sweep_flatMap]
          intro held _ gs _ gs'
          unfold gatherHeld namingHeld
          cases currentAt o p held with
          | none => simp [eq_comm]
          | some holder =>
            dsimp only
            cases hnames : namesId holder.data reference.path doc.id with
            | false => simp [eq_comm]
            | true =>
              by_cases hrestrict : reference.onDelete = .restrict
              · simp [hrestrict]
              · simp [hrestrict, Ne.symm hrestrict, gatherNamed, eq_comm]
    rw [foldlM_eq_ok_iff_sweep (J := fun _ => True)
      (g := fun gs back => (namingBack t o p doc target back,
        (namingBack t o p doc target back).foldl gatherNamed gs))
      (p := fun n => n.reference.onDelete ≠ .restrict) hback (fun _ _ _ _ _ _ => trivial) trivial,
      sweep_flatMap]

end

/-! ## While a page is deleted -/

/-- The documents of a tenant that are still there, as a transaction leaves them. -/
def remaining (t : TenantId) (o : Objects Record) (p : PendingDocs) : Finset Seq :=
  (o.held.entries.map Prod.fst).toFinset.filter fun q => (curr t o p q).isSome

/-- What holds while the documents of a collection are deleted. -/
structure Emptying (host : Host) (t : TenantId) (o : Objects Record) (name : Utf16)
    (due : List (Seq × Document)) (s : Staged) : Prop where
  within : Within host t o [] due s
  own : ∀ q doc, s.pending.bySeq q = some doc → ∃ d, docAt t o q = some d ∧ d.collection = name

variable {q : Seq} {d : Document} {o₁ o₂ : Objects Record} {g : Gathered}

section

variable {host : Host} {t : TenantId} {o : Objects Record} {now name : Utf16}

lemma mem_remaining (hown : ∀ q doc, p.bySeq q = some doc → ∃ d, docAt t o q = some d) :
    q ∈ remaining t o p ↔ ∃ d, curr t o p q = some d := by
  unfold remaining
  rw [Finset.mem_filter, List.mem_toFinset, List.mem_map, Option.isSome_iff_exists]
  refine and_iff_right_of_imp fun ⟨d, hd⟩ => ?_
  have hdoc : ∃ d, docAt t o q = some d := by
    cases hby : p.bySeq q with
    | none => exact ⟨d, by rwa [curr_of_none hby] at hd⟩
    | some doc => exact hown q doc hby
  obtain ⟨d₀, hd₀⟩ := hdoc
  obtain ⟨held, hheld, -⟩ := docAt_eq_some.1 hd₀
  exact ⟨(q, held), OrderedMap.mem_entries.2 hheld, rfl⟩

lemma remaining_le (p : PendingDocs) : (remaining t o p).card ≤ o.held.entries.length := by
  refine (Finset.card_filter_le _ _).trans ((toFinset_card_le _).trans ?_)
  rw [length_map]

lemma keeps_true {ops : List DocumentWrite} :
    Keeps host t o now ops (fun _ _ => False) fun _ _ => True where
  put := fun _ _ _ _ _ _ _ => trivial
  forget := fun _ _ _ _ => trivial
  forgetAgain := fun _ _ => trivial
  retract := fun _ _ => trivial

namespace Emptying

variable {due : List (Seq × Document)} {s s' : Staged}

lemma start (ho : Kept o) (ht : TenantOk t) : Emptying host t o name [] {} :=
  ⟨Within.start ho ht [], fun _ _ h => by cases h⟩

lemma mem_remaining (h : Emptying host t o name due s) :
    q ∈ remaining t o s.pending ↔ ∃ d, curr t o s.pending q = some d :=
  Db.mem_remaining fun q doc hby => (h.own q doc hby).imp fun _ => And.left

lemma forget (ho : Kept o) (h : Emptying host t o name due s) {d d₀ : Document}
    (hq : curr t o s.pending q = some d) (hd₀ : docAt t o q = some d₀) (hcol : d₀.collection = name) :
    Emptying host t o name ((q, d) :: due) { s with pending := Db.forget s.pending d q } ∧
      (remaining t o (Db.forget s.pending d q)).card < (remaining t o s.pending).card := by
  have h' : Emptying host t o name ((q, d) :: due) { s with pending := Db.forget s.pending d q } := by
    refine ⟨h.within.forget ho (by simp) hq, fun q' doc hby => ?_⟩
    have hby : (if q' = q then some none else s.pending.bySeq q') = some doc := hby
    split_ifs at hby with hq'
    · rw [hq']
      exact ⟨d₀, hd₀, hcol⟩
    · exact h.own q' doc hby
  have hsame : ∀ {q'}, q' ≠ q → curr t o (Db.forget s.pending d q) q' = curr t o s.pending q' := by
    intro q' hne
    unfold curr
    rw [show (Db.forget s.pending d q).bySeq q' = s.pending.bySeq q' from if_neg hne]
  have hgone : curr t o (Db.forget s.pending d q) q = none := curr_of_some (if_pos rfl)
  refine ⟨h', Finset.card_lt_card ((Finset.ssubset_iff_of_subset fun q' hq' => ?_).2
    ⟨q, h.mem_remaining.2 ⟨d, hq⟩, fun hmem => ?_⟩)⟩
  · obtain ⟨d', hd'⟩ := h'.mem_remaining.1 hq'
    refine h.mem_remaining.2 ⟨d', ?_⟩
    rw [← hsame]
    · exact hd'
    · rintro rfl
      rw [hgone] at hd'
      cases hd'
  · obtain ⟨d', hd'⟩ := h'.mem_remaining.1 hmem
    rw [hgone] at hd'
    cases hd'

lemma retract (h : Emptying host t o name ((q, d) :: due) s) :
    Emptying host t o name due { s with writes := s.writes ++ [.retract q] } :=
  ⟨h.within.retract, h.own⟩

lemma forgetAgain (h : Emptying host t o name ((q, d) :: due) s) :
    Emptying host t o name ((q, d) :: due) { s with pending := Db.forget s.pending d q } ∧
      remaining t o (Db.forget s.pending d q) = remaining t o s.pending := by
  have hbySeq := Within.forget_bySeq d (h.within.forgotten (q, d) mem_cons_self).1
  refine ⟨⟨h.within.forgetAgain, fun q' doc hby => h.own q' doc (hbySeq ▸ hby)⟩, ?_⟩
  unfold remaining curr
  rw [hbySeq]

lemma put (ho : Kept o) (ht : TenantOk t) (h : Emptying host t o name due s)
    {holder d₀ : Document} {source : StoredCollection} {naming : List ReferenceConstraint}
    (hq : curr t o s.pending q = some holder) (hd₀ : docAt t o q = some d₀)
    (hcol : d₀.collection = name) (hsource : loadCollection t o holder.collection = some source)
    (hnaming : ∀ r ∈ naming, r ∈ source.references)
    (hput : documentPut host t o (clearedOf now s.pending holder q naming) q (some source) s = .ok s') :
    Emptying host t o name due s' ∧ (remaining t o s'.pending).card ≤ (remaining t o s.pending).card := by
  have hplaced : Placed host t o now (.delete name [] none []) s.pending
      (clearedOf now s.pending holder q naming) q (some source) :=
    Placed.cleared hq hsource hnaming
  obtain ⟨hw, -⟩ := Keeps.rewrite ho ht (by simp) (by simp) keeps_true (mem_singleton_self _)
    h.within trivial hplaced ⟨holder, hq, rfl, rfl⟩ hput
  have hbySeq : ∀ q', s'.pending.bySeq q' =
      if q' = q then some (some (clearedOf now s.pending holder q naming))
      else s.pending.bySeq q' := by
    obtain ⟨edges, manifest, -, -, rfl⟩ := documentPut_eq_ok hplaced.record_eq hput
    exact fun q' => rfl
  have h' : Emptying host t o name due s' := by
    refine ⟨hw, fun q' doc hby => ?_⟩
    rw [hbySeq] at hby
    split_ifs at hby with hq'
    · rw [hq']
      exact ⟨d₀, hd₀, hcol⟩
    · exact h.own q' doc hby
  refine ⟨h', Finset.card_le_card fun q' hq' => h.mem_remaining.2 ?_⟩
  obtain ⟨d', hd'⟩ := h'.mem_remaining.1 hq'
  by_cases hne : q' = q
  · exact ⟨holder, by rw [hne, hq]⟩
  · refine ⟨d', ?_⟩
    rw [← hd']
    unfold curr
    rw [hbySeq, if_neg hne]

end Emptying

/-! ## Deletions that go on -/

lemma seq_of_gathered {names : List Naming} (h : g ∈ names.foldl gatherNamed gathered) :
    (∃ g' ∈ gathered, g'.seq = g.seq) ∨ ∃ n ∈ names, n.seq = g.seq := by
  induction names generalizing gathered with
  | nil => exact .inl ⟨g, h, rfl⟩
  | cons n names ih =>
    rcases ih h with ⟨g', hg', heq⟩ | ⟨n', hn', heq⟩
    · unfold gatherNamed gatherInto at hg'
      split_ifs at hg'
      · obtain ⟨g'', hg'', rfl⟩ := List.mem_map.1 hg'
        refine .inl ⟨g'', hg'', ?_⟩
        split_ifs at heq <;> exact heq
      · rcases mem_append.1 hg' with hg' | hg'
        · exact .inl ⟨g', hg', heq⟩
        · rw [mem_singleton.1 hg'] at heq
          exact .inr ⟨n, mem_cons_self, heq⟩
    · exact .inr ⟨n', mem_cons_of_mem _ hn', heq⟩

lemma collection_of_naming (ho : Kept o) (ht : TenantOk t)
    (hc : loadCollection t o name = some c) (hown : ∀ back ∈ c.referencedBy, back.collection = name)
    (hdoc : doc.collection = name) {n : Naming}
    (hn : n ∈ namingOf t o p doc) : ∃ d, docAt t o n.seq = some d ∧ d.collection = name := by
  unfold namingOf at hn
  rw [hdoc, hc] at hn
  obtain ⟨back, hback, hn⟩ := mem_flatMap.1 hn
  unfold namingBack at hn
  rw [if_pos (by rw [hown back hback, hdoc])] at hn
  dsimp only at hn
  split at hn
  · exact absurd hn not_mem_nil
  next reference _ =>
    obtain ⟨held, hheld, hn⟩ := mem_flatMap.1 hn
    unfold namingHeld at hn
    split at hn
    · exact absurd hn not_mem_nil
    · split_ifs at hn
      · rw [mem_singleton.1 hn]
        rw [hown back hback] at hheld
        exact ho.docAt_of_column ht (ho.name_of_load hc).2 hheld
      · exact absurd hn not_mem_nil

section

variable (ho : Kept o) (ht : TenantOk t) {c : StoredCollection}
  (hc : loadCollection t o name = some c) (hown : ∀ back ∈ c.referencedBy, back.collection = name)
  {due : List (Seq × Document)} {s s' : Staged}

include ho ht

lemma releaseHolder_eq_ok_iff {release : Document → Staged → Except DocError Staged}
    {swept : Document → Staged → List Encounter × Staged} {doc d₀ : Document}
    (h : Emptying host t o name due s) (hd₀ : docAt t o g.seq = some d₀)
    (hcol : d₀.collection = name) (hsource : loadCollection t o d₀.collection = some g.source)
    (hnaming : ∀ r ∈ g.naming, r ∈ g.source.references)
    (hdown : ∀ {due holder s'}, holder.collection = name → Emptying host t o name due s' →
      (remaining t o s'.pending).card < (remaining t o s.pending).card → ∀ s'', (release holder s' = .ok s'' ↔
          (∀ e ∈ (swept holder s').1, e.Harmless host t o) ∧ s'' = (swept holder s').2) ∧
        (release holder s' = .ok s'' → Emptying host t o name due s'' ∧
          (remaining t o s''.pending).card ≤ (remaining t o s'.pending).card)) :
    (releaseHolder host t o now release doc s g = .ok s' ↔
      (∀ e ∈ (holderSwept host t o now swept doc s g).1, e.Harmless host t o) ∧
        s' = (holderSwept host t o now swept doc s g).2) ∧
    (releaseHolder host t o now release doc s g = .ok s' → Emptying host t o name due s' ∧
      (remaining t o s'.pending).card ≤ (remaining t o s.pending).card) := by
  unfold releaseHolder holderSwept
  rw [currentAt_eq hd₀]
  cases hholder : curr t o s.pending g.seq with
  | none => simpa [eq_comm] using fun heq => heq ▸ ⟨h, le_rfl⟩
  | some holder =>
    have hsame := h.within.same_of_curr hholder hd₀
    dsimp only
    split_ifs with hnil hcascade hschema
    · simpa [eq_comm] using fun heq => heq ▸ ⟨h, le_rfl⟩
    · -- the holder goes as well, with what names it
      obtain ⟨hforgot, hfewer⟩ := h.forget ho hholder hd₀ hcol
      have hgo := hdown (hsame.1.trans hcol) hforgot hfewer
      constructor
      · cases hrelease : release holder { s with pending := forget s.pending holder g.seq } with
        | error fault =>
          have hnot : ¬∀ e ∈ (swept holder { s with
              pending := forget s.pending holder g.seq }).1, e.Harmless host t o := fun hall => by
            have := (hgo _).1.2 ⟨hall, rfl⟩
            rw [hrelease] at this
            cases this
          simp [hnot]
        | ok s'' =>
          obtain ⟨hall, rfl⟩ := (hgo s'').1.1 hrelease
          simp only [Except.ok.injEq]
          exact ⟨fun heq => ⟨hall, heq.symm⟩, fun heq => heq.2.symm⟩
      · cases hrelease : release holder { s with pending := forget s.pending holder g.seq } with
        | error fault => exact fun hcontra => by cases hcontra
        | ok s'' =>
          intro heq
          cases heq
          obtain ⟨hs'', hle⟩ := (hgo s'').2 hrelease
          exact ⟨hs''.retract, hle.trans hfewer.le⟩
    · simp [Encounter.Harmless, hschema]
    · -- the holder is written without what it named
      constructor
      · cases hput : documentPut host t o (clearedOf now s.pending holder g.seq
            (g.naming.filter fun r => namesId holder.data r.path doc.id)) g.seq (some g.source) s with
        | error fault => simp [Encounter.Harmless, hput, Except.isOk, Except.toBool]
        | ok s'' =>
          simp only [mem_singleton, forall_eq, Encounter.Harmless, hput, hschema, Except.isOk,
            Except.toBool, Except.toOption, Option.getD_some, Except.ok.injEq, true_and, and_self]
          exact eq_comm
      · intro hput
        exact h.put ho ht hholder hd₀ hcol (by rw [hsame.1]; exact hsource)
          (fun r hr => hnaming r (mem_of_mem_filter hr)) hput

include hc hown

variable (host now) in
/-- The deletion of what names a document goes on where what it meets is harmless: every level of a
cascade has one document fewer left. -/
theorem release_eq_ok_iff (fuel : ℕ) (hdoc : doc.collection = name)
    (h : Emptying host t o name due s) (hfuel : (remaining t o s.pending).card < fuel) (s' : Staged) :
    (release host t o now fuel doc s = .ok s' ↔
      (∀ e ∈ (releaseSwept host t o now fuel doc s).1, e.Harmless host t o) ∧
        s' = (releaseSwept host t o now fuel doc s).2) ∧
    (release host t o now fuel doc s = .ok s' → Emptying host t o name due s' ∧
      (remaining t o s'.pending).card ≤ (remaining t o s.pending).card) := by
  induction fuel generalizing due doc s s' with
  | zero => exact absurd hfuel (Nat.not_lt_zero _)
  | succ fuel ih =>
    unfold release releaseSwept
    cases hgathered : gatherNaming t o s.pending doc with
    | error fault =>
      have hnot : ¬∀ n ∈ namingOf t o s.pending doc, n.reference.onDelete ≠ .restrict := fun hall => by
        have := gatherNaming_eq_ok_iff.2 ⟨hall, rfl⟩
        rw [hgathered] at this
        cases this
      refine ⟨⟨fun hcontra => ?_, fun hall => absurd (fun n hn => ?_) hnot⟩, fun hcontra => ?_⟩
      · cases hcontra
      swap
      · cases hcontra
      exact hall.1 (.named n) (mem_append_left _ (List.mem_map_of_mem hn))
    | ok gathered =>
      obtain ⟨hnames, rfl⟩ := gatherNaming_eq_ok_iff.1 hgathered
      have hfits := gatherNaming_fits ho ht hgathered
      -- every document gathered is one of the collection
      have hstep : ∀ g ∈ (namingOf t o s.pending doc).foldl gatherNamed [], ∀ s₁,
          (Emptying host t o name due s₁ ∧
            (remaining t o s₁.pending).card ≤ (remaining t o s.pending).card) → ∀ s₂,
          (releaseHolder host t o now (release host t o now fuel) doc s₁ g = .ok s₂ ↔
            (∀ e ∈ (holderSwept host t o now (releaseSwept host t o now fuel) doc s₁ g).1,
              e.Harmless host t o) ∧
              s₂ = (holderSwept host t o now (releaseSwept host t o now fuel) doc s₁ g).2) ∧
          (releaseHolder host t o now (release host t o now fuel) doc s₁ g = .ok s₂ →
            Emptying host t o name due s₂ ∧
              (remaining t o s₂.pending).card ≤ (remaining t o s₁.pending).card) := by
        intro g hg s₁ hs₁ s₂
        obtain ⟨⟨d, hd, hsource⟩, hnaming⟩ := hfits g hg
        obtain ⟨n, hn, hseq⟩ := (seq_of_gathered hg).resolve_left (by simp)
        obtain ⟨d', hd', hcol⟩ := collection_of_naming ho ht hc hown hdoc hn
        rw [hseq, hd] at hd'
        cases hd'
        exact releaseHolder_eq_ok_iff ho ht hs₁.1 hd hcol hsource hnaming
          fun hholder hs' hfewer s'' => ih hholder hs' (by omega) s''
      have hfold := foldlM_eq_ok_iff_sweep (fun g hg s₁ hs₁ s₂ => (hstep g hg s₁ hs₁ s₂).1)
        (fun g hg s₁ s₂ hs₁ hok => by
          obtain ⟨hs₂, hle⟩ := (hstep g hg s₁ hs₁ s₂).2 hok
          exact ⟨hs₂, hle.trans hs₁.2⟩) ⟨h, le_rfl⟩ (u := s')
      dsimp only
      constructor
      · rw [hfold, forall_mem_append, List.forall_mem_map]
        exact ⟨fun hok => ⟨⟨hnames, hok.1⟩, hok.2⟩, fun hok => ⟨hok.1.2, hok.2⟩⟩
      · exact foldlM_ok_induct (fun g hg s₁ s₂ hs₁ hok => by
          obtain ⟨hs₂, hle⟩ := (hstep g hg s₁ hs₁ s₂).2 hok
          exact ⟨hs₂, hle.trans hs₁.2⟩)
          (J := fun s₁ => Emptying host t o name due s₁ ∧
            (remaining t o s₁.pending).card ≤ (remaining t o s.pending).card) ⟨h, le_rfl⟩


variable (host now) in
lemma applyDelete_eq_ok_iff (h : Emptying host t o name [] s) (doc : Document) (s' : Staged) :
    (applyDelete host t o now name doc.id none [] s = .ok s' ↔
      (∀ e ∈ (deleteSwept host t o now name s doc).1, e.Harmless host t o) ∧
        s' = (deleteSwept host t o now name s doc).2) ∧
    (applyDelete host t o now name doc.id none [] s = .ok s' → Emptying host t o name [] s' ∧
      (remaining t o s'.pending).card ≤ (remaining t o s.pending).card ∧
      ((∃ q d, currentNamed t o s.pending name doc.id = some (q, some d)) →
        (remaining t o s'.pending).card < (remaining t o s.pending).card)) := by
  unfold applyDelete deleteSwept
  cases hnamed : currentNamed t o s.pending name doc.id with
  | none => simpa [eq_comm] using fun heq => heq ▸ ⟨h, le_rfl⟩
  | some found =>
    obtain ⟨seq, current⟩ := found
    cases current with
    | none => simpa [eq_comm] using fun heq => heq ▸ ⟨h, le_rfl⟩
    | some current =>
      obtain ⟨hcurr, hcol, -⟩ := (h.within.names _ _ (ho.name_of_load hc).2 _ _).1 hnamed
      obtain ⟨d₀, hd₀, hcol₀⟩ : ∃ d₀, docAt t o seq = some d₀ ∧ d₀.collection = name := by
        cases hby : s.pending.bySeq seq with
        | none => exact ⟨current, by rwa [curr_of_none hby] at hcurr, hcol⟩
        | some written => exact h.own seq written hby
      obtain ⟨hforgot, hfewer⟩ := h.forget ho hcurr hd₀ hcol₀
      have hgo := release_eq_ok_iff host now ho ht hc hown (o.held.entries.length + 1) hcol hforgot
        (hfewer.trans_le ((remaining_le _).trans (Nat.le_succ _)))
      have hexpect : expect name current none [] = .ok () := rfl
      dsimp only
      simp only [hexpect, ok_bind, releaseReferences]
      cases hrelease : release host t o now (o.held.entries.length + 1) current
          { s with pending := forget s.pending current seq } with
      | error fault =>
        refine ⟨⟨fun hcontra => ?_, fun hall => ?_⟩, fun hcontra => ?_⟩
        · cases hcontra
        · rw [(hgo _).1.2 ⟨hall.1, rfl⟩] at hrelease
          cases hrelease
        · cases hcontra
      | ok released =>
        obtain ⟨hall, rfl⟩ := (hgo _).1.1 hrelease
        obtain ⟨hreleased, hle⟩ := (hgo _).2 hrelease
        refine ⟨⟨fun heq => ⟨hall, ?_⟩, fun heq => ?_⟩, fun heq => ?_⟩
        · cases heq
          rfl
        · rw [heq.2]
          rfl
        · cases heq
          obtain ⟨hagain, hsame⟩ := hreleased.forgetAgain
          have hlt := hle.trans_lt hfewer
          rw [← hsame] at hlt
          exact ⟨hagain.retract, hlt.le, fun _ => hlt⟩

variable (host now) in
lemma dropPage_eq_ok_iff (s' : Staged) : ((dropPage t o name).foldlM (fun s (doc : Document) =>
        applyDelete host t o now name doc.id none [] s) {} = .ok s' ↔
      (∀ e ∈ (pageSwept host t o now name).1, e.Harmless host t o) ∧ s' = (pageSwept host t o now name).2) ∧
    ((dropPage t o name).foldlM (fun s (doc : Document) =>
        applyDelete host t o now name doc.id none [] s) {} = .ok s' → Emptying host t o name [] s' ∧
      (dropPage t o name ≠ [] → (remaining t o s'.pending).card < (remaining t o {}).card)) := by
  have hstep := fun (doc : Document) s (hs : Emptying host t o name [] s) s' =>
    applyDelete_eq_ok_iff host now ho ht hc hown hs doc s'
  have hstart : Emptying host t o name [] {} := Emptying.start ho ht
  refine ⟨foldlM_eq_ok_iff_sweep (J := Emptying host t o name []) (fun doc _ s hs s' =>
    (hstep doc s hs s').1) (fun doc _ s s' hs hok => ((hstep doc s hs s').2 hok).1) hstart,
    fun hok => ?_⟩
  have hrest : ∀ {l : List Document} {s s'}, Emptying host t o name [] s →
      l.foldlM (fun s (doc : Document) => applyDelete host t o now name doc.id none [] s) s =
        .ok s' → Emptying host t o name [] s' ∧
          (remaining t o s'.pending).card ≤ (remaining t o s.pending).card := by
    intro l s s' hs hok
    refine foldlM_ok_induct (J := fun s₁ => Emptying host t o name [] s₁ ∧
      (remaining t o s₁.pending).card ≤ (remaining t o s.pending).card) ?_ ⟨hs, le_rfl⟩ hok
    intro doc _ s₁ s₂ hs₁ hdelete
    obtain ⟨hs₂, hle, -⟩ := (hstep doc s₁ hs₁.1 s₂).2 hdelete
    exact ⟨hs₂, hle.trans hs₁.2⟩
  refine ⟨(hrest hstart hok).1, fun hne => ?_⟩
  obtain ⟨doc, page, hpage⟩ := exists_cons_of_ne_nil hne
  rw [hpage, foldlM_cons] at hok
  obtain ⟨s₁, hdelete, hok⟩ := bind_eq_ok_iff.1 hok
  obtain ⟨hs₁, -, hlt⟩ := (hstep doc {} hstart s₁).2 hdelete
  -- the first document of the page is there
  have hmem : doc ∈ (documentSeqs t o name).filterMap (readDocument o) :=
    mem_of_mem_take (show doc ∈ dropPage t o name by rw [hpage]; exact mem_cons_self)
  obtain ⟨q, hq, hread⟩ := mem_filterMap.1 hmem
  obtain ⟨d, hd, hcol⟩ := (mem_documentSeqs ho ht (ho.name_of_load hc).2).1 hq
  rw [readDocument_of_docAt hd] at hread
  cases hread
  exact (hrest hs₁ hok).2.trans_lt (hlt ⟨q, doc, (hstart.within.names _ _
    (ho.name_of_load hc).2 q doc).2 ⟨hd, hcol, rfl⟩⟩)

end

/-! ## Pages -/

/-- What deleting documents of a collection leaves as it is. -/
structure Cleared (t : TenantId) (name : Utf16) (o o' : Objects Record) : Prop where
  kept : Kept o'
  load : ∀ t' n, loadCollection t' o' n = loadCollection t' o n
  others : ∀ q, (∀ d, docAt t o q = some d → d.collection ≠ name) → o'.held.get q = o.held.get q
  own : ∀ q d, docAt t o q = some d → d.collection = name →
    o'.held.get q = none ∨ ∃ d', docAt t o' q = some d' ∧ d'.collection = name

lemma Cleared.refl (ho : Kept o) : Cleared t name o o :=
  ⟨ho, fun _ _ => rfl, fun _ _ => rfl, fun _ d hd hcol => .inr ⟨d, hd, hcol⟩⟩

lemma Cleared.trans (h : Cleared t name o o₁) (h' : Cleared t name o₁ o₂) : Cleared t name o o₂ where
  kept := h'.kept
  load t' n := (h'.load t' n).trans (h.load t' n)
  others q hq := by
    rw [h'.others q fun d hd => hq d ?_, h.others q hq]
    unfold docAt at hd ⊢
    rwa [h.others q hq] at hd
  own q d hd hcol := by
    rcases h.own q d hd hcol with hnone | ⟨d', hd', hcol'⟩
    · left
      rw [h'.others q fun d' hd' => ?_, hnone]
      obtain ⟨held, hheld, -⟩ := docAt_eq_some.1 hd'
      rw [hnone] at hheld
      cases hheld
    · exact h'.own q d' hd' hcol'

lemma Emptying.cleared {s : Staged} (ho : Kept o) (ht : TenantOk t)
    (h : Emptying host t o name [] s) : Cleared t name o (o.commit s.writes) ∧
      (remaining t (o.commit s.writes) {}).card = (remaining t o s.pending).card := by
  refine ⟨⟨h.within.kept_commit ho ht, h.within.load_commit ho, fun q hq => ?_, fun q d hd hcol => ?_⟩, ?_⟩
  · refine h.within.kept q ?_
    cases hby : s.pending.bySeq q with
    | none => rfl
    | some written =>
      obtain ⟨d, hd, hcol⟩ := h.own q written hby
      exact absurd hcol (hq d hd)
  · rw [h.within.docAt_commit]
    cases hcurr : curr t o s.pending q with
    | some d' => exact .inr ⟨d', rfl, (h.within.same_of_curr hcurr hd).1.trans hcol⟩
    | none =>
      left
      cases hby : s.pending.bySeq q with
      | none =>
        rw [curr_of_none hby, hd] at hcurr
        cases hcurr
      | some written =>
        rw [curr_of_some hby] at hcurr
        subst hcurr
        exact h.within.gone q hby (by simp)
  · congr 1
    ext q
    rw [h.mem_remaining, Db.mem_remaining fun q doc hby => by cases hby]
    exact exists_congr fun d => by rw [curr_of_none rfl, h.within.docAt_commit]

lemma pageSwept_of_nil (hpage : dropPage t o name = []) : pageSwept host t o now name = ([], {}) := by
  unfold pageSwept
  rw [hpage]
  rfl

lemma afterPages_of_nil (hpage : dropPage t o name = []) (n : ℕ) : afterPages host t now name n o = o := by
  induction n with
  | zero => rfl
  | succ n ih =>
    unfold afterPages
    rw [pageSwept_of_nil hpage]
    exact ih

def Unopposed (host : Host) (t : TenantId) (o : Objects Record) (now name : Utf16) : Prop :=
  ∀ n, ∀ e ∈ (pageSwept host t (afterPages host t now name n o) now name).1,
    e.Harmless host t (afterPages host t now name n o)

variable (host now) in
/-- A collection that no other one references is emptied where what its deletion meets is harmless:
a page takes documents off, so the pages come to an end. -/
theorem emptied_eq_none_iff (ht : TenantOk t) (fuel : ℕ) (ho : Kept o)
    (hc : loadCollection t o name = some c) (hown : ∀ back ∈ c.referencedBy, back.collection = name)
    (hfuel : (remaining t o {}).card < fuel) :
    ((emptied host t now name fuel o).1 = none ↔ Unopposed host t o now name) ∧
      ((emptied host t now name fuel o).1 = none → Cleared t name o (emptied host t now name fuel o).2) := by
  induction fuel generalizing o with
  | zero => exact absurd hfuel (Nat.not_lt_zero _)
  | succ fuel ih =>
    unfold emptied
    cases hpage : dropPage t o name with
    | nil =>
      refine ⟨⟨fun _ n e he => ?_, fun _ => rfl⟩, fun _ => .refl ho⟩
      rw [afterPages_of_nil hpage, pageSwept_of_nil hpage] at he
      exact absurd he not_mem_nil
    | cons doc rest =>
      have hgo := dropPage_eq_ok_iff host now ho ht hc hown
      rw [hpage] at hgo
      dsimp only
      cases hdeleted : (doc :: rest).foldlM (fun s (doc : Document) =>
          applyDelete host t o now name doc.id none [] s) {} with
      | error fault =>
        refine ⟨⟨fun hcontra => ?_, fun hall => ?_⟩, fun hcontra => ?_⟩
        · cases hcontra
        · rw [(hgo _).1.2 ⟨hall 0, rfl⟩] at hdeleted
          cases hdeleted
        · cases hcontra
      | ok s =>
        obtain ⟨hall, hswept⟩ := (hgo s).1.1 hdeleted
        obtain ⟨hs, hlt⟩ := (hgo s).2 hdeleted
        obtain ⟨hcleared, hcard⟩ := hs.cleared ho ht
        have hnext : ∀ n, afterPages host t now name (n + 1) o =
            afterPages host t now name n (o.commit s.writes) := by
          intro n
          rw [hswept]
          rfl
        obtain ⟨hiff, hleft⟩ := ih hcleared.kept ((hcleared.load _ _).trans hc) (by
          rw [hcard]
          exact Nat.lt_of_lt_of_le (hlt (by simp)) (Nat.le_of_lt_succ hfuel))
        dsimp only
        refine ⟨hiff.trans ⟨fun hrest n => ?_, fun hall n => ?_⟩, fun hnone =>
          hcleared.trans (hleft hnone)⟩
        · cases n with
          | zero => exact hall
          | succ n =>
            rw [hnext]
            exact hrest n
        · have := hall (n + 1)
          rwa [hnext] at this

end

/-! ## What is asked of a drop -/

def Referenced (t : TenantId) (o : Objects Record) (name : Utf16) : Prop :=
  ∃ other a r, other ≠ name ∧ loadCollection t o other = some a ∧ r ∈ a.references ∧ r.collection = name

def ListsOther (c : StoredCollection) (name : Utf16) : Prop :=
  ∃ back ∈ c.referencedBy, back.collection ≠ name

/-- Nothing of a collection is left, and every other document is as it was. -/
structure DroppedWhole (t : TenantId) (name : Utf16) (o o' : Objects Record) : Prop where
  documents : ∀ q h id, o'.held.get q = some h → h.identity ≠ some ⟨documentNs t name, id⟩
  identities : ∀ id, o'.named ⟨documentNs t name, id⟩ = none
  record : o'.named ⟨collectionNs t, name⟩ = none ∧ loadCollection t o' name = none
  postings : ∀ q man, o'.manifests q = some man → ∀ column ∈ man.columns, ¬OwnColumn t name column
  others : ∀ q h d, o.held.get q = some h → h.body = .document d →
    (∀ id, h.identity ≠ some ⟨documentNs t name, id⟩) → o'.held.get q = some h
  old : ∀ q h d, o'.held.get q = some h → h.body = .document d → o.held.get q = some h

/-- A collection that no other one references is dropped whole; one that another references is
refused, and nothing changes. -/
def DropsWhole (host : Host) (t : TenantId) (o : Objects Record) (now name : Utf16) : Prop :=
  (¬Referenced t o name → (dropCollection host t o now name).1 = none ∧
    DroppedWhole t name o (dropCollection host t o now name).2) ∧
  (Referenced t o name → (dropCollection host t o now name).1 ≠ none ∧
    (dropCollection host t o now name).2 = o)

variable {column : Utf16 × OrderedScalar} {h : Held Record}

section

variable {host : Host} {t : TenantId} {o : Objects Record} {now name : Utf16}

lemma ownColumn_unique {t' : TenantId} {c : Utf16}
    (ht : TenantOk t) (ht' : TenantOk t') (hname : isName name = true) (hc : isName c = true)
    (h : OwnColumn t name column) (h' : OwnColumn t' c column) : t = t' ∧ name = c := by
  rcases h with rfl | ⟨path, hpath⟩ | ⟨index, salt, bytes, rfl⟩
  · rcases h' with heq | ⟨path, heq⟩ | ⟨index, salt, bytes, heq⟩
    · obtain ⟨hcolumn, hvalue⟩ := Prod.mk.inj heq
      exact ⟨append_cancel_left hcolumn, OrderedScalar.string.inj hvalue⟩
    · exact absurd heq.symm (columnFor_ne_collectionColumn ht')
    · exact absurd (Prod.mk.inj heq).1.symm (indexColumnFor_ne_collectionColumn ht')
  · obtain ⟨column, value⟩ := column
    subst hpath
    exact eq_of_ownColumn ht ht' hname hc h'
  · rcases h' with heq | ⟨path, heq⟩ | ⟨index', salt', bytes', heq⟩
    · exact absurd (Prod.mk.inj heq).1 (indexColumnFor_ne_collectionColumn ht)
    · exact absurd heq (indexColumnFor_ne_columnFor ht ht' hname hc)
    · have heq := (Prod.mk.inj heq).1
      rw [indexColumnFor_eq, indexColumnFor_eq] at heq
      obtain ⟨rfl, hrest⟩ := append_cons_inj ht.1 ht'.1 heq
      exact ⟨rfl, (name_append_inj hname hc (by decide) (by decide) hrest).1⟩

lemma Kept.docAt_of_ownColumn (ho : Kept o) (ht : TenantOk t) (hname : isName name = true)
    (hheld : o.held.get q = some h) (hcolumn : column ∈ h.manifest.columns) (hown : OwnColumn t name column) :
    ∃ d, docAt t o q = some d ∧ d.collection = name := by
  cases ho.shapes q h hheld with
  | collection t' c body identity _ _ columns =>
    obtain ⟨hfirst, hsecond⟩ := columns column hcolumn
    rcases hown with rfl | ⟨path, hpath⟩ | ⟨index, salt, bytes, rfl⟩
    · have hmarker : name = COLLECTION_MARKER := OrderedScalar.string.inj hsecond
      rw [hmarker] at hname
      exact absurd hname (by decide)
    · exact absurd (hpath.symm.trans hfirst) (columnFor_ne_collectionColumn ht)
    · exact absurd hfirst (indexColumnFor_ne_collectionColumn ht)
  | document t' d tenant body identity hname' _ columns =>
    obtain ⟨rfl, rfl⟩ := ownColumn_unique ht tenant hname hname' hown (columns column hcolumn)
    exact ⟨d, docAt_eq_some.2 ⟨h, hheld, body, identity⟩, rfl⟩
  | other i _ _ _ columns =>
    refine absurd ?_ (columns column hcolumn)
    rcases hown with rfl | ⟨path, hpath⟩ | ⟨index, salt, bytes, rfl⟩
    · simp [collectionColumn, utf16, SLASH]
    · rw [hpath]
      simp [columnFor, utf16, SLASH]
    · simp [indexColumnFor, utf16, SLASH]

lemma Kept.docAt_of_body (ho : Kept o)
    (hheld : o.held.get q = some h) (hbody : h.body = .document d) : ∃ t, docAt t o q = some d := by
  cases ho.shapes q h hheld with
  | collection t' c body _ _ _ _ =>
    rw [hbody] at body
    cases body
  | document t' d' _ body identity _ _ _ =>
    rw [hbody] at body
    cases body
    exact ⟨t', docAt_eq_some.2 ⟨h, hheld, hbody, identity⟩⟩
  | other i _ body _ _ => exact absurd hbody (body.2 d)

/-- A collection with no document and no record left, after changes of its own documents and of
records only. -/
theorem droppedWhole_of_cleared (ho : Kept o) (ht : TenantOk t) (hname : isName name = true)
    (hcleared : Cleared t name o o₁)
    (hnone : ∀ q d, docAt t o₁ q = some d → d.collection ≠ name) (hkept : Kept o₂)
    (hsame : SameDocuments o₁ o₂) (hload : loadCollection t o₂ name = none) : DroppedWhole t name o o₂ := by
  have hleft : ∀ q d, docAt t o₂ q = some d → d.collection ≠ name := fun q d hd =>
    hnone q d ((hsame.docAt t q).symm.trans hd)
  have hdocuments : ∀ q h id, o₂.held.get q = some h → h.identity ≠ some ⟨documentNs t name, id⟩ := by
    intro q h id hheld hid
    obtain ⟨d, hd, hcol, -⟩ := hkept.document_of_identity ht hheld hid
    exact hleft q d hd hcol
  refine ⟨hdocuments, fun id => ?_, ⟨?_, hload⟩, ?_, ?_, ?_⟩
  · cases hn : o₂.named ⟨documentNs t name, id⟩ with
    | none => rfl
    | some q =>
      obtain ⟨h, hheld, hid⟩ := (hkept.named _ _).1 hn
      exact absurd hid (hdocuments q h id hheld)
  · cases hn : o₂.named ⟨collectionNs t, name⟩ with
    | none => rfl
    | some q =>
      obtain ⟨c, hc⟩ := hkept.load_of_named hn
      rw [hload] at hc
      cases hc
  · intro q man hman column hcolumn hown
    obtain ⟨h, hheld, rfl⟩ := Option.map_eq_some_iff.1 hman
    obtain ⟨d, hd, hcol⟩ := hkept.docAt_of_ownColumn ht hname hheld hcolumn hown
    exact hleft q d hd hcol
  · intro q h d hheld hbody hother
    obtain ⟨t', hd⟩ := ho.docAt_of_body hheld hbody
    have hnot : ∀ d', docAt t o q = some d' → d'.collection ≠ name := by
      rintro d' hd' rfl
      exact hother _ (identity_of_docAt hd' hheld)
    have heq := hcleared.others q hnot
    have hd₁ : docAt t' o₁ q = some d := by
      unfold docAt at hd ⊢
      rwa [heq]
    rw [hsame.held t' q d hd₁, heq, hheld]
  · intro q h d hheld hbody
    obtain ⟨t', hd⟩ := hkept.docAt_of_body hheld hbody
    have hd₁ : docAt t' o₁ q = some d := (hsame.docAt t' q).symm.trans hd
    have hheld₁ : o₁.held.get q = some h := (hsame.held t' q d hd₁).symm.trans hheld
    rw [← hcleared.others q fun d₀ hd₀ hcol => ?_, hheld₁]
    rcases hcleared.own q d₀ hd₀ hcol with hgone | ⟨d', hd', hcol'⟩
    · rw [hheld₁] at hgone
      cases hgone
    · exact hnone q d' hd' hcol'

variable (host now) in
/-- A collection that lists no other one is dropped whole where its documents can be deleted. -/
theorem dropCollection_whole (ho : Kept o) (ht : TenantOk t)
    (hc : loadCollection t o name = some c) (hmoving : assertNotMoving t o = .ok ())
    (hown : ¬ListsOther c name) :
    ((dropCollection host t o now name).1 = none ↔ Unopposed host t o now name) ∧
      ((dropCollection host t o now name).1 = none →
        DroppedWhole t name o (dropCollection host t o now name).2) := by
  have hisName := (ho.name_of_load hc).2
  have hbacks : ∀ back ∈ c.referencedBy, back.collection = name := fun back hback => by
    by_contra hne
    exact hown ⟨back, hback, hne⟩
  have hfind : c.referencedBy.find? (fun back => back.collection ≠ name) = none := by
    simpa using hbacks
  obtain ⟨hiff, hcleared⟩ := emptied_eq_none_iff host now ht (o.held.entries.length + 1) ho hc hbacks
    (Nat.lt_succ_of_le (remaining_le _))
  obtain ⟨-, hempty⟩ := emptied_induct host now (P := Kept) ht hisName id
    (fun {o₁ ops s} hinserts hs hkept => by
      have hseqs := seqsOf_eq_nil hinserts
      obtain ⟨hw, -⟩ := foldlM_uses hkept ht (by rw [hseqs]; simp) (by rw [hseqs]; simp) hs
      exact hw.kept_commit hkept ht) ho (o.held.entries.length + 1)
  unfold dropCollection
  rw [hmoving, hc]
  dsimp only
  rw [hfind]
  dsimp only
  cases hemptied : emptied host t now name (o.held.entries.length + 1) o with
  | mk outcome o₁ =>
    rw [hemptied] at hiff hcleared hempty
    cases outcome with
    | some fault => exact ⟨hiff, fun hcontra => by cases hcontra⟩
    | none =>
      refine ⟨hiff, fun _ => ?_⟩
      have hcleared : Cleared t name o o₁ := hcleared rfl
      have hnone : ∀ q d, docAt t o₁ q = some d → d.collection ≠ name := hempty rfl
      -- the record is still there, and goes
      obtain ⟨seq, hseq⟩ := exists_named_of_load ((hcleared.load t name).trans hc)
      obtain ⟨o₂, hr, -, hdrop⟩ := dropWrites_eq (t := t) hcleared.kept c
      rw [(ho.name_of_load hc).1, hseq] at hdrop
      obtain ⟨seq', hseq', hdropped⟩ := hdrop.resolve_left fun h => by cases h.2
      cases hseq'
      have hseq₂ := hr.names _ _ _ hseq
      obtain ⟨held, hheld, hid⟩ := (hr.kept.named _ _).1 hseq₂
      have hsame := sameDocuments_retract hheld hid fun _ _ hns =>
        documentNs_ne_collectionNs hns.symm
      obtain ⟨hunmarked, hload⟩ := unmarkTenant_recordsOnly (t := t) 0
        (hr.kept.retract seq)
      dsimp only
      rw [hdropped]
      refine droppedWhole_of_cleared ho ht hisName hcleared hnone hunmarked.kept
        ((hr.documents.trans hsame).trans hunmarked.documents) ?_
      rw [hload, loadCollection_retract hr.kept.named, if_pos hseq₂]

end

/-! ## When a drop is whole -/

/-- In every state a run reaches: a drop does what is asked of it exactly where another collection
references the one dropped, or none is listed to, the tenant is not being moved, and while its
documents are deleted no document goes that another one still there names through a reference that
restricts it, and no document that is cleared is refused as it then is. -/
theorem drops_iff {host : Host} {C : World → TenantId → Utf16 → List DocumentWrite → Prop} {w : World}
    (h : Reached host C w) {t : TenantId} (ht : TenantOk t) {now name : Utf16} {c : StoredCollection}
    (hc : loadCollection t w.store name = some c) :
    DropsWhole host t w.store now name ↔ Referenced t w.store name ∨
      assertNotMoving t w.store = .ok () ∧ ¬ListsOther c name ∧ Unopposed host t w.store now name := by
  have hkept := h.sound.kept
  -- what references the collection is listed by it, and the drop is refused
  have hrefused : ListsOther c name → (dropCollection host t w.store now name).1 ≠ none ∧
      (dropCollection host t w.store now name).2 = w.store := by
    rintro ⟨back, hback, hne⟩
    unfold dropCollection
    rw [hc]
    split
    · exact ⟨by simp, rfl⟩
    next hload _ => cases hload
    next hload =>
      cases hload
      split
      · exact ⟨by simp, rfl⟩
      next hfind => exact absurd (by simpa using List.find?_eq_none.1 hfind back hback) hne
  have hlisted : Referenced t w.store name → ListsOther c name := by
    rintro ⟨other, a, r, hne, ha, hr, rfl⟩
    obtain ⟨b, hb, hback⟩ := h.allLists t other a ha r hr
    rw [hc] at hb
    cases hb
    exact ⟨_, hback, hne⟩
  constructor
  · rintro ⟨hwhole, -⟩
    by_cases href : Referenced t w.store name
    · exact Or.inl href
    · right
      obtain ⟨hdropped, -⟩ := hwhole href
      have hother : ¬ListsOther c name := fun hother => (hrefused hother).1 hdropped
      cases hmoving : assertNotMoving t w.store with
      | error fault =>
        unfold dropCollection at hdropped
        rw [hmoving] at hdropped
        cases hdropped
      | ok u => exact ⟨rfl, hother, (dropCollection_whole host now hkept ht hc hmoving hother).1.1 hdropped⟩
  · rintro (href | ⟨hmoving, hother, hunopposed⟩)
    · exact ⟨fun hnot => absurd href hnot, fun _ => hrefused (hlisted href)⟩
    · obtain ⟨hiff, hwhole⟩ := dropCollection_whole host now hkept ht hc hmoving hother
      exact ⟨fun _ => ⟨hiff.2 hunopposed, hwhole (hiff.2 hunopposed)⟩,
        fun href => absurd (hlisted href) hother⟩

def selfNaming (onDelete : OnDelete) : CollectionInput where
  name := utf16 "a"
  references := [{ name := utf16 "r", path := utf16 "r", collection := utf16 "a", onDelete }]

def selfNamed (onDelete : OnDelete) : World where
  store := (createCollection (utf16 "t") .empty [] (fun _ => utf16 "s")
    (selfNaming onDelete)).2.nextSeq.2.nextSeq.2
  reserved := [4, 3]

def twoNaming : List DocumentWrite :=
  [.insert (utf16 "a") (utf16 "x") [] .keep 3,
    .insert (utf16 "a") (utf16 "y") [(utf16 "r", .string (utf16 "x"))] .keep 4]

def selfHeld (onDelete : OnDelete) : Objects Record := linkStore (selfNamed onDelete).store twoNaming

lemma reached_selfHeld (onDelete : OnDelete)
    (hok : (writeDocuments plainHost (utf16 "t") (selfNamed onDelete).store []
      twoNaming).toOption.isSome = true) :
    Reached plainHost (fun _ _ _ _ => True) { selfNamed onDelete with
      store := selfHeld onDelete, reserved := [] } :=
  .step (.step (.step (.step .start (@World.Step.create plainHost _ {} (utf16 "t") []
    (fun _ => utf16 "s") (selfNaming onDelete) (by simp))) .reserve) .reserve)
    (.write ⟨by decide, by decide⟩ (show ∀ q ∈ seqsOf twoNaming, q ∈ [4, 3] by decide) (by decide)
      trivial (writeDocuments_linkStore _ twoNaming hok))

def recordedNames (o : Objects Record) : List Utf16 :=
  o.held.entries.filterMap fun e =>
    match e.2.body with
    | .collection c => some c.name
    | _ => none

lemma name_mem_recordedNames {o : Objects Record} {t : TenantId} {n : Utf16}
    (h : loadCollection t o n = some c) : c.name ∈ recordedNames o := by
  obtain ⟨held, hunder, hbody⟩ := loadCollection_eq_some.1 h
  obtain ⟨seq, -, hheld⟩ := Option.bind_eq_some_iff.1 hunder
  exact mem_filterMap.2 ⟨(seq, held), OrderedMap.mem_entries.2 hheld, by rw [hbody]⟩

lemma not_referenced {o : Objects Record} (ho : Kept o) {t : TenantId} {name : Utf16}
    (hnames : recordedNames o = [name]) : ¬Referenced t o name := by
  rintro ⟨other, a, r, hne, ha, -⟩
  have hmem := name_mem_recordedNames ha
  rw [hnames, (ho.name_of_load ha).1] at hmem
  exact hne (mem_singleton.1 hmem)

/-- A collection whose reference to itself restricts deletes: nothing but its own documents names
them, and the drop is refused. -/
theorem not_dropsWhole : ¬∀ (host : Host) (w : World) (t : TenantId) (now name : Utf16)
    (c : StoredCollection), Reached host (fun _ _ _ _ => True) w → TenantOk t →
    loadCollection t w.store name = some c → DropsWhole host t w.store now name := by
  intro hall
  obtain ⟨c, hc⟩ : ∃ c, loadCollection (utf16 "t") (selfHeld .restrict) (utf16 "a") = some c :=
    Option.isSome_iff_exists.1 (by decide +kernel)
  have hreached := reached_selfHeld .restrict (by decide +kernel)
  obtain ⟨hdropped, -⟩ := (hall plainHost _ (utf16 "t") [] (utf16 "a") c hreached
    ⟨by decide, by decide⟩ hc).1 (not_referenced hreached.sound.kept (by decide +kernel))
  have hrefused : (dropCollection plainHost (utf16 "t") (selfHeld .restrict) [] (utf16 "a")).1.isSome =
      true := by decide +kernel
  rw [hdropped] at hrefused
  cases hrefused

/-- A collection whose documents go with what they name, dropped with a document that names
another. -/
theorem drops_cascade : (documentSeqs (utf16 "t") (selfHeld .cascade) (utf16 "a")).length = 2 ∧
      DropsWhole plainHost (utf16 "t") (selfHeld .cascade) [] (utf16 "a") := by
  obtain ⟨c, hc⟩ : ∃ c, loadCollection (utf16 "t") (selfHeld .cascade) (utf16 "a") = some c :=
    Option.isSome_iff_exists.1 (by decide +kernel)
  have hbacks : (loadCollection (utf16 "t") (selfHeld .cascade) (utf16 "a")).map
      StoredCollection.referencedBy = some [⟨utf16 "a", utf16 "r"⟩] := by decide +kernel
  rw [hc] at hbacks
  refine ⟨by decide +kernel, (drops_iff (reached_selfHeld .cascade (by decide +kernel))
    ⟨by decide, by decide⟩ hc).2 (Or.inr ⟨?_, ?_, fun n => ?_⟩)⟩
  · have hnone : (selfHeld .cascade).lookup MOVE_FENCE_NAMESPACE (utf16 "t") = none := by
      decide +kernel
    show assertNotMoving (utf16 "t") (selfHeld .cascade) = .ok ()
    unfold assertNotMoving
    rw [hnone]
    rfl
  · rintro ⟨back, hback, hne⟩
    rw [Option.some.inj hbacks, List.mem_singleton] at hback
    exact hne (by rw [hback])
  · cases n with
    | zero => decide +kernel
    | succ n =>
      -- one page takes both documents
      have hempty : dropPage (utf16 "t") (afterPages plainHost (utf16 "t") [] (utf16 "a") 1
          (selfHeld .cascade)) (utf16 "a") = [] := List.isEmpty_iff.1 (by decide +kernel)
      have hafter : afterPages plainHost (utf16 "t") [] (utf16 "a") (n + 1) (selfHeld .cascade) =
          afterPages plainHost (utf16 "t") [] (utf16 "a") 1 (selfHeld .cascade) :=
        afterPages_of_nil hempty n
      intro e he
      dsimp only at he
      rw [hafter, pageSwept_of_nil hempty] at he
      exact absurd he List.not_mem_nil

end Zelavis.Db
