import Zelavis.Db.Migrations

/-!
# Migrations, over every run
-/

namespace Zelavis.Db

open Lib List

/-! ## Data read back -/

lemma ownMember_rereadMembers (data : JsonObject) (name : Utf16) :
    ownMember (rereadMembers data) name = (ownMember data name).map reread := by
  induction data with
  | nil => rfl
  | cons m data ih =>
    obtain ⟨k, v⟩ := m
    rw [rereadMembers, ownMember, ownMember, ih]
    split_ifs
    · rfl
    · rfl

lemma acceptsData_reread (fields : List CollectionFieldEntry) (data : JsonObject) :
    acceptsData fields (rereadMembers data) = acceptsData fields data := by
  have hmember : ∀ (field : CollectionField) (v : Option Json),
      field.acceptsMember (v.map reread) = field.acceptsMember v := by
    intro field v
    cases v with
    | none => rfl
    | some v => exact field.accepts_reread v
  unfold acceptsData
  congr 1
  · rw [rereadMembers_eq, List.all_map]
    rfl
  · simp only [ownMember_rereadMembers, hmember]

lemma acceptsData_congr {fields : List CollectionFieldEntry} {data data' : JsonObject}
    (h : reread (.object data) = reread (.object data')) :
    acceptsData fields data = acceptsData fields data' := by
  rw [← acceptsData_reread fields data, Json.object.inj h, acceptsData_reread]

/-! ## One document written -/

section

variable {host : Host} {t : TenantId} {o store : Objects Record} {now collection id : Utf16}
  {data : JsonObject}

lemma docAt_update (ho : Kept o) (ht : TenantOk t)
    (h : writeDocuments host t o now [.update collection id data .replace none []] = .ok store) :
    Kept store ∧ ∃ q current next, docAt t o q = some current ∧ current.collection = collection ∧
      current.id = id ∧ next.collection = collection ∧ next.id = id ∧ next.data = data ∧
      ∀ q', docAt t store q' = if q' = q then some next else docAt t o q' := by
  obtain ⟨s, hfold, rfl⟩ := writeDocuments_eq_ok h
  have hops : seqsOf [.update collection id data .replace none []] = [] := rfl
  obtain ⟨hw, -⟩ := foldlM_uses ho ht (fun q hq => by rw [hops] at hq; cases hq)
    (by rw [hops]; exact nodup_nil) hfold
  refine ⟨hw.kept_commit ho ht, ?_⟩
  obtain ⟨s', hs', hfold⟩ := bind_eq_ok_iff.1 hfold
  cases hfold
  have hs' : applyUpdate host t o now collection id data .replace none [] .keep {} = .ok s := hs'
  have hstart : Within host t o [] [] {} := Within.start ho ht []
  have hnamed : ∃ q current, currentNamed t o ({} : Staged).pending collection id =
      some (q, some current) := by
    unfold applyUpdate at hs'
    split at hs'
    · next q current hnamed => exact ⟨q, current, hnamed⟩
    · cases hs'
  obtain ⟨q, current, hnamed⟩ := hnamed
  have hcurrent : docAt t o q = some current := hstart.curr_of_named ho ht hnamed
  have hname : isName collection = true := by
    obtain ⟨q', hq', heq⟩ := Option.map_eq_some_iff.1 hnamed
    obtain ⟨d, hd, hc, -⟩ := (ho.named_iff ht).1 hq'
    rw [← hc]
    exact ho.isName_of_docAt hd
  obtain ⟨-, hc, hid⟩ := (hstart.names collection id hname q current).1 hnamed
  obtain ⟨expiresAt, hput⟩ := applyUpdate_eq_ok hnamed hs'
  obtain ⟨edges, manifest, -, -, rfl⟩ := documentPut_eq_ok (Option.none_or ..) hput
  refine ⟨q, current, { current with
    data, updatedAt := now, version := current.version + 1, expiresAt }, hcurrent, hc, hid, hc, hid,
    rfl, fun q' => ?_⟩
  rw [hw.docAt_commit]
  by_cases hq : q' = q
  · rw [if_pos hq]
    exact curr_of_some (by rw [hq]; exact if_pos rfl)
  · rw [if_neg hq]
    exact curr_of_none (if_neg hq)

/-- A document's new data can be written as it stands: the tenant is not moving, the document is
there, and its collection's constraints allow it. -/
structure Placeable (host : Host) (t : TenantId) (o : Objects Record) (now collection id : Utf16)
    (data : JsonObject) : Prop where
  finite : validateDocumentData collection data = .ok ()
  still : assertNotMoving t o = .ok ()
  place : ∃ q current edges manifest, currentNamed t o {} collection id = some (q, some current) ∧
    enforceConstraints t o (loadCollection t o current.collection)
      { current with data, updatedAt := now, version := current.version + 1 } q {} = .ok edges ∧
    manifestFor host t { current with data, updatedAt := now, version := current.version + 1 }
      (loadCollection t o current.collection) edges = some manifest

lemma writeDocuments_of_placeable (h : Placeable host t o now collection id data)
    (hschema : host.satisfiesSchema collection data = true) :
    ∃ store, writeDocuments host t o now [.update collection id data .replace none []] = .ok store := by
  obtain ⟨q, current, edges, manifest, hnamed, hedges, hmanifest⟩ := h.place
  have hput : ∃ s, documentPut host t o
      { current with data, updatedAt := now, version := current.version + 1 } q none {} = .ok s := by
    unfold documentPut
    rw [Option.none_or]
    dsimp only
    rw [hedges]
    dsimp only
    rw [hmanifest]
    exact ⟨_, rfl⟩
  obtain ⟨s, hput⟩ := hput
  have happly : applyUpdate host t o now collection id data .replace none [] .keep {} = .ok s := by
    unfold applyUpdate
    rw [hnamed]
    show (expect collection current none [] >>= _) = _
    have hexpect : expect collection current none [] = .ok () := rfl
    show (validateDocumentData collection data >>= _) = _
    rw [h.finite]
    show (if host.satisfiesSchema collection data = false then _ else _) = _
    rw [hschema, if_neg (by decide)]
    exact hput
  have hvalidate : [DocumentWrite.update collection id data .replace none []].forM
      DocumentWrite.validate = .ok () := by
    show (validateDocumentData collection data >>= fun _ => pure ()) = _
    rw [h.finite]
    rfl
  have hall : applyAll host t o now [.update collection id data .replace none []] = .ok s := by
    unfold applyAll
    rw [h.still]
    show (applyUpdate host t o now collection id data .replace none [] .keep {} >>= fun s => pure s) = _
    rw [happly]
    rfl
  refine ⟨o.commit s.writes, ?_⟩
  unfold writeDocuments
  rw [if_neg (by simp [MAX_BATCH]), hvalidate]
  rw [hall]
  rfl

end

/-! ## Every phase -/

section

variable (digits : JsNumber → Utf16) (host : Host) (t : TenantId) (collection : Utf16)
  (input : MigrateInput)

/-- Where the migration's next step writes a document, it can be written as it stands, and where the
new version is to stay inactive, the one that is active accepts it. -/
def Migration.Lands (now : Utf16) (w : Migration) : Prop :=
  ∀ plan id data rest, w.phase = .writing plan ((id, data) :: rest) →
    Placeable host t w.store now collection id data ∧
    (input.activate = false → w.schemas.validate collection data = true)

/-- Anything else leaves the documents of the collection and its active version alone, and takes no
version of it back. -/
structure Migration.LeavesAlone (w w' : Migration) : Prop where
  docs : ∀ q d, d.collection = collection → (docAt t w'.store q = some d ↔ docAt t w.store q = some d)
  active : w'.schemas.active collection = w.schemas.active collection
  versions : ∀ version fields, w.schemas.versions collection version = some fields →
    w'.schemas.versions collection version = some fields

/-- Nothing has been changed yet. -/
structure Migration.Untouched (w w₀ : Migration) : Prop where
  docs : ∀ q d, d.collection = collection → (docAt t w.store q = some d ↔ docAt t w₀.store q = some d)
  wrote : w.wrote = []
  activated : w.activated = false

/-- The documents of the collection are among those read and those to be read. -/
structure Migration.Collected (w : Migration) (seqs : List Seq) (docs : List Document) : Prop where
  read : ∀ d ∈ docs, d.collection = collection ∧ ∃ q, docAt t w.store q = some d
  found : ∀ q ∈ seqs, ∃ d, docAt t w.store q = some d ∧ d.collection = collection
  all : ∀ q d, docAt t w.store q = some d → d.collection = collection → q ∈ seqs ∨ d ∈ docs

/-- The documents of the collection are transformed, or are to be, or are alike as they are. -/
structure Migration.Transforms (w w₀ : Migration) (target : List CollectionFieldEntry)
    (pending : List (Utf16 × JsonObject)) : Prop where
  valid : ∀ q d, docAt t w₀.store q = some d → d.collection = collection →
    acceptsData target (migrated input target d) = true
  standing : ∀ q d, docAt t w.store q = some d → d.collection = collection →
    ∃ d₀, docAt t w₀.store q = some d₀ ∧ d₀.collection = collection ∧ d.id = d₀.id ∧
      (d.data = migrated input target d₀ ∨ (d.data = d₀.data ∧
        (writtenAlike digits input target d₀ = true ∨ (d.id, migrated input target d₀) ∈ pending)))
  asked : ∀ p ∈ pending, ∃ q d₀, docAt t w₀.store q = some d₀ ∧ d₀.collection = collection ∧
    p = (d₀.id, migrated input target d₀)

/-- The new version is saved, and active if it is to be. -/
structure Migration.Switched (w : Migration) (target : List CollectionFieldEntry) : Prop where
  saved : w.schemas.versions collection input.target = some target
  active : input.activate = true → w.schemas.active collection = some input.target

def MigrationPhase.Holds (w w₀ : Migration) : MigrationPhase → Prop
  | .asked => w.Untouched t collection w₀
  | .targeted target => w.Untouched t collection w₀ ∧
    w.schemas.versions collection input.target = some target
  | .comparing target _ => w.Untouched t collection w₀ ∧
    w.schemas.versions collection input.target = some target
  | .listing target _ _ => w.Untouched t collection w₀ ∧
    w.schemas.versions collection input.target = some target
  | .collecting target _ _ seqs docs => w.Untouched t collection w₀ ∧
    w.schemas.versions collection input.target = some target ∧ w.Collected t collection seqs docs
  | .activating plan => w.Untouched t collection w₀ ∧
    plan.result.failures = [] ∧ input.dryRun = false ∧
    ∃ target, w.schemas.versions collection input.target = some target ∧
      w.Transforms digits t collection input w₀ target plan.pending
  | .writing plan pending => plan.result.failures = [] ∧ input.dryRun = false ∧
    ∃ target, w.Switched collection input target ∧ w.Transforms digits t collection input w₀ target pending
  | .done (.error _) => w.wrote = [] ∧ w.activated = false
  | .done (.ok result) => (w.wrote = [] ∧ w.activated = false ∧
      (result.failures ≠ [] ∨ input.dryRun = true)) ∨
    (result.failures = [] ∧ input.dryRun = false ∧ ∃ target, w.Switched collection input target ∧
      w.Transforms digits t collection input w₀ target [])

/-- What holds of every state of a run. -/
structure Migration.Sound (w w₀ : Migration) : Prop where
  kept : Kept w.store
  phase : w.phase.Holds digits t collection input w w₀

end

/-! ## Steps of anything else -/

variable {pending : List (Utf16 × JsonObject)} {docs : List Document} {seqs : List Seq}
  {before : List CollectionFieldEntry} {phase : MigrationPhase} {source : ℕ}

section

variable {digits : JsNumber → Utf16} {host : Host} {t : TenantId} {collection : Utf16}
  {input : MigrateInput} {w₀ w w' : Migration} {target : List CollectionFieldEntry}

lemma Migration.Untouched.other (h : w.Untouched t collection w₀)
    (ha : w.LeavesAlone t collection w') (hwrote : w'.wrote = w.wrote)
    (hactivated : w'.activated = w.activated) : w'.Untouched t collection w₀ where
  docs q d hd := (ha.docs q d hd).trans (h.docs q d hd)
  wrote := hwrote.trans h.wrote
  activated := hactivated.trans h.activated

lemma Migration.Collected.other
    (h : w.Collected t collection seqs docs) (ha : w.LeavesAlone t collection w') :
    w'.Collected t collection seqs docs where
  read d hd := by
    obtain ⟨hc, q, hq⟩ := h.read d hd
    exact ⟨hc, q, (ha.docs q d hc).2 hq⟩
  found q hq := by
    obtain ⟨d, hd, hc⟩ := h.found q hq
    exact ⟨d, (ha.docs q d hc).2 hd, hc⟩
  all q d hd hc := h.all q d ((ha.docs q d hc).1 hd) hc

lemma Migration.Transforms.other (h : w.Transforms digits t collection input w₀ target pending)
    (ha : w.LeavesAlone t collection w') : w'.Transforms digits t collection input w₀ target pending where
  valid := h.valid
  standing q d hd hc := h.standing q d ((ha.docs q d hc).1 hd) hc
  asked := h.asked

lemma Migration.Switched.other (h : w.Switched collection input target)
    (ha : w.LeavesAlone t collection w') : w'.Switched collection input target where
  saved := ha.versions _ _ h.saved
  active hactivate := ha.active.trans (h.active hactivate)

/-- What holds in a phase goes on holding beside anything else that leaves the collection alone. -/
theorem MigrationPhase.Holds.other
    (h : phase.Holds digits t collection input w w₀) (ha : w.LeavesAlone t collection w')
    (hwrote : w'.wrote = w.wrote) (hactivated : w'.activated = w.activated) :
    phase.Holds digits t collection input w' w₀ := by
  cases phase with
  | asked => exact Migration.Untouched.other h ha hwrote hactivated
  | targeted | comparing | listing => exact ⟨h.1.other ha hwrote hactivated, ha.versions _ _ h.2⟩
  | collecting target source before seqs docs =>
    obtain ⟨huntouched, hsaved, hcollected⟩ := h
    exact ⟨huntouched.other ha hwrote hactivated, ha.versions _ _ hsaved, hcollected.other ha⟩
  | activating plan =>
    obtain ⟨huntouched, hfailures, hdry, target, hsaved, htransforms⟩ := h
    exact ⟨huntouched.other ha hwrote hactivated, hfailures, hdry, target,
      ha.versions _ _ hsaved, htransforms.other ha⟩
  | writing plan pending =>
    obtain ⟨hfailures, hdry, target, hswitched, htransforms⟩ := h
    exact ⟨hfailures, hdry, target, hswitched.other ha, htransforms.other ha⟩
  | done result =>
    cases result with
    | error fault => exact ⟨hwrote.trans h.1, hactivated.trans h.2⟩
    | ok result =>
      rcases h with ⟨hnone, hidle, hwhy⟩ | ⟨hfailures, hdry, target, hswitched, htransforms⟩
      · exact .inl ⟨hwrote.trans hnone, hactivated.trans hidle, hwhy⟩
      · exact .inr ⟨hfailures, hdry, target, hswitched.other ha, htransforms.other ha⟩

/-! ## Steps of the migration -/

lemma Migration.LeavesAlone.refl (w : Migration) (phase : MigrationPhase) :
    w.LeavesAlone t collection { w with phase } where
  docs _ _ _ := Iff.rfl
  active := rfl
  versions _ _ h := h

lemma Migration.Collected.read_next {q : Seq} (h : w.Collected t collection (q :: seqs) docs) {d : Document}
    (hd : w.store.read q = some (.document d)) : w.Collected t collection seqs (docs ++ [d]) := by
  have hread : ∀ d', docAt t w.store q = some d' → d' = d := by
    intro d' hd'
    obtain ⟨held, hheld, hbody, -⟩ := docAt_eq_some.1 hd'
    unfold Objects.read at hd
    rw [hheld, Option.map_some, hbody] at hd
    cases hd
    rfl
  obtain ⟨d', hd', hc⟩ := h.found q mem_cons_self
  obtain rfl := hread d' hd'
  refine ⟨?_, fun q' hq' => h.found q' (mem_cons_of_mem _ hq'), ?_⟩
  · intro e he
    rcases mem_append.1 he with he | he
    · exact h.read e he
    · obtain rfl := mem_singleton.1 he
      exact ⟨hc, q, hd'⟩
  · intro q' e he hce
    rcases h.all q' e he hce with hmem | hmem
    · rcases mem_cons.1 hmem with rfl | hmem
      · obtain rfl := hread e he
        exact .inr (mem_append_right _ (mem_singleton_self _))
      · exact .inl hmem
    · exact .inr (mem_append_left _ hmem)

lemma Migration.Collected.document {q : Seq} (h : w.Collected t collection (q :: seqs) docs) :
    ∃ d, w.store.read q = some (.document d) := by
  obtain ⟨d, hd, -⟩ := h.found q mem_cons_self
  obtain ⟨held, hheld, hbody, -⟩ := docAt_eq_some.1 hd
  refine ⟨d, ?_⟩
  unfold Objects.read
  rw [hheld, Option.map_some, hbody]

lemma Migration.Collected.transforms (h : w.Collected t collection [] docs)
    (huntouched : w.Untouched t collection w₀) (hfailures : failuresIn input target docs = []) :
    w.Transforms digits t collection input w₀ target
      ((pendingIn digits input target docs).map fun doc => (doc.id, migrated input target doc)) := by
  have hmem : ∀ q d, docAt t w.store q = some d → d.collection = collection → d ∈ docs := by
    intro q d hd hc
    exact (h.all q d hd hc).resolve_left not_mem_nil
  have haccepts : ∀ d ∈ docs, acceptsData target (migrated input target d) = true := by
    intro d hd
    have hnot := filter_eq_nil_iff.1 hfailures d hd
    simpa using hnot
  refine ⟨?_, ?_, ?_⟩
  · intro q d hd hc
    exact haccepts d (hmem q d ((huntouched.docs q d hc).2 hd) hc)
  · intro q d hd hc
    refine ⟨d, (huntouched.docs q d hc).1 hd, hc, rfl, .inr ⟨rfl, ?_⟩⟩
    cases halike : writtenAlike digits input target d with
    | true => exact .inl rfl
    | false =>
      refine .inr (List.mem_map.2 ⟨d, mem_filter.2 ⟨hmem q d hd hc, ?_⟩, rfl⟩)
      rw [haccepts d (hmem q d hd hc), halike]
      rfl
  · intro p hp
    obtain ⟨d, hd, rfl⟩ := List.mem_map.1 hp
    obtain ⟨hc, q, hq⟩ := h.read d (mem_filter.1 hd).1
    exact ⟨q, d, (huntouched.docs q d hc).1 hq, hc, rfl⟩

lemma decided_holds (huntouched : w.Untouched t collection w₀)
    (hsaved : w.schemas.versions collection input.target = some target)
    (hcollected : w.Collected t collection [] docs) :
    (decided digits input target source before docs).Holds digits t collection input w w₀ := by
  unfold decided
  dsimp only
  split_ifs with hunresolved hfailures hdry hactivate
  · exact ⟨huntouched.wrote, huntouched.activated⟩
  · exact .inl ⟨huntouched.wrote, huntouched.activated, .inl (by simpa using hfailures)⟩
  · exact .inl ⟨huntouched.wrote, huntouched.activated, .inr hdry⟩
  · have hnone := not_not.1 hfailures
    refine ⟨huntouched, ?_, by simpa using hdry, target, hsaved, hcollected.transforms huntouched hnone⟩
    rw [hnone]
    rfl
  · have hnone := not_not.1 hfailures
    refine ⟨?_, by simpa using hdry, target, ⟨hsaved, fun h => absurd h hactivate⟩,
      hcollected.transforms huntouched hnone⟩
    rw [hnone]
    rfl

variable {data : JsonObject}

lemma Migration.Transforms.write {id now : Utf16} {store : Objects Record}
    (h : w.Transforms digits t collection input w₀ target ((id, data) :: pending))
    (w' : Migration) (ho : Kept w.store) (ho₀ : Kept w₀.store) (ht : TenantOk t)
    (hwrite : writeDocuments host t w.store now [.update collection id data .replace none []] =
      .ok store) (hstore : w'.store = store) :
    Kept store ∧ w'.Transforms digits t collection input w₀ target pending := by
  obtain ⟨hkept, q, current, next, hcurrent, hc, hid, hc', hid', hdata, hdocs⟩ :=
    docAt_update ho ht hwrite
  refine ⟨hkept, h.valid, ?_, fun p hp => h.asked p (mem_cons_of_mem _ hp)⟩
  obtain ⟨q₀, d₀, hd₀, hc₀, hp₀⟩ := h.asked _ mem_cons_self
  obtain ⟨hid₀, hdata₀⟩ := Prod.mk.inj hp₀
  obtain ⟨d₁, hd₁, hc₁, hid₁, -⟩ := h.standing q current hcurrent hc
  -- the document that was read to be written is the one there was at its identifier
  have hq : q₀ = q := ho₀.docAt_inj ht hd₀ hd₁ (hc₀.trans hc₁.symm)
    (by rw [← hid₀, ← hid, hid₁])
  intro q' d hd hcd
  rw [hstore, hdocs] at hd
  split_ifs at hd with heq
  · cases hd
    refine ⟨d₀, ?_, hc₀, hid'.trans hid₀, .inl (hdata.trans hdata₀)⟩
    rw [heq, ← hq]
    exact hd₀
  · obtain ⟨e, he, hce, hide, hstands⟩ := h.standing q' d hd hcd
    refine ⟨e, he, hce, hide, hstands.imp_right ?_⟩
    rintro ⟨hsame, halike | hmem⟩
    · exact ⟨hsame, .inl halike⟩
    · refine ⟨hsame, ?_⟩
      rcases mem_cons.1 hmem with hhead | hmem
      · -- a document of the id just written is the one just written
        refine absurd (ho.docAt_inj ht hd hcurrent (hcd.trans hc.symm) ?_) heq
        rw [(Prod.mk.inj hhead).1, hid]
      · exact .inr hmem

lemma Migration.Transforms.validate {id : Utf16}
    (h : w.Transforms digits t collection input w₀ target ((id, data) :: pending))
    (hswitched : w.Switched collection input target)
    (hinactive : input.activate = false → w.schemas.validate collection data = true) :
    w.schemas.validate collection data = true := by
  cases hactivate : input.activate with
  | false => exact hinactive hactivate
  | true =>
    obtain ⟨q, d, hd, hc, heq⟩ := h.asked _ mem_cons_self
    unfold Schemas.validate Schemas.getActive
    rw [hswitched.active hactivate, Option.bind_some, hswitched.saved, (Prod.mk.inj heq).2]
    exact h.valid q d hd hc

lemma Migration.Sound.turn (h : w.Sound digits t collection input w₀)
    (hphase : phase.Holds digits t collection input w w₀) :
    ({ w with phase } : Migration).Sound digits t collection input w₀ :=
  ⟨h.kept, hphase.other (.refl w phase) rfl rfl⟩

lemma Migration.Sound.collect (h : w.Sound digits t collection input w₀)
    (hat : w.phase = .collecting target source before seqs docs) (host : Host) (now : Utf16) :
    (w.advance digits collection input host t now).Sound digits t collection input w₀ := by
  have hphase := h.phase
  rw [hat] at hphase
  obtain ⟨huntouched, hsaved, hcollected⟩ := hphase
  unfold Migration.advance
  rw [hat]
  cases seqs with
  | nil => exact h.turn (decided_holds huntouched hsaved hcollected)
  | cons q seqs =>
    obtain ⟨d, hd⟩ := hcollected.document
    dsimp only
    rw [hd]
    exact h.turn ⟨huntouched, hsaved, hcollected.read_next hd⟩

variable {now : Utf16}

section

variable (h : w.Sound digits t collection input w₀) (ho₀ : Kept w₀.store) (ht : TenantOk t)
include h ho₀ ht

lemma Migration.Sound.write (hlands : w.Lands host t collection input now)
    {plan : MigrationPlan} (hat : w.phase = .writing plan pending) :
    (w.advance digits collection input host t now).Sound digits t collection input w₀ := by
  have hphase := h.phase
  rw [hat] at hphase
  obtain ⟨hfailures, hdry, target, hswitched, htransforms⟩ := hphase
  unfold Migration.advance
  rw [hat]
  cases pending with
  | nil => exact h.turn (.inr ⟨hfailures, hdry, target, hswitched, htransforms⟩)
  | cons p rest =>
    obtain ⟨id, data⟩ := p
    obtain ⟨hplace, hinactive⟩ := hlands plan id data rest hat
    dsimp only
    cases hwrite : writeDocuments (host.checkedBy w.schemas) t w.store now
        [.update collection id data .replace none []] with
    | error fault =>
      -- what the plan holds is valid, so that nothing is left to refuse it
      have hplace' : Placeable (host.checkedBy w.schemas) t w.store now collection id data :=
        ⟨hplace.finite, hplace.still, hplace.place⟩
      obtain ⟨store, hstore⟩ := writeDocuments_of_placeable hplace'
        (htransforms.validate hswitched hinactive)
      rw [hwrite] at hstore
      cases hstore
    | ok store =>
      obtain ⟨hkept, hnext⟩ := htransforms.write { w with
        store, phase := .writing plan rest, wrote := w.wrote ++ [id] } h.kept ho₀ ht hwrite rfl
      exact ⟨hkept, hfailures, hdry, target, ⟨hswitched.saved, hswitched.active⟩, hnext⟩

lemma Migration.Sound.advance (hname : isName collection = true)
    (hlands : w.Lands host t collection input now) :
    (w.advance digits collection input host t now).Sound digits t collection input w₀ := by
  have hphase := h.phase
  cases hat : w.phase with
  | asked =>
    rw [hat] at hphase
    have huntouched : w.Untouched t collection w₀ := hphase
    unfold Migration.advance
    rw [hat]
    cases hsaved : w.schemas.versions collection input.target with
    | none => exact h.turn ⟨huntouched.wrote, huntouched.activated⟩
    | some target => exact h.turn ⟨huntouched, hsaved⟩
  | targeted | comparing =>
    rw [hat] at hphase
    obtain ⟨huntouched, hsaved⟩ := hphase
    unfold Migration.advance
    rw [hat]
    dsimp only
    split
    · exact h.turn ⟨huntouched.wrote, huntouched.activated⟩
    · exact h.turn ⟨huntouched, hsaved⟩
  | listing target source before =>
    rw [hat] at hphase
    obtain ⟨huntouched, hsaved⟩ := hphase
    unfold Migration.advance
    rw [hat]
    refine h.turn ⟨huntouched, hsaved, fun d hd => absurd hd not_mem_nil, ?_, ?_⟩
    · intro q hq
      exact (mem_documentSeqs h.kept ht hname).1 hq
    · intro q d hd hc
      exact .inl ((mem_documentSeqs h.kept ht hname).2 ⟨d, hd, hc⟩)
  | collecting target source before seqs docs => exact h.collect hat host now
  | activating plan =>
    rw [hat] at hphase
    obtain ⟨huntouched, hfailures, hdry, target, hsaved, htransforms⟩ := hphase
    unfold Migration.advance
    rw [hat]
    unfold Schemas.activate
    rw [hsaved]
    refine ⟨h.kept, hfailures, hdry, target, ⟨hsaved, fun _ => if_pos rfl⟩, htransforms.valid,
      htransforms.standing, htransforms.asked⟩
  | writing plan pending => exact h.write ho₀ ht hlands hat
  | done result =>
    unfold Migration.advance
    rw [hat]
    exact h

end

/-! ## Every run -/

lemma Migration.Runs.sound (h : Migration.Runs digits collection input host t
      (Migration.Lands host t collection input) (Migration.LeavesAlone t collection) w₀ w)
    (ho₀ : Kept w₀.store) (ht : TenantOk t) (hname : isName collection = true)
    (hasked : w₀.phase = .asked) (hwrote : w₀.wrote = []) (hactivated : w₀.activated = false) :
    w.Sound digits t collection input w₀ := by
  induction h with
  | start =>
    refine ⟨ho₀, ?_⟩
    rw [hasked]
    exact ⟨fun _ _ _ => Iff.rfl, hwrote, hactivated⟩
  | step h hstep ih =>
    cases hstep with
    | advance now hC => exact ih.advance ho₀ ht hname hC
    | other store schemas hkept hD => exact ⟨hkept, ih.phase.other hD rfl rfl⟩

/-- A migration whose writes are accepted in their turn, and beside which nothing touches its
collection, does all or nothing: where it returns an error, or says which documents would be
invalid, it has changed nothing, and where it succeeds every document is transformed and satisfies
the version that is active. -/
theorem migration_allOrNothing (h : Migration.Runs digits collection input host t
      (Migration.Lands host t collection input) (Migration.LeavesAlone t collection) w₀ w)
    (hdigits : Spelling digits) (ho₀ : Kept w₀.store) (ht : TenantOk t)
    (hname : isName collection = true) (hasked : w₀.phase = .asked) (hwrote : w₀.wrote = [])
    (hactivated : w₀.activated = false) : w.AllOrNothing collection input t w₀ := by
  have hphase := (h.sound ho₀ ht hname hasked hwrote hactivated).phase
  refine ⟨?_, ?_, ?_⟩
  · intro fault hat
    rw [hat] at hphase
    exact hphase
  · intro result hat hwhy
    rw [hat] at hphase
    rcases hphase with ⟨hnone, hidle, -⟩ | ⟨hfailures, hdry, -⟩
    · exact ⟨hnone, hidle⟩
    · rcases hwhy with hwhy | hwhy
      · exact absurd hfailures hwhy
      · rw [hdry] at hwhy
        cases hwhy
  · intro result hat hfailures hdry hactivate
    rw [hat] at hphase
    rcases hphase with ⟨-, -, hwhy⟩ | ⟨-, -, target, hswitched, htransforms⟩
    · rcases hwhy with hwhy | hwhy
      · exact absurd hfailures hwhy
      · rw [hdry] at hwhy
        cases hwhy
    · refine ⟨hswitched.active hactivate, target, hswitched.saved, fun q d hd hc => ?_⟩
      obtain ⟨d₀, hd₀, hc₀, -, hstands⟩ := htransforms.standing q d hd hc
      have hvalid := htransforms.valid q d₀ hd₀ hc₀
      have hreread : reread (.object d.data) = reread (.object (migrated input target d₀)) := by
        rcases hstands with hdata | ⟨hdata, halike | hmem⟩
        · rw [hdata]
        · rw [hdata]
          exact (stringify_inj hdigits (of_decide_eq_true halike)).symm
        · exact absurd hmem List.not_mem_nil
      exact ⟨(acceptsData_congr hreread).trans hvalid, d₀, hd₀, hreread⟩

end

/-! ## Schedules -/

section

variable (digits : JsNumber → Utf16) (collection : Utf16) (input : MigrateInput) (host : Host)
  (t : TenantId) (now : Utf16)

def Migration.after (w : Migration) : ℕ → Migration
  | 0 => w
  | n + 1 => (Migration.after w n).advance digits collection input host t now

variable {digits collection input host t now} {C : Utf16 → Migration → Prop}
  {D : Migration → Migration → Prop}

lemma Migration.Runs.after {w : Migration} (n : ℕ)
    (hC : ∀ m < n, C now (w.after digits collection input host t now m)) :
    Migration.Runs digits collection input host t C D w (w.after digits collection input host t now n) := by
  induction n with
  | zero => exact .start
  | succ n ih =>
    refine .step (ih fun m hm => hC m (Nat.lt_succ_of_lt hm)) (.advance now (hC n (Nat.lt_succ_self n)))

end

lemma kept_empty : Kept (.empty : Objects Record) where
  named := Objects.empty_named
  bounded _ _ h := by cases h
  shapes _ _ h := by cases h

def textField : CollectionField where
  tag := utf16 "TextField"
  required := false
  accepts v := v.asString?.isSome
  accepts_reread v := by
    cases v with
    | scalar s =>
      cases s with
      | number n =>
        rw [reread, jsonScalar]
        cases n.isFinite with
        | true | false => rfl
      | null | boolean | string => rfl
    | array | object => rfl

def noteSchemas : Schemas where
  versions _ version :=
    if version = 1 then some [⟨utf16 "v", textField⟩]
    else if version = 2 then some [⟨utf16 "u", textField⟩]
    else none
  active _ := some 1

def renameNote : MigrateInput where
  target := 2
  apply := [.rename (utf16 "v") (utf16 "u")]

def notesWith (checks : List CheckConstraint) : Objects Record :=
  (createCollection (utf16 "t") .empty someMoment (fun _ => utf16 "s")
    { name := utf16 "a", checks }).2.nextSeq.2.nextSeq.2

def twoNotes : List DocumentWrite :=
  [.insert (utf16 "a") (utf16 "x") [(utf16 "v", .string (utf16 "1"))] .keep 3,
    .insert (utf16 "a") (utf16 "y") [(utf16 "v", .string (utf16 "2"))] .keep 4]

def notesStore (checks : List CheckConstraint) : Objects Record :=
  match writeDocuments plainHost (utf16 "t") (notesWith checks) someMoment twoNotes with
  | .ok store => store
  | .error _ => .empty

lemma kept_notesStore (checks : List CheckConstraint)
    (hfresh : ∀ q ∈ seqsOf twoNotes, q ≤ (notesWith checks).lastSeq ∧
      (notesWith checks).held.get q = none) : Kept (notesStore checks) := by
  have hcreated := (createCollection_recordsOnly kept_empty (utf16 "t") someMoment
    (fun _ => utf16 "s") { name := utf16 "a", checks }).1.kept
  have hone : RecordsOnly 0 _ _ := RecordsOnly.nextSeq hcreated
  have htwo : RecordsOnly 0 _ (notesWith checks) := RecordsOnly.nextSeq hone.kept
  unfold notesStore
  cases hwrite : writeDocuments plainHost (utf16 "t") (notesWith checks) someMoment twoNotes with
  | ok store => exact writeDocuments_kept htwo.kept ⟨by decide, by decide⟩ hfresh (by decide) hwrite
  | error fault => exact kept_empty

/-- A check that the second of the documents fails once it is transformed. -/
def notTwo : CheckConstraint where
  name := utf16 "c"
  filters := [{ path := utf16 "u", op := .ne, value := .string (utf16 "2") }]

def renamed (checks : List CheckConstraint) (n : ℕ) : Migration :=
  ({ store := notesStore checks, schemas := noteSchemas } : Migration).after plainPlatform.digits
    (utf16 "a") renameNote plainHost (utf16 "t") someMoment n

/-- A migration whose second document fails a check: it ends with an error, the first document
written and the new version active. -/
theorem not_migration_allOrNothing : ¬∀ (digits : JsNumber → Utf16) (collection : Utf16)
    (input : MigrateInput) (host : Host) (t : TenantId) (w w₀ : Migration),
    Migration.Runs digits collection input host t (fun _ _ => True) (fun _ _ => True) w₀ w →
    Spelling digits → Kept w₀.store → TenantOk t → isName collection = true →
    w₀.phase = .asked → w₀.wrote = [] → w₀.activated = false → w.AllOrNothing collection input t w₀ := by
  intro hall
  have hruns : Migration.Runs plainPlatform.digits (utf16 "a") renameNote plainHost (utf16 "t")
      (fun _ _ => True) (fun _ _ => True) { store := notesStore [notTwo], schemas := noteSchemas }
      (renamed [notTwo] 10) := Migration.Runs.after 10 fun _ _ => trivial
  have hdone : ∃ fault, (renamed [notTwo] 10).phase = .done (.error fault) := ⟨_, rfl⟩
  obtain ⟨fault, hdone⟩ := hdone
  have hclaimed := hall plainPlatform.digits (utf16 "a") renameNote plainHost (utf16 "t") _ _ hruns
    plainPlatform_spelling (kept_notesStore [notTwo] (by decide +kernel)) ⟨by decide, by decide⟩
    (by decide) rfl rfl rfl
  have hwrote : (renamed [notTwo] 10).wrote = [utf16 "x"] := by decide +kernel
  rw [(hclaimed.failed fault hdone).1] at hwrote
  cases hwrote

/-- A migration that nothing refuses: both documents are written. -/
theorem migration_allOrNothing_renamed : (renamed [] 11).wrote = [utf16 "x", utf16 "y"] ∧
    (renamed [] 11).AllOrNothing (utf16 "a") renameNote (utf16 "t")
      { store := notesStore [], schemas := noteSchemas } := by
  have hlands : ∀ m < 11, (renamed [] m).Lands plainHost (utf16 "t") (utf16 "a") renameNote
      someMoment := by
    intro m hm
    -- in two of the phases a document is to be written
    interval_cases m <;> rintro plan id data rest h <;> cases h
    · exact ⟨⟨by decide +kernel, rfl, 3, _, _, _, rfl, rfl, rfl⟩, fun h => by cases h⟩
    · exact ⟨⟨by decide +kernel, rfl, 4, _, _, _, rfl, rfl, rfl⟩, fun h => by cases h⟩
  refine ⟨by decide +kernel, migration_allOrNothing (Migration.Runs.after 11 hlands)
    plainPlatform_spelling (kept_notesStore [] (by decide +kernel)) ⟨by decide, by decide⟩ (by decide)
    rfl rfl rfl⟩

end Zelavis.Db
