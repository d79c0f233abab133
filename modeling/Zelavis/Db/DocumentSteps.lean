import Zelavis.Db.Named

/-!
# What a transaction on documents keeps
-/

namespace Zelavis.Db

open Lib List Option

variable {o : Objects Record} {d : Document} {t : TenantId} {s : Seq}

/-! ## Stores of collections and documents -/

/-- A collection's indexes: each under a name of its own, in the column of that name. -/
structure IndexesOk (t : TenantId) (c : StoredCollection) : Prop where
  named : ∀ index ∈ c.indexes, isName index.name = true
  nodup : (c.indexes.map fun index => index.name).Nodup
  column : ∀ index ∈ c.indexes, ∃ salt, index.column = indexColumnFor t c.name index.name salt

/-- What an object is: a collection's record, a document, or something of neither. -/
inductive Shape (h : Held Record) : Prop where
  | collection (t : TenantId) (c : StoredCollection) (body : h.body = .collection c)
      (identity : h.identity = some ⟨collectionNs t, c.name⟩) (name : isName c.name = true)
      (indexes : IndexesOk t c)
      (columns : ∀ col ∈ h.manifest.columns, col.1 = collectionColumn t ∧ col.2 = .string COLLECTION_MARKER)
  | document (t : TenantId) (d : Document) (tenant : TenantOk t) (body : h.body = .document d)
      (identity : h.identity = some ⟨documentNs t d.collection, d.id⟩)
      (name : isName d.collection = true)
      (marked : (collectionColumn t, .string d.collection) ∈ h.manifest.columns)
      (columns : ∀ col ∈ h.manifest.columns, OwnColumn t d.collection col)
  | other (i : ObjectIdentity) (identity : h.identity = some i)
      (body : (∀ c, h.body ≠ .collection c) ∧ ∀ d, h.body ≠ .document d)
      (ns : (∀ t, i.ns ≠ collectionNs t) ∧ ∀ t c, i.ns ≠ documentNs t c)
      (columns : ∀ col ∈ h.manifest.columns, SLASH ∉ col.1)

/-- A store whose objects are what their identities say. -/
structure Kept (o : Objects Record) : Prop where
  named : o.Named
  bounded : ∀ s h, o.held.get s = some h → s ≤ o.lastSeq
  shapes : ∀ s h, o.held.get s = some h → Shape h

section

variable (t : TenantId) (o : Objects Record)

def docAt (s : Seq) : Option Document :=
  (o.held.get s).bind fun h =>
    match h.body with
    | .document d => if h.identity = some ⟨documentNs t d.collection, d.id⟩ then some d else none
    | _ => none

/-- The document of a tenant at an identifier, as a transaction leaves it. -/
def curr (p : PendingDocs) (s : Seq) : Option Document :=
  match p.bySeq s with
  | some doc => doc
  | none => docAt t o s

end

lemma docAt_eq_some :
    docAt t o s = some d ↔ ∃ h, o.held.get s = some h ∧ h.body = .document d ∧
      h.identity = some ⟨documentNs t d.collection, d.id⟩ := by
  unfold docAt
  rw [bind_eq_some_iff]
  refine exists_congr fun h => and_congr_right fun _ => ?_
  cases hbody : h.body with
  | document d' =>
    dsimp only
    constructor
    · intro hd
      split_ifs at hd with hid
      cases hd
      exact ⟨rfl, hid⟩
    · rintro ⟨heq, hid⟩
      cases heq
      rw [if_pos hid]
  | collection | tenant | fence => simp

lemma identity_of_docAt {h : Held Record}
    (hd : docAt t o s = some d) (hheld : o.held.get s = some h) :
    h.identity = some ⟨documentNs t d.collection, d.id⟩ := by
  obtain ⟨h', hh', -, hid⟩ := docAt_eq_some.1 hd
  rw [hheld] at hh'
  cases hh'
  exact hid

lemma curr_of_none {p : PendingDocs}
    (h : p.bySeq s = none) : curr t o p s = docAt t o s := by
  unfold curr
  rw [h]

lemma curr_of_some {p : PendingDocs}
    {doc : Option Document} (h : p.bySeq s = some doc) : curr t o p s = doc := by
  unfold curr
  rw [h]

lemma readDocument_of_docAt
    (h : docAt t o s = some d) : readDocument o s = some d := by
  obtain ⟨held, hheld, hbody, -⟩ := docAt_eq_some.1 h
  unfold readDocument Objects.read
  rw [hheld, map_some, hbody]

variable {c : StoredCollection} {h : Held Record} {n : Utf16}

namespace Kept

variable {t t' : TenantId} {o : Objects Record} {s : Seq}

section

variable (ho : Kept o)
include ho

lemma document_of_identity (ht : TenantOk t)
    {c id : Utf16} (hs : o.held.get s = some h) (hid : h.identity = some ⟨documentNs t c, id⟩) :
    ∃ d, docAt t o s = some d ∧ d.collection = c ∧ d.id = id := by
  cases ho.shapes s h hs with
  | collection t' c' body identity _ _ _ =>
    rw [identity] at hid
    exact absurd (ObjectIdentity.mk.inj (some.inj hid)).1.symm documentNs_ne_collectionNs
  | document t' d tenant body identity _ _ _ =>
    have hid' := hid
    rw [identity] at hid'
    obtain ⟨hns, rfl⟩ := ObjectIdentity.mk.inj (some.inj hid')
    obtain ⟨rfl, rfl⟩ := documentNs_inj tenant ht hns
    exact ⟨d, docAt_eq_some.2 ⟨h, hs, body, hid⟩, rfl, rfl⟩
  | other i identity _ ns _ =>
    rw [identity] at hid
    exact absurd (by rw [some.inj hid]) (ns.2 t c)

lemma named_iff (ht : TenantOk t) {c id : Utf16} :
    o.named ⟨documentNs t c, id⟩ = some s ↔ ∃ d, docAt t o s = some d ∧ d.collection = c ∧ d.id = id := by
  rw [ho.named]
  constructor
  · rintro ⟨h, hs, hid⟩
    exact ho.document_of_identity ht hs hid
  · rintro ⟨d, hd, rfl, rfl⟩
    obtain ⟨h, hs, -, hid⟩ := docAt_eq_some.1 hd
    exact ⟨h, hs, hid⟩

lemma docAt_inj (ht : TenantOk t) {s' : Seq} {d' : Document}
    (hd : docAt t o s = some d) (hd' : docAt t o s' = some d') (hc : d.collection = d'.collection)
    (hid : d.id = d'.id) : s = s' := by
  have h := (ho.named_iff ht).2 ⟨d, hd, rfl, rfl⟩
  have h' := (ho.named_iff ht).2 ⟨d', hd', hc.symm, hid.symm⟩
  rw [h] at h'
  exact some.inj h'

lemma isName_of_docAt (hd : docAt t o s = some d) :
    isName d.collection = true := by
  obtain ⟨h, hs, hbody, -⟩ := docAt_eq_some.1 hd
  cases ho.shapes s h hs with
  | collection t' c' body _ _ _ _ =>
    rw [hbody] at body
    cases body
  | document t' d' tenant body _ name _ _ =>
    rw [hbody] at body
    cases body
    exact name
  | other i _ body _ _ => exact absurd hbody (body.2 d)

lemma name_of_load (h : loadCollection t o n = some c) : c.name = n ∧ isName n = true := by
  obtain ⟨held, hunder, hbody⟩ := loadCollection_eq_some.1 h
  have hid := ho.named.identity_of_under hunder
  obtain ⟨s, -, hs⟩ := bind_eq_some_iff.1 hunder
  cases ho.shapes s held hs with
  | collection t' c' body identity name _ _ =>
    rw [hbody] at body
    cases body
    rw [hid] at identity
    obtain ⟨-, hn⟩ := ObjectIdentity.mk.inj (some.inj identity)
    rw [hn]
    exact ⟨rfl, name⟩
  | document t' d _ body _ _ _ _ =>
    rw [hbody] at body
    cases body
  | other i _ body _ _ => exact absurd hbody (body.1 c)

lemma indexesOk (h : loadCollection t o n = some c) : IndexesOk t c := by
  obtain ⟨held, hunder, hbody⟩ := loadCollection_eq_some.1 h
  have hid := ho.named.identity_of_under hunder
  obtain ⟨s, -, hs⟩ := bind_eq_some_iff.1 hunder
  cases ho.shapes s held hs with
  | collection t' c' body identity _ indexes _ =>
    rw [hbody] at body
    cases body
    rw [hid] at identity
    obtain ⟨hns, -⟩ := ObjectIdentity.mk.inj (some.inj identity)
    rw [collectionNs_inj hns]
    exact indexes
  | document t' d _ body _ _ _ _ =>
    rw [hbody] at body
    cases body
  | other i _ body _ _ => exact absurd hbody (body.1 c)

lemma docAt_of_column (ht : TenantOk t) {c path : Utf16} (hc : isName c = true)
    {value : OrderedScalar} (hs : s ∈ o.resolve (.equals (columnFor t c path) value)) :
    ∃ d, docAt t o s = some d ∧ d.collection = c := by
  obtain ⟨⟨h, hheld⟩, man, hman, v, hmem, -⟩ := Objects.mem_resolve.1 hs
  have hman : man = h.manifest := by
    unfold Objects.manifests at hman
    rw [hheld] at hman
    exact (some.inj hman).symm
  subst hman
  cases ho.shapes s h hheld with
  | collection t' c' _ _ _ _ columns =>
    exact absurd (columns _ hmem).1 (columnFor_ne_collectionColumn ht)
  | document t' d tenant body identity name _ columns =>
    obtain ⟨rfl, rfl⟩ := eq_of_ownColumn ht tenant hc name (columns _ hmem)
    exact ⟨d, docAt_eq_some.2 ⟨h, hheld, body, identity⟩, rfl⟩
  | other i _ _ _ columns =>
    refine absurd ?_ (columns _ hmem)
    simp [columnFor, utf16, SLASH]

end

end Kept

/-! ## Inside a transaction -/

@[simp] lemma lastSeq_write {α : Type} (o : Objects α) (w : Objects.Write α) :
    (o.write w).lastSeq = o.lastSeq := by
  cases w <;> rfl

@[simp] lemma lastSeq_commit {α : Type} (o : Objects α) (ws : List (Objects.Write α)) :
    (o.commit ws).lastSeq = o.lastSeq := by
  induction ws generalizing o with
  | nil => rfl
  | cons w ws ih => rw [Objects.commit_cons, ih, lastSeq_write]

/-- What holds inside a transaction, of the identifiers it has not used and of the documents it has
forgotten and is still to retract. -/
structure Within (host : Host) (t : TenantId) (o : Objects Record) (rest : List Seq)
    (due : List (Seq × Document)) (s : Staged) : Prop where
  unused : ∀ q ∈ rest, s.pending.bySeq q = none
  names : ∀ c id, isName c = true → ∀ q d, currentNamed t o s.pending c id = some (q, some d) ↔
    curr t o s.pending q = some d ∧ d.collection = c ∧ d.id = id
  byName : ∀ n q d, s.pending.byName n = some (q, some d) → s.pending.bySeq q = some (some d) ∧ n = d.name
  same : ∀ q d d₀, s.pending.bySeq q = some (some d) → docAt t o q = some d₀ →
    d.collection = d₀.collection ∧ d.id = d₀.id
  own : ∀ q doc, s.pending.bySeq q = some doc →
    q ≤ o.lastSeq ∧ (o.held.get q = none ∨ ∃ d₀, docAt t o q = some d₀)
  name : ∀ q d, s.pending.bySeq q = some (some d) → isName d.collection = true
  named : (o.commit s.writes).Named
  kept : ∀ q, s.pending.bySeq q = none → (o.commit s.writes).held.get q = o.held.get q
  put : ∀ q d, s.pending.bySeq q = some (some d) → ∃ h edges,
    (o.commit s.writes).held.get q = some h ∧ h.body = .document d ∧
      h.identity = some ⟨documentNs t d.collection, d.id⟩ ∧
      manifestFor host t d (loadCollection t o d.collection) edges = some h.manifest
  gone : ∀ q, s.pending.bySeq q = some none → (∀ e ∈ due, e.1 ≠ q) → (o.commit s.writes).held.get q = none
  forgotten : ∀ e ∈ due, s.pending.bySeq e.1 = some none ∧ isName e.2.collection = true ∧
    s.pending.byName e.2.name = some (e.1, none) ∧
    ∃ h, (o.commit s.writes).held.get e.1 = some h ∧ h.identity = some ⟨documentNs t e.2.collection, e.2.id⟩
  nodup : (due.map Prod.fst).Nodup

def DocumentWrite.inserts : DocumentWrite → Option (Utf16 × Utf16 × JsonObject × Expiry × Seq)
  | .insert collection id data expiry seq => some (collection, id, data, expiry, seq)
  | .upsert collection id data _ expiry seq => some (collection, id, data, expiry, seq)
  | .update .. => none
  | .delete .. => none

def DocumentWrite.updates : DocumentWrite → Option (UpdateMode × JsonObject × Expiry)
  | .insert .. => none
  | .upsert _ _ data _ expiry _ => some (.replace, data, expiry)
  | .update _ _ data mode _ _ => some (mode, data, .keep)
  | .delete .. => none

def seqsOf (operations : List DocumentWrite) : List Seq :=
  operations.filterMap fun op => op.inserts.map fun i => i.2.2.2.2

section

variable (host : Host) (t : TenantId) (o : Objects Record) (now : Utf16)

/-- The three ways a document is written. -/
inductive Placed (op : DocumentWrite) (p : PendingDocs) :
    Document → Seq → Option StoredCollection → Prop where
  | inserted {collection id : Utf16} {data : JsonObject} {expiry : Expiry} {seq : Seq}
      {expiresAt : Option Utf16} {record : StoredCollection}
      (hop : op.inserts = some (collection, id, data, expiry, seq))
      (hrecord : loadCollection t o collection = some record)
      (hvalid : validateDocumentData collection data = .ok ())
      (hschema : host.satisfiesSchema collection data = true)
      (hfree : ∀ q d, currentNamed t o p collection id ≠ some (q, some d))
      (hexpiry : expiry.ofNew = .ok expiresAt) :
      Placed op p { id, collection, data, createdAt := now, updatedAt := now, version := 1,
                    expiresAt } seq (some record)
  | updated {collection : Utf16} {current : Document} {seq : Seq} {mode : UpdateMode}
      {data : JsonObject} {expiry : Expiry} {expiresAt : Option Utf16}
      (hop : op.updates = some (mode, data, expiry))
      (hcurr : curr t o p seq = some current)
      (hvalid : validateDocumentData collection (updatedData mode current.data data) = .ok ())
      (hexpiry : expiry.ofCurrent current.expiresAt = .ok expiresAt) :
      Placed op p { current with
        data := updatedData mode current.data data, updatedAt := now,
        version := current.version + 1, expiresAt } seq none
  | cleared {holder : Document} {seq : Seq} {naming : List ReferenceConstraint}
      {record : StoredCollection}
      (hcurr : curr t o p seq = some holder)
      (hrecord : loadCollection t o holder.collection = some record)
      (hnaming : ∀ r ∈ naming, r ∈ record.references) :
      Placed op p (clearedOf now p holder seq naming) seq (some record)

end

section

variable {host : Host} {t : TenantId} {o : Objects Record} {now : Utf16} {op : DocumentWrite}
  {p : PendingDocs} {doc : Document} {seq : Seq} {loaded : Option StoredCollection}

lemma Placed.record_eq (h : Placed host t o now op p doc seq loaded) :
    loaded.or (loadCollection t o doc.collection) = loadCollection t o doc.collection := by
  cases h with
  | inserted hop hrecord hvalid hschema hfree hexpiry => exact hrecord.symm
  | updated hop hcurr hvalid hexpiry => rfl
  | cleared hcurr hrecord hnaming => exact hrecord.symm

/-- A document that is written has the name of the one that is there, or nothing has its name. -/
theorem Placed.old_or_fresh (ho : Kept o) (h : Placed host t o now op p doc seq loaded) :
    (∃ old, curr t o p seq = some old ∧ doc.collection = old.collection ∧ doc.id = old.id) ∨
      (seq ∈ seqsOf [op] ∧ isName doc.collection = true ∧
        ∀ q d, currentNamed t o p doc.collection doc.id ≠ some (q, some d)) := by
  cases h with
  | inserted hop hrecord hvalid hschema hfree hexpiry =>
    exact .inr ⟨by simp [seqsOf, hop], (ho.name_of_load hrecord).2, hfree⟩
  | updated _ hcurr | cleared hcurr => exact .inl ⟨_, hcurr, rfl, rfl⟩

lemma documentPut_eq_ok {s s' : Staged}
    (hloaded : loaded.or (loadCollection t o doc.collection) = loadCollection t o doc.collection)
    (h : documentPut host t o doc seq loaded s = .ok s') : ∃ edges manifest,
      enforceConstraints t o (loadCollection t o doc.collection) doc seq s.pending = .ok edges ∧
      manifestFor host t doc (loadCollection t o doc.collection) edges = some manifest ∧
      s' = { pending := remember s.pending (loadCollection t o doc.collection) doc seq
             writes := s.writes ++ [.put seq (.document doc) manifest
               (some ⟨documentNs t doc.collection, doc.id⟩)] } := by
  unfold documentPut at h
  rw [hloaded] at h
  dsimp only at h
  split at h
  · cases h
  next edges hedges =>
    split at h
    · cases h
    next manifest hmanifest =>
      cases h
      exact ⟨edges, manifest, hedges, hmanifest, rfl⟩

end

variable {q : Seq}

namespace Within

variable {host : Host} {t : TenantId} {o : Objects Record} {rest : List Seq}
  {due : List (Seq × Document)} {s : Staged}

lemma start (ho : Kept o) (ht : TenantOk t) (rest : List Seq) : Within host t o rest [] {} where
  unused _ _ := rfl
  names c id hc q d := by
    unfold currentNamed
    rw [map_eq_some_iff]
    constructor
    · rintro ⟨q', hq', heq⟩
      obtain ⟨rfl, hread⟩ := Prod.mk.inj heq
      obtain ⟨d', hd', hc', hid'⟩ := (ho.named_iff ht).1 hq'
      rw [readDocument_of_docAt hd'] at hread
      cases hread
      exact ⟨hd', hc', hid'⟩
    · rintro ⟨hd, hc', hid'⟩
      exact ⟨q, (ho.named_iff ht).2 ⟨d, hd, hc', hid'⟩, by rw [readDocument_of_docAt hd]⟩
  byName _ _ _ h := by cases h
  same _ _ _ h := by cases h
  own _ _ h := by cases h
  name _ _ h := by cases h
  named := ho.named
  kept _ _ := rfl
  put _ _ h := by cases h
  gone _ h := by cases h
  forgotten _ h := absurd h not_mem_nil
  nodup := nodup_nil

lemma mono {rest' : List Seq} (h : Within host t o rest due s) (hrest : ∀ q ∈ rest', q ∈ rest) :
    Within host t o rest' due s :=
  { h with unused := fun q hq => h.unused q (hrest q hq) }

variable {d : Document}

lemma held_of_curr (ho : Kept o) (h : Within host t o rest due s)
    (hq : curr t o s.pending q = some d) : isName d.collection = true ∧
      ∃ held, (o.commit s.writes).held.get q = some held ∧
        held.identity = some ⟨documentNs t d.collection, d.id⟩ := by
  cases hby : s.pending.bySeq q with
  | none =>
    rw [curr_of_none hby] at hq
    obtain ⟨held, hheld, -, hid⟩ := docAt_eq_some.1 hq
    exact ⟨ho.isName_of_docAt hq, held, by rw [h.kept q hby, hheld], hid⟩
  | some doc =>
    rw [curr_of_some hby] at hq
    subst hq
    obtain ⟨held, -, hheld, -, hid, -⟩ := h.put q d hby
    exact ⟨h.name q d hby, held, hheld, hid⟩

lemma curr_of_named (ho : Kept o) (ht : TenantOk t) (h : Within host t o rest due s) {c id : Utf16}
    (hnamed : currentNamed t o s.pending c id = some (q, some d)) : curr t o s.pending q = some d := by
  have hnamed' := hnamed
  unfold currentNamed at hnamed
  split at hnamed
  next written hwritten =>
    cases hnamed
    rw [curr_of_some (h.byName _ q d hwritten).1]
  next =>
    obtain ⟨q', hq', heq⟩ := map_eq_some_iff.1 hnamed
    obtain ⟨rfl, -⟩ := Prod.mk.inj heq
    obtain ⟨d', hd', hc, -⟩ := (ho.named_iff ht).1 hq'
    exact ((h.names c id (by rw [← hc]; exact ho.isName_of_docAt hd') q' d).1 hnamed').1

lemma curr_inj (h : Within host t o rest due s) {q q' : Seq} {d' : Document}
    (hname : isName d.collection = true) (hq : curr t o s.pending q = some d)
    (hq' : curr t o s.pending q' = some d') (hc : d'.collection = d.collection)
    (hid : d'.id = d.id) : q' = q := by
  have hd := (h.names d.collection d.id hname q d).2 ⟨hq, rfl, rfl⟩
  have hd' := (h.names d.collection d.id hname q' d').2 ⟨hq', hc, hid⟩
  rw [hd] at hd'
  exact (Prod.mk.inj (some.inj hd')).1.symm

lemma notMem_rest (h : Within host t o rest due s) (hfresh : ∀ q ∈ rest, o.held.get q = none)
    (hq : curr t o s.pending q = some d) : q ∉ rest := by
  intro hmem
  rw [curr_of_none (h.unused q hmem)] at hq
  obtain ⟨held, hheld, -⟩ := docAt_eq_some.1 hq
  rw [hfresh q hmem] at hheld
  cases hheld

lemma own_of_curr (ho : Kept o) (h : Within host t o rest due s) (hq : curr t o s.pending q = some d) :
    q ≤ o.lastSeq ∧ (o.held.get q = none ∨ ∃ d₀, docAt t o q = some d₀) := by
  cases hby : s.pending.bySeq q with
  | none =>
    rw [curr_of_none hby] at hq
    obtain ⟨held, hheld, -⟩ := docAt_eq_some.1 hq
    exact ⟨ho.bounded q held hheld, .inr ⟨d, hq⟩⟩
  | some doc => exact h.own q doc hby

lemma same_of_curr (h : Within host t o rest due s) {d₀ : Document}
    (hq : curr t o s.pending q = some d) (hd₀ : docAt t o q = some d₀) :
    d.collection = d₀.collection ∧ d.id = d₀.id := by
  cases hby : s.pending.bySeq q with
  | none =>
    rw [curr_of_none hby, hd₀] at hq
    cases hq
    exact ⟨rfl, rfl⟩
  | some doc =>
    rw [curr_of_some hby] at hq
    subst hq
    exact h.same q d d₀ hby hd₀

/-! ### Forgetting -/

lemma forget (ho : Kept o) (hfresh : ∀ q ∈ rest, o.held.get q = none) (h : Within host t o rest due s)
    (hq : curr t o s.pending q = some d) :
    Within host t o rest ((q, d) :: due) { s with pending := Db.forget s.pending d q } := by
  obtain ⟨hname, held, hheld, hid⟩ := h.held_of_curr ho hq
  have hdue : ∀ e ∈ due, e.1 ≠ q := by
    rintro e he rfl
    rw [curr_of_some (h.forgotten e he).1] at hq
    cases hq
  have hbySeq : ∀ q', (Db.forget s.pending d q).bySeq q' =
      if q' = q then some none else s.pending.bySeq q' := fun q' => rfl
  have hbyName : ∀ n, (Db.forget s.pending d q).byName n =
      if n = d.name then some (q, none) else s.pending.byName n := fun n => rfl
  have hcurr : ∀ q', curr t o (Db.forget s.pending d q) q' =
      if q' = q then none else curr t o s.pending q' := by
    intro q'
    unfold curr
    rw [hbySeq]
    split_ifs
    · rfl
    · rfl
  constructor
  case unused =>
    intro q' hq'
    rw [hbySeq, if_neg]
    · exact h.unused q' hq'
    · rintro rfl
      exact h.notMem_rest hfresh hq hq'
  case names =>
    intro c id hc q' d'
    rw [hcurr]
    by_cases hn : nameOf c id = d.name
    · obtain ⟨hc', hid'⟩ := nameOf_inj hc hname hn
      constructor
      · intro hnamed
        unfold currentNamed at hnamed
        rw [hbyName, if_pos hn] at hnamed
        cases hnamed
      · rintro ⟨hq', hcol, hid''⟩
        split_ifs at hq' with heq
        exact absurd (h.curr_inj hname hq hq' (hcol.trans hc') (hid''.trans hid')) heq
    · have hnamed : currentNamed t o (Db.forget s.pending d q) c id = currentNamed t o s.pending c id := by
        unfold currentNamed
        rw [hbyName, if_neg hn]
      rw [hnamed, h.names c id hc]
      refine and_congr_left fun hd' => ?_
      split_ifs with heq
      · subst heq
        refine iff_of_false ?_ (by simp)
        intro hq'
        rw [hq] at hq'
        cases hq'
        exact hn (by rw [← hd'.1, ← hd'.2]; rfl)
      · rfl
  case byName =>
    intro n q' d' hn
    rw [hbyName] at hn
    split_ifs at hn with heq
    · cases hn
    · obtain ⟨hby, hname'⟩ := h.byName n q' d' hn
      refine ⟨?_, hname'⟩
      rw [hbySeq, if_neg]
      · exact hby
      · rintro rfl
        rw [curr_of_some hby] at hq
        cases hq
        exact heq hname'
  case same =>
    intro q' d' d₀ hby hd₀
    rw [hbySeq] at hby
    split_ifs at hby with heq
    · cases hby
    · exact h.same q' d' d₀ hby hd₀
  case own =>
    intro q' doc hby
    rw [hbySeq] at hby
    split_ifs at hby with heq
    · subst heq
      exact h.own_of_curr ho hq
    · exact h.own q' doc hby
  case name =>
    intro q' d' hby
    rw [hbySeq] at hby
    split_ifs at hby with heq
    · cases hby
    · exact h.name q' d' hby
  case named => exact h.named
  case kept =>
    intro q' hby
    rw [hbySeq] at hby
    split_ifs at hby with heq
    exact h.kept q' hby
  case put =>
    intro q' d' hby
    rw [hbySeq] at hby
    split_ifs at hby with heq
    · cases hby
    · exact h.put q' d' hby
  case gone =>
    intro q' hby hnot
    rw [hbySeq] at hby
    split_ifs at hby with heq
    · exact absurd heq.symm (hnot _ mem_cons_self)
    · exact h.gone q' hby fun e he => hnot e (mem_cons_of_mem _ he)
  case forgotten =>
    intro e he
    rw [hbySeq, hbyName]
    rcases mem_cons.1 he with rfl | he
    · rw [if_pos rfl, if_pos rfl]
      exact ⟨rfl, hname, rfl, held, hheld, hid⟩
    · obtain ⟨hby, hname', hbyN, hheld'⟩ := h.forgotten e he
      rw [if_neg (hdue e he), if_neg]
      · exact ⟨hby, hname', hbyN, hheld'⟩
      · intro hn
        -- the name of what is forgotten addresses nothing
        obtain ⟨hc, hid'⟩ := nameOf_inj hname' hname hn
        have hnamed := (h.names d.collection d.id hname q d).2 ⟨hq, rfl, rfl⟩
        unfold currentNamed at hnamed
        rw [show nameOf d.collection d.id = e.2.name from hn.symm, hbyN] at hnamed
        cases hnamed
  case nodup =>
    rw [map_cons, nodup_cons]
    refine ⟨?_, h.nodup⟩
    intro hmem
    obtain ⟨e, he, heq⟩ := List.mem_map.1 hmem
    exact hdue e he heq

lemma forget_bySeq {p : PendingDocs} (d : Document) (h : p.bySeq q = some none) :
    (Db.forget p d q).bySeq = p.bySeq := by
  funext q'
  show (if q' = q then some none else p.bySeq q') = _
  split_ifs with heq
  · rw [heq, h]
  · rfl

lemma forgetAgain (h : Within host t o rest ((q, d) :: due) s) :
    Within host t o rest ((q, d) :: due) { s with pending := Db.forget s.pending d q } := by
  obtain ⟨hby, hname, hbyN, -⟩ := h.forgotten _ mem_cons_self
  have hbySeq := forget_bySeq d hby
  have hbyName : (Db.forget s.pending d q).byName = s.pending.byName := by
    funext n
    show (if n = d.name then some (q, none) else s.pending.byName n) = _
    split_ifs with heq
    · rw [heq, hbyN]
    · rfl
  have hcurr : curr t o (Db.forget s.pending d q) = curr t o s.pending := by
    unfold curr
    rw [hbySeq]
  have hnamed : currentNamed t o (Db.forget s.pending d q) = currentNamed t o s.pending := by
    unfold currentNamed
    rw [hbyName]
  exact {
    unused := by simpa only [hbySeq] using h.unused
    names := by simpa only [hcurr, hnamed] using h.names
    byName := by simpa only [hbySeq, hbyName] using h.byName
    same := by simpa only [hbySeq] using h.same
    own := by simpa only [hbySeq] using h.own
    name := by simpa only [hbySeq] using h.name
    named := h.named
    kept := by simpa only [hbySeq] using h.kept
    put := by simpa only [hbySeq] using h.put
    gone := by simpa only [hbySeq] using h.gone
    forgotten := by simpa only [hbySeq, hbyName] using h.forgotten
    nodup := h.nodup }

/-! ### Retracting -/

lemma retract (h : Within host t o rest ((q, d) :: due) s) :
    Within host t o rest due { s with writes := s.writes ++ [.retract q] } := by
  obtain ⟨hby, -, -, -⟩ := h.forgotten _ mem_cons_self
  have hnotin : ∀ e ∈ due, e.1 ≠ q := by
    intro e he heq
    exact (nodup_cons.1 h.nodup).1 (List.mem_map.2 ⟨e, he, heq⟩)
  have hcommit : o.commit (s.writes ++ [.retract q]) = (o.commit s.writes).write (.retract q) := by
    rw [Objects.commit_append, Objects.commit_cons, Objects.commit_nil]
  have hheld : ∀ q', (o.commit (s.writes ++ [.retract q])).held.get q' =
      if q' = q then none else (o.commit s.writes).held.get q' := by
    intro q'
    rw [hcommit, Objects.held_retract, OrderedMap.get_erase]
  constructor
  case unused => exact h.unused
  case names => exact h.names
  case byName => exact h.byName
  case same => exact h.same
  case own => exact h.own
  case name => exact h.name
  case named =>
    rw [hcommit]
    exact h.named.retract q
  case kept =>
    intro q' hby'
    rw [hheld, if_neg]
    · exact h.kept q' hby'
    · rintro rfl
      rw [hby] at hby'
      cases hby'
  case put =>
    intro q' d' hby'
    rw [hheld, if_neg]
    · exact h.put q' d' hby'
    · rintro rfl
      rw [hby] at hby'
      cases hby'
  case gone =>
    intro q' hby' hnot
    rw [hheld]
    split_ifs with heq
    · rfl
    · refine h.gone q' hby' fun e he => ?_
      rcases mem_cons.1 he with rfl | he
      · exact Ne.symm heq
      · exact hnot e he
  case forgotten =>
    intro e he
    obtain ⟨hby', hname', hbyN, hheld'⟩ := h.forgotten e (mem_cons_of_mem _ he)
    refine ⟨hby', hname', hbyN, ?_⟩
    rw [hheld, if_neg (hnotin e he)]
    exact hheld'
  case nodup => exact (nodup_cons.1 h.nodup).2

/-! ### Writing -/

/-- A document written over one of its name, or under a name nothing has while nothing is to be
retracted. -/
theorem place (ho : Kept o) (ht : TenantOk t) (hfresh : ∀ q ∈ rest, o.held.get q = none)
    (hbound : ∀ q ∈ rest, q ≤ o.lastSeq) (h : Within host t o rest due s)
    (hq : (∃ old, curr t o s.pending q = some old ∧ d.collection = old.collection ∧ d.id = old.id) ∨
      (q ∈ rest ∧ due = [] ∧ isName d.collection = true ∧
        ∀ q' d', currentNamed t o s.pending d.collection d.id ≠ some (q', some d')))
    {edges : List (Utf16 × Seq)} {manifest : IndexManifest}
    (hmanifest : manifestFor host t d (loadCollection t o d.collection) edges = some manifest) :
    Within host t o (rest.filter fun q' => q' ≠ q) due
      { pending := remember s.pending (loadCollection t o d.collection) d q
        writes := s.writes ++ [.put q (.document d) manifest (some ⟨documentNs t d.collection, d.id⟩)] } := by
  have hname : isName d.collection = true := by
    rcases hq with ⟨old, hold, hc, -⟩ | ⟨-, -, hname, -⟩
    · rw [hc]
      exact (h.held_of_curr ho hold).1
    · exact hname
  -- no other identifier has a document of the name, and what is to be retracted has another
  have hothers : ∀ {q' d'}, curr t o s.pending q' = some d' → d'.collection = d.collection →
      d'.id = d.id → q' = q := by
    intro q' d' hq' hc' hid'
    rcases hq with ⟨old, hold, hc, hid⟩ | ⟨-, -, -, hfree⟩
    · exact h.curr_inj (by rw [← hc]; exact hname) hold hq' (hc'.trans hc) (hid'.trans hid)
    · exact absurd ((h.names _ _ hname q' d').2 ⟨hq', hc', hid'⟩) (hfree q' d')
  have hdue : ∀ e ∈ due, e.1 ≠ q ∧ e.2.name ≠ d.name := by
    intro e he
    rcases hq with ⟨old, hold, hc, hid⟩ | ⟨-, hnil, -, -⟩
    · obtain ⟨hby, hname', hbyN, -⟩ := h.forgotten e he
      constructor
      · rintro rfl
        rw [curr_of_some hby] at hold
        cases hold
      · intro hn
        have hnamed := (h.names old.collection old.id (by rw [← hc]; exact hname) q old).2
          ⟨hold, rfl, rfl⟩
        unfold currentNamed at hnamed
        rw [← hc, ← hid, show nameOf d.collection d.id = e.2.name from hn.symm, hbyN] at hnamed
        cases hnamed
    · rw [hnil] at he
      exact absurd he not_mem_nil
  have htakes : (o.commit s.writes).Takes q ⟨documentNs t d.collection, d.id⟩ := by
    constructor
    · intro held hheld
      rcases hq with ⟨old, hold, hc, hid⟩ | ⟨hmem, -, -, -⟩
      · obtain ⟨-, held', hheld', hid'⟩ := h.held_of_curr ho hold
        rw [hheld] at hheld'
        cases hheld'
        rw [hid', hc, hid]
      · rw [h.kept q (h.unused q hmem), hfresh q hmem] at hheld
        cases hheld
    · intro q' held hheld hid
      cases hby : s.pending.bySeq q' with
      | none =>
        rw [h.kept q' hby] at hheld
        obtain ⟨d', hd', hc', hid'⟩ := ho.document_of_identity ht hheld hid
        exact hothers (by rw [curr_of_none hby]; exact hd') hc' hid'
      | some doc =>
        cases doc with
        | some d' =>
          obtain ⟨held', -, hheld', -, hid', -⟩ := h.put q' d' hby
          rw [hheld] at hheld'
          cases hheld'
          rw [hid'] at hid
          obtain ⟨hns, hid''⟩ := ObjectIdentity.mk.inj (some.inj hid)
          exact hothers (curr_of_some hby) (documentNs_inj ht ht hns).2 hid''
        | none =>
          by_cases hmem : ∃ e ∈ due, e.1 = q'
          · obtain ⟨e, he, rfl⟩ := hmem
            obtain ⟨-, -, -, held', hheld', hid'⟩ := h.forgotten e he
            rw [hheld] at hheld'
            cases hheld'
            rw [hid'] at hid
            obtain ⟨hns, hid''⟩ := ObjectIdentity.mk.inj (some.inj hid)
            refine absurd ?_ (hdue e he).2
            unfold Document.name
            rw [(documentNs_inj ht ht hns).2, hid'']
          · rw [h.gone q' hby fun e he heq => hmem ⟨e, he, heq⟩] at hheld
            cases hheld
  have hcommit : ∀ body m i, o.commit (s.writes ++ [.put q body m i]) =
      (o.commit s.writes).write (.put q body m i) := by
    intro body m i
    rw [Objects.commit_append, Objects.commit_cons, Objects.commit_nil]
  have hheld : ∀ q', q' ≠ q → (o.commit (s.writes ++ [.put q (.document d) manifest
      (some ⟨documentNs t d.collection, d.id⟩)])).held.get q' = (o.commit s.writes).held.get q' := by
    intro q' hne
    rw [hcommit, Objects.held_put, OrderedMap.get_insert, if_neg hne]
  have hself : (o.commit (s.writes ++ [.put q (.document d) manifest
      (some ⟨documentNs t d.collection, d.id⟩)])).held.get q = some ⟨some ⟨documentNs t d.collection, d.id⟩,
          (((o.commit s.writes).held.get q).elim 0 Held.version) + 1, .document d, manifest⟩ := by
    rw [hcommit, Objects.held_put, OrderedMap.get_insert, if_pos rfl]
  have hbySeq : ∀ q', (remember s.pending (loadCollection t o d.collection) d q).bySeq q' =
      if q' = q then some (some d) else s.pending.bySeq q' := fun q' => rfl
  have hbyName : ∀ n, (remember s.pending (loadCollection t o d.collection) d q).byName n =
      if n = d.name then some (q, some d) else s.pending.byName n := fun n => rfl
  have hcurr : ∀ q', curr t o (remember s.pending (loadCollection t o d.collection) d q) q' =
      if q' = q then some d else curr t o s.pending q' := by
    intro q'
    unfold curr
    rw [hbySeq]
    split_ifs
    · rfl
    · rfl
  constructor
  case unused =>
    intro q' hq'
    obtain ⟨hmem, hne⟩ := mem_filter.1 hq'
    rw [hbySeq, if_neg (by simpa using hne)]
    exact h.unused q' hmem
  case names =>
    intro c id hc q' d'
    rw [hcurr]
    by_cases hn : nameOf c id = d.name
    · obtain ⟨rfl, rfl⟩ := nameOf_inj hc hname hn
      have hnamed : currentNamed t o (remember s.pending (loadCollection t o d.collection) d q)
          d.collection d.id = some (q, some d) := by
        unfold currentNamed
        rw [hbyName, if_pos hn]
      rw [hnamed]
      constructor
      · intro heq
        cases heq
        rw [if_pos rfl]
        exact ⟨rfl, rfl, rfl⟩
      · rintro ⟨hq', hc', hid'⟩
        split_ifs at hq' with heq
        · cases hq'
          rw [heq]
        · exact absurd (hothers hq' hc' hid') heq
    · have hnamed : currentNamed t o (remember s.pending (loadCollection t o d.collection) d q) c id =
          currentNamed t o s.pending c id := by
        unfold currentNamed
        rw [hbyName, if_neg hn]
      rw [hnamed, h.names c id hc]
      refine and_congr_left fun hd' => ?_
      split_ifs with heq
      · subst heq
        refine iff_of_false ?_ ?_
        · -- the document that was there has the name of the new one
          intro hq'
          rcases hq with ⟨old, hold, hcol, hid⟩ | ⟨hmem, -⟩
          · rw [hold] at hq'
            cases hq'
            exact hn (by rw [← hd'.1, ← hd'.2, ← hcol, ← hid]; rfl)
          · exact h.notMem_rest hfresh hq' hmem
        · rintro heq
          cases heq
          exact hn (by rw [← hd'.1, ← hd'.2]; rfl)
      · rfl
  case byName =>
    intro n q' d' hn
    rw [hbyName] at hn
    rw [hbySeq]
    split_ifs at hn with heq
    · cases hn
      rw [if_pos rfl]
      exact ⟨rfl, heq⟩
    · obtain ⟨hby, hn'⟩ := h.byName n q' d' hn
      refine ⟨?_, hn'⟩
      rw [if_neg]
      · exact hby
      · rintro rfl
        -- a name an identifier was written with is the name it has
        rcases hq with ⟨old, hold, hcol, hid⟩ | ⟨hmem, -⟩
        · rw [curr_of_some hby] at hold
          cases hold
          exact heq (by rw [hn', Document.name, Document.name, hcol, hid])
        · rw [h.unused _ hmem] at hby
          cases hby
  case same =>
    intro q' d' d₀ hby hd₀
    rw [hbySeq] at hby
    split_ifs at hby with heq
    · cases hby
      subst heq
      rcases hq with ⟨old, hold, hcol, hid⟩ | ⟨hmem, -⟩
      · obtain ⟨hc', hid'⟩ := h.same_of_curr hold hd₀
        exact ⟨hcol.trans hc', hid.trans hid'⟩
      · obtain ⟨held, hheld', -⟩ := docAt_eq_some.1 hd₀
        rw [hfresh _ hmem] at hheld'
        cases hheld'
    · exact h.same q' d' d₀ hby hd₀
  case own =>
    intro q' doc hby
    rw [hbySeq] at hby
    split_ifs at hby with heq
    · subst heq
      rcases hq with ⟨old, hold, -⟩ | ⟨hmem, -⟩
      · exact h.own_of_curr ho hold
      · exact ⟨hbound _ hmem, .inl (hfresh _ hmem)⟩
    · exact h.own q' doc hby
  case name =>
    intro q' d' hby
    rw [hbySeq] at hby
    split_ifs at hby with heq
    · cases hby
      exact hname
    · exact h.name q' d' hby
  case named =>
    rw [hcommit]
    exact h.named.put htakes
  case kept =>
    intro q' hby
    rw [hbySeq] at hby
    split_ifs at hby with heq
    rw [hheld q' heq]
    exact h.kept q' hby
  case put =>
    intro q' d' hby
    rw [hbySeq] at hby
    split_ifs at hby with heq
    · cases hby
      subst heq
      exact ⟨_, edges, hself, rfl, rfl, hmanifest⟩
    · rw [hheld q' heq]
      exact h.put q' d' hby
  case gone =>
    intro q' hby hnot
    rw [hbySeq] at hby
    split_ifs at hby with heq
    · cases hby
    · rw [hheld q' heq]
      exact h.gone q' hby hnot
  case forgotten =>
    intro e he
    obtain ⟨hby, hname', hbyN, held, hheld', hid⟩ := h.forgotten e he
    obtain ⟨hne, hnn⟩ := hdue e he
    rw [hbySeq, if_neg hne, hbyName, if_neg hnn, hheld _ hne]
    exact ⟨hby, hname', hbyN, held, hheld', hid⟩
  case nodup => exact h.nodup

end Within

/-! ## The steps of a transaction -/

/-- What every step of a transaction of some changes preserves, where each change is made in a state
that meets a condition. -/
structure Keeps (host : Host) (t : TenantId) (o : Objects Record) (now : Utf16)
    (ops : List DocumentWrite) (C : DocumentWrite → Staged → Prop)
    (K : List (Seq × Document) → Staged → Prop) : Prop where
  /-- A document is written: over the one that is there, or inserted by the change that comes with its
  identifier. -/
  put : ∀ {rest due s s' op doc seq loaded}, op ∈ ops → Within host t o rest due s →
    Placed host t o now op s.pending doc seq loaded →
    (∃ old, curr t o s.pending seq = some old ∧ doc.collection = old.collection ∧
      doc.id = old.id) ∨ (seq ∈ rest ∧ C op s) →
    documentPut host t o doc seq loaded s = .ok s' →
    Within host t o (rest.filter fun q => q ≠ seq) due s' → K due s → K due s'
  forget : ∀ {rest due s q d}, Within host t o rest due s → curr t o s.pending q = some d →
    Within host t o rest ((q, d) :: due) { s with pending := Db.forget s.pending d q } →
    K due s → K ((q, d) :: due) { s with pending := Db.forget s.pending d q }
  forgetAgain : ∀ {rest due s q d}, Within host t o rest ((q, d) :: due) s → K ((q, d) :: due) s →
    K ((q, d) :: due) { s with pending := Db.forget s.pending d q }
  retract : ∀ {rest due s q d}, Within host t o rest ((q, d) :: due) s → K ((q, d) :: due) s →
    K due { s with writes := s.writes ++ [.retract q] }

variable {precondition : List DocumentFilter} {expectedVersion : Option ℕ}
  {gathered : List Gathered} {data : JsonObject} {expiry : Expiry}

section

variable {host : Host} {t : TenantId} {o : Objects Record} {now : Utf16} {ops : List DocumentWrite}
  {C : DocumentWrite → Staged → Prop} {K : List (Seq × Document) → Staged → Prop} {rest : List Seq} {due : List (Seq × Document)}
  {s s' : Staged} {op : DocumentWrite}

/-- What a document naming a deleted one is gathered with: its collection's record. -/
def Gathered.Fits (t : TenantId) (o : Objects Record) (g : Gathered) : Prop :=
  (∃ d, docAt t o g.seq = some d ∧ loadCollection t o d.collection = some g.source) ∧
    ∀ r ∈ g.naming, r ∈ g.source.references

variable {seq : Seq} {d : Document}

lemma gatherInto_fits (h : ∀ g ∈ gathered, g.Fits t o)
    {source : StoredCollection} {reference : ReferenceConstraint}
    (hd : docAt t o seq = some d) (hsource : loadCollection t o d.collection = some source)
    (hreference : reference ∈ source.references) :
    ∀ g ∈ gatherInto gathered seq source reference, g.Fits t o := by
  intro g hg
  unfold gatherInto at hg
  split_ifs at hg
  · obtain ⟨g', hg', rfl⟩ := List.mem_map.1 hg
    obtain ⟨hfits, hnaming⟩ := h g' hg'
    split_ifs with hseq
    · refine ⟨hfits, fun r hr => ?_⟩
      rcases mem_append.1 hr with hr | hr
      · exact hnaming r hr
      · obtain ⟨d', hd', hsource'⟩ := hfits
        rw [hseq, hd] at hd'
        cases hd'
        rw [hsource] at hsource'
        cases hsource'
        rw [mem_singleton.1 hr]
        exact hreference
    · exact ⟨hfits, hnaming⟩
  · rcases mem_append.1 hg with hg | hg
    · exact h g hg
    · rw [mem_singleton.1 hg]
      refine ⟨⟨d, hd, hsource⟩, fun r hr => ?_⟩
      rw [mem_singleton.1 hr]
      exact hreference

variable {doc : Document} {p : PendingDocs}

lemma gatherNaming_fits (ho : Kept o) (ht : TenantOk t)
    (h : gatherNaming t o p doc = .ok gathered) : ∀ g ∈ gathered, g.Fits t o := by
  unfold gatherNaming at h
  split at h
  · cases h
    simp
  next target htarget =>
    refine foldlM_ok_induct (J := fun gs => ∀ g ∈ gs, Gathered.Fits t o g) ?_ (by simp) h
    intro back _ gs gs' hgs hback
    unfold gatherBack at hback
    dsimp only at hback
    split at hback
    · cases hback
      exact hgs
    next source hsource =>
      have hsource : loadCollection t o back.collection = some source := by
        split_ifs at hsource with hsame
        · cases hsource
          rw [hsame]
          exact htarget
        · exact hsource
      split at hback
      · cases hback
        exact hgs
      next reference hreference =>
        refine foldlM_ok_induct (J := fun gs => ∀ g ∈ gs, Gathered.Fits t o g) ?_ hgs hback
        intro held hheld gs gs' hgs hstep
        unfold gatherHeld at hstep
        split at hstep
        · cases hstep
          exact hgs
        · split_ifs at hstep
          · cases hstep
            exact hgs
          · cases hstep
            obtain ⟨d, hd, hcol⟩ := ho.docAt_of_column ht (ho.name_of_load hsource).2 hheld
            exact gatherInto_fits hgs hd (by rw [hcol]; exact hsource)
              (mem_of_find?_eq_some hreference)

lemma currentAt_eq (hd : docAt t o q = some d) : currentAt o p q = curr t o p q := by
  unfold currentAt curr
  cases p.bySeq q with
  | some doc => rfl
  | none => exact (readDocument_of_docAt hd).trans hd.symm

variable (ho : Kept o) (ht : TenantOk t) (hfresh : ∀ q ∈ rest, o.held.get q = none)
  (hbound : ∀ q ∈ rest, q ≤ o.lastSeq) (hK : Keeps host t o now ops C K) (hop : op ∈ ops)

include ho ht hfresh hbound hK hop

lemma Keeps.rewrite {loaded : Option StoredCollection} (hw : Within host t o rest due s) (hk : K due s)
    (hplaced : Placed host t o now op s.pending doc seq loaded)
    (hold : ∃ old, curr t o s.pending seq = some old ∧ doc.collection = old.collection ∧ doc.id = old.id)
    (h : documentPut host t o doc seq loaded s = .ok s') : Within host t o rest due s' ∧ K due s' := by
  obtain ⟨edges, manifest, -, hmanifest, heq⟩ := documentPut_eq_ok hplaced.record_eq h
  have hw' := hw.place ho ht hfresh hbound (.inl hold) hmanifest
  rw [← heq] at hw'
  refine ⟨hw'.mono fun q hq => mem_filter.2 ⟨hq, ?_⟩, hK.put hop hw hplaced (.inl hold) h hw' hk⟩
  obtain ⟨old, hcurr, -⟩ := hold
  have hne : q ≠ seq := by
    rintro rfl
    exact hw.notMem_rest hfresh hcurr hq
  simpa using hne

lemma Keeps.release {fuel : ℕ} (hw : Within host t o rest due s) (hk : K due s)
    (h : release host t o now fuel doc s = .ok s') : Within host t o rest due s' ∧ K due s' := by
  induction fuel generalizing due doc s s' with
  | zero => cases h
  | succ fuel ih =>
    unfold Db.release at h
    split at h
    · cases h
    next gathered hgathered =>
      have hfits := gatherNaming_fits ho ht hgathered
      refine foldlM_ok_induct (J := fun s => Within host t o rest due s ∧ K due s) ?_ ⟨hw, hk⟩ h
      intro g hg s s' hs hstep
      obtain ⟨hw, hk⟩ := hs
      obtain ⟨⟨d, hd, hsource⟩, hnaming⟩ := hfits g hg
      unfold releaseHolder at hstep
      rw [currentAt_eq hd] at hstep
      split at hstep
      · cases hstep
        exact ⟨hw, hk⟩
      next holder hholder =>
        have hsame := hw.same_of_curr hholder hd
        dsimp only at hstep
        split_ifs at hstep
        · cases hstep
          exact ⟨hw, hk⟩
        · -- deleted with it: forgotten, then everything naming it, then retracted
          split at hstep
          · cases hstep
          next s'' hrelease =>
            cases hstep
            have hw' := hw.forget ho hfresh hholder
            obtain ⟨hw'', hk''⟩ := ih hw' (hK.forget hw hholder hw' hk) hrelease
            exact ⟨hw''.retract, hK.retract hw'' hk''⟩
        · refine Keeps.rewrite ho ht hfresh hbound hK hop hw hk (Placed.cleared hholder ?_ ?_)
            ⟨holder, hholder, rfl, rfl⟩ hstep
          · rw [hsame.1]
            exact hsource
          · exact fun r hr => hnaming r (mem_of_mem_filter hr)

variable {collection id : Utf16}

lemma Keeps.update {mode : UpdateMode}
    (hupdates : op.updates = some (mode, data, expiry)) (hw : Within host t o rest due s) (hk : K due s)
    (h : applyUpdate host t o now collection id data mode expectedVersion precondition expiry s =
      .ok s') : Within host t o rest due s' ∧ K due s' := by
  unfold applyUpdate at h
  split at h
  next seq current hnamed =>
    have hcurr := hw.curr_of_named ho ht hnamed
    simp only [bind_eq_ok_iff] at h
    obtain ⟨-, -, ⟨⟩, hvalid, h⟩ := h
    split_ifs at h with hschema
    · cases h
    · obtain ⟨expiresAt, hexpiry, hput⟩ := bind_eq_ok_iff.1 h
      exact Keeps.rewrite ho ht hfresh hbound hK hop hw hk
        (Placed.updated hupdates hcurr hvalid hexpiry) ⟨current, hcurr, rfl, rfl⟩ hput
  next => cases h

lemma Keeps.insert (hinserts : op.inserts = some (collection, id, data, expiry, seq)) (hseq : seq ∈ rest)
    (hC : C op s) (hw : Within host t o rest [] s) (hk : K [] s)
    (h : applyInsert host t o now collection id data expiry seq s = .ok s') :
    Within host t o (rest.filter fun q => q ≠ seq) [] s' ∧ K [] s' := by
  unfold applyInsert at h
  cases hrecord : loadCollection t o collection with
  | none =>
    rw [hrecord] at h
    cases h
  | some record =>
    rw [hrecord] at h
    obtain ⟨_, ⟨⟩, h⟩ := bind_eq_ok_iff.1 h
    obtain ⟨⟨⟩, hvalid, h⟩ := bind_eq_ok_iff.1 h
    split_ifs at h with hschema
    · cases h
    · split at h
      · cases h
      next hfree =>
        obtain ⟨expiresAt, hexpiry, hput⟩ := bind_eq_ok_iff.1 h
        have hplaced : Placed host t o now op s.pending _ seq (some record) :=
          Placed.inserted hinserts hrecord hvalid (by simpa using hschema) hfree hexpiry
        obtain ⟨edges, manifest, -, hmanifest, heq⟩ := documentPut_eq_ok hplaced.record_eq hput
        have hw' := hw.place ho ht hfresh hbound
          (.inr ⟨hseq, rfl, (ho.name_of_load hrecord).2, hfree⟩) hmanifest
        rw [← heq] at hw'
        exact ⟨hw', hK.put hop hw hplaced (.inr ⟨hseq, hC⟩) hput hw' hk⟩

lemma Keeps.delete (hw : Within host t o rest due s) (hk : K due s)
    (h : applyDelete host t o now collection id expectedVersion precondition s = .ok s') :
    Within host t o rest due s' ∧ K due s' := by
  unfold applyDelete at h
  split at h
  next seq current hnamed =>
    have hcurr := hw.curr_of_named ho ht hnamed
    simp only [bind_eq_ok_iff] at h
    obtain ⟨⟨⟩, -, released, hrelease, heq⟩ := h
    cases heq
    have hforgot := hw.forget ho hfresh hcurr
    obtain ⟨hreleased, hk'⟩ := Keeps.release ho ht hfresh hbound hK hop hforgot
      (hK.forget hw hcurr hforgot hk) hrelease
    have hagain := hreleased.forgetAgain
    exact ⟨hagain.retract, hK.retract hagain (hK.forgetAgain hreleased hk')⟩
  next =>
    cases h
    exact ⟨hw, hk⟩

omit hfresh hbound in
lemma Keeps.applyWrite {rest : List Seq} (hfresh : ∀ q ∈ seqsOf [op] ++ rest, o.held.get q = none)
    (hbound : ∀ q ∈ seqsOf [op] ++ rest, q ≤ o.lastSeq) (hnodup : (seqsOf [op] ++ rest).Nodup)
    (hC : C op s) (hw : Within host t o (seqsOf [op] ++ rest) [] s) (hk : K [] s)
    (h : applyWrite host t o now s op = .ok s') : Within host t o rest [] s' ∧ K [] s' := by
  have hrest : ∀ {s}, Within host t o (seqsOf [op] ++ rest) [] s → Within host t o rest [] s :=
    fun hw => hw.mono fun q hq => mem_append_right _ hq
  have hinsert : ∀ {collection id data expiry seq}, op.inserts = some (collection, id, data, expiry, seq) →
      applyInsert host t o now collection id data expiry seq s = .ok s' →
      Within host t o rest [] s' ∧ K [] s' := by
    intro collection id data expiry seq hinserts h
    have hseqs : seqsOf [op] = [seq] := by simp [seqsOf, hinserts]
    obtain ⟨hw', hk'⟩ := Keeps.insert ho ht hfresh hbound hK hop hinserts
      (by rw [hseqs]; simp) hC hw hk h
    refine ⟨hw'.mono fun q hq => mem_filter.2 ⟨mem_append_right _ hq, ?_⟩, hk'⟩
    have hne : q ≠ seq := by
      rintro rfl
      rw [hseqs] at hnodup
      exact (nodup_cons.1 hnodup).1 hq
    simpa using hne
  cases op with
  | insert collection id data expiry seq => exact hinsert rfl h
  | update collection id data mode expectedVersion precondition =>
    obtain ⟨hw', hk'⟩ := Keeps.update ho ht hfresh hbound hK hop rfl hw hk h
    exact ⟨hrest hw', hk'⟩
  | upsert collection id data expectedVersion expiry seq =>
    dsimp only [Db.applyWrite] at h
    split at h
    · obtain ⟨hw', hk'⟩ := Keeps.update ho ht hfresh hbound hK hop rfl hw hk h
      exact ⟨hrest hw', hk'⟩
    · split at h
      · cases h
      · exact hinsert rfl h
  | delete collection id expectedVersion precondition =>
    obtain ⟨hw', hk'⟩ := Keeps.delete ho ht hfresh hbound hK hop hw hk h
    exact ⟨hrest hw', hk'⟩

omit hfresh hbound hop in
/-- What every step of a transaction preserves, its changes preserve; and what holds inside a
transaction holds at its end, with nothing left to retract. -/
theorem foldlM_induct (hfresh : ∀ q ∈ seqsOf ops, o.held.get q = none)
    (hbound : ∀ q ∈ seqsOf ops, q ≤ o.lastSeq) (hnodup : (seqsOf ops).Nodup)
    (hC : ∀ before op after s, ops = before ++ op :: after →
      before.foldlM (Db.applyWrite host t o now) {} = .ok s → C op s) (hk : K [] {})
    (h : ops.foldlM (Db.applyWrite host t o now) {} = .ok s') : Within host t o [] [] s' ∧ K [] s' := by
  -- over the changes still to come, whose identifiers are the ones not used
  have hfold : ∀ l done s, ops = done ++ l → done.foldlM (Db.applyWrite host t o now) {} = .ok s →
      Within host t o (seqsOf l) [] s → K [] s → l.foldlM (Db.applyWrite host t o now) s = .ok s' →
      Within host t o [] [] s' ∧ K [] s' := by
    intro l
    induction l with
    | nil =>
      intro done s _ _ hw hk h
      cases h
      exact ⟨hw, hk⟩
    | cons op l ih =>
      intro done s hops hdone hw hk h
      have hcons : seqsOf (op :: l) = seqsOf [op] ++ seqsOf l := by
        unfold seqsOf
        rw [← filterMap_append, singleton_append]
      have hsub : (seqsOf (op :: l)).Sublist (seqsOf ops) := by
        rw [hops]
        exact (sublist_append_right done (op :: l)).filterMap _
      rw [foldlM_cons] at h
      obtain ⟨s'', hstep, h⟩ := bind_eq_ok_iff.1 h
      have hnodup' := hnodup.sublist hsub
      have hmem := hsub.subset
      rw [hcons] at hnodup' hmem hw
      obtain ⟨hw', hk'⟩ := Keeps.applyWrite ho ht hK (by rw [hops]; simp)
        (fun q hq => hfresh q (hmem hq)) (fun q hq => hbound q (hmem hq)) hnodup'
        (hC done op l s hops hdone) hw hk hstep
      refine ih (done ++ [op]) s'' (by rw [hops, append_assoc, singleton_append]) ?_ hw' hk' h
      rw [foldlM_append, hdone]
      exact (bind_eq_ok_iff (x := Except.ok s)).2 ⟨s, rfl, by
        rw [foldlM_cons, hstep]
        rfl⟩
  exact hfold ops [] {} rfl rfl (Within.start ho ht _) hk h

end

/-! ## What a batch leaves -/

section

variable {host : Host} {t : TenantId} {d : Document} {collection : Option StoredCollection}
  {edges : List (Utf16 × Seq)} {manifest : IndexManifest}

lemma mem_columns_of_manifestFor (h : manifestFor host t d collection edges = some manifest)
    {column : Utf16 × OrderedScalar} : column ∈ manifest.columns ↔ column ∈ columnsFor t d.collection d.data ∨
        ∃ index ∈ collection.elim [] StoredCollection.indexes, ∃ tuple,
          indexTuple index d.data = some tuple ∧ column = (index.column, .string tuple) := by
  unfold manifestFor at h
  obtain ⟨tuples, htuples, h⟩ := bind_eq_some_iff.1 h
  cases h
  rw [mem_append, List.mem_map]
  refine or_congr_right ?_
  constructor
  · rintro ⟨e, he, rfl⟩
    obtain ⟨index, hindex, hposted⟩ := (mem_of_mapM htuples).1 he
    obtain ⟨tuple, htuple, rfl⟩ := map_eq_some_iff.1 hposted
    exact ⟨index, hindex, tuple, htuple, rfl⟩
  · rintro ⟨index, hindex, tuple, htuple, rfl⟩
    refine ⟨(index.column, tuple), (mem_of_mapM htuples).2 ⟨index, hindex, ?_⟩, rfl⟩
    rw [htuple]
    rfl

lemma posted_of_manifestFor (h : manifestFor host t d collection edges = some manifest)
    {index : StoredIndex} (hindex : index ∈ collection.elim [] StoredCollection.indexes) :
    ∃ tuple, indexTuple index d.data = some tuple ∧ (index.column, .string tuple) ∈ manifest.columns := by
  have hmem := fun column => @mem_columns_of_manifestFor host t d collection edges manifest h column
  unfold manifestFor at h
  obtain ⟨tuples, htuples, -⟩ := bind_eq_some_iff.1 h
  obtain ⟨e, he⟩ := exists_of_mapM htuples hindex
  obtain ⟨tuple, htuple, -⟩ := map_eq_some_iff.1 he
  exact ⟨tuple, htuple, (hmem (index.column, .string tuple)).2 (.inr ⟨index, hindex, tuple, htuple, rfl⟩)⟩

lemma edges_of_manifestFor (h : manifestFor host t d collection edges = some manifest) :
    manifest.edges = edges := by
  unfold manifestFor at h
  obtain ⟨tuples, -, h⟩ := bind_eq_some_iff.1 h
  cases h
  rfl

lemma shape_of_manifestFor (ho : Kept o) (ht : TenantOk t)
    (hname : isName d.collection = true) (hbody : h.body = .document d)
    (hid : h.identity = some ⟨documentNs t d.collection, d.id⟩)
    (hmanifest : manifestFor host t d (loadCollection t o d.collection) edges = some h.manifest) :
    Shape h := by
  refine .document t d ht hbody hid hname ?_ ?_
  · exact (mem_columns_of_manifestFor hmanifest).2 (.inl mem_cons_self)
  · intro column hcolumn
    rcases (mem_columns_of_manifestFor hmanifest).1 hcolumn with
      hfield | ⟨index, hindex, tuple, htuple, rfl⟩
    · rcases mem_cons.1 hfield with rfl | hfield
      · exact .inl rfl
      · obtain ⟨scalar, -, rfl⟩ := List.mem_map.1 hfield
        exact .inr (.inl ⟨scalar.1, rfl⟩)
    · cases hload : loadCollection t o d.collection with
      | none =>
        rw [hload] at hindex
        exact absurd hindex not_mem_nil
      | some c =>
        rw [hload] at hindex
        obtain ⟨salt, hsalt⟩ := (ho.indexesOk hload).column index hindex
        obtain ⟨fields, -, rfl⟩ := map_eq_some_iff.1 htuple
        rw [(ho.name_of_load hload).1] at hsalt
        exact .inr (.inr ⟨index.name, salt, fields.flatten, by rw [hsalt]⟩)

end

namespace Within

variable {host : Host} {t : TenantId} {o : Objects Record} {s : Staged}

lemma held_cases (h : Within host t o [] [] s) (q : Seq) : (o.commit s.writes).held.get q = o.held.get q ∨
      (o.held.get q = none ∨ ∃ d₀, docAt t o q = some d₀) ∧
        ((o.commit s.writes).held.get q = none ∨ ∃ held d edges,
          (o.commit s.writes).held.get q = some held ∧ held.body = .document d ∧
          held.identity = some ⟨documentNs t d.collection, d.id⟩ ∧ isName d.collection = true ∧
          q ≤ o.lastSeq ∧ s.pending.bySeq q = some (some d) ∧
          manifestFor host t d (loadCollection t o d.collection) edges = some held.manifest) := by
  cases hby : s.pending.bySeq q with
  | none => exact .inl (h.kept q hby)
  | some doc =>
    obtain ⟨hbound, hown⟩ := h.own q doc hby
    refine .inr ⟨hown, ?_⟩
    cases doc with
    | none => exact .inl (h.gone q hby (by simp))
    | some d =>
      obtain ⟨held, edges, hheld, hbody, hid, hmanifest⟩ := h.put q d hby
      exact .inr ⟨held, d, edges, hheld, hbody, hid, h.name q d hby, hbound, rfl, hmanifest⟩

lemma kept_commit (ho : Kept o) (ht : TenantOk t) (h : Within host t o [] [] s) :
    Kept (o.commit s.writes) := by
  refine ⟨h.named, ?_, ?_⟩
  · intro q held hheld
    rw [lastSeq_commit]
    rcases h.held_cases q with heq | ⟨-, hnone | ⟨held', d, edges, -, -, -, -, hbound, -⟩⟩
    · rw [heq] at hheld
      exact ho.bounded q held hheld
    · rw [hnone] at hheld
      cases hheld
    · exact hbound
  · intro q held hheld
    rcases h.held_cases q with heq | ⟨-, hnone |
      ⟨held', d, edges, hheld', hbody, hid, hname, -, -, hmanifest⟩⟩
    · rw [heq] at hheld
      exact ho.shapes q held hheld
    · rw [hnone] at hheld
      cases hheld
    · rw [hheld] at hheld'
      cases hheld'
      exact shape_of_manifestFor ho ht hname hbody hid hmanifest

lemma docAt_commit (h : Within host t o [] [] s) (q : Seq) :
    docAt t (o.commit s.writes) q = curr t o s.pending q := by
  cases hby : s.pending.bySeq q with
  | none =>
    rw [curr_of_none hby]
    unfold docAt
    rw [h.kept q hby]
  | some doc =>
    rw [curr_of_some hby]
    cases doc with
    | none =>
      unfold docAt
      rw [h.gone q hby (by simp)]
      rfl
    | some d =>
      obtain ⟨held, edges, hheld, hbody, hid, -⟩ := h.put q d hby
      exact docAt_eq_some.2 ⟨held, hheld, hbody, hid⟩

variable {i : ObjectIdentity} {q : Seq}

/-- Only documents of the transaction's tenant are written. -/
lemma held_commit (hw : Within host t o [] [] s) {held : Held Record}
    (hid : held.identity = some i) (hi : ∀ c, i.ns ≠ documentNs t c) :
    (o.commit s.writes).held.get q = some held ↔ o.held.get q = some held := by
  rcases hw.held_cases q with heq | ⟨hold, hnew⟩
  · rw [heq]
  · constructor
    · intro hheld
      rcases hnew with hnew | ⟨held', d, edges, hheld', -, hid', -⟩
      · rw [hnew] at hheld
        cases hheld
      · rw [hheld] at hheld'
        cases hheld'
        rw [hid] at hid'
        exact absurd (by rw [some.inj hid']) (hi d.collection)
    · intro hheld
      rcases hold with hold | ⟨d, hd⟩
      · rw [hold] at hheld
        cases hheld
      · have hsame := hid.symm.trans (identity_of_docAt hd hheld)
        exact absurd (by rw [some.inj hsame]) (hi d.collection)

lemma named_commit (ho : Kept o) (hw : Within host t o [] [] s)
    (hi : ∀ c, i.ns ≠ documentNs t c) : (o.commit s.writes).named i = o.named i := by
  ext q
  rw [hw.named, ho.named]
  refine exists_congr fun held => ?_
  constructor
  · rintro ⟨hheld, hid⟩
    exact ⟨(hw.held_commit hid hi).1 hheld, hid⟩
  · rintro ⟨hheld, hid⟩
    exact ⟨(hw.held_commit hid hi).2 hheld, hid⟩

lemma docAt_commit_of_ne (ht : TenantOk t) (h : Within host t o [] [] s) {t' : TenantId}
    (ht' : TenantOk t') (hne : t' ≠ t) (q : Seq) : docAt t' (o.commit s.writes) q = docAt t' o q := by
  ext d
  rw [docAt_eq_some, docAt_eq_some]
  refine exists_congr fun held => and_congr_left fun hd => ?_
  exact h.held_commit hd.2 fun c hns => hne (documentNs_inj ht' ht hns).1

lemma load_commit (ho : Kept o) (h : Within host t o [] [] s) (t' : TenantId)
    (n : Utf16) : loadCollection t' (o.commit s.writes) n = loadCollection t' o n := by
  have hi : ∀ c, collectionNs t' ≠ documentNs t c := fun c hns => documentNs_ne_collectionNs hns.symm
  refine loadCollection_congr ?_
  unfold Objects.under
  rw [h.named_commit ho hi]
  cases hq : o.named ⟨collectionNs t', n⟩ with
  | none => rfl
  | some q =>
    obtain ⟨held, hheld, hid⟩ := (ho.named _ _).1 hq
    exact ((h.held_commit hid hi).2 hheld).trans hheld.symm

end Within

end Zelavis.Db
