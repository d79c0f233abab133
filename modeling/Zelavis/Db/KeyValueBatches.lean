import Zelavis.Db.KeyValueWrites

/-!
# Requests of a namespace, as changes of a map
-/

namespace Zelavis.Db

open Lib List

variable {ws : List (KeyValueWrite × Expires)}

section

variable {host : Host} {t : TenantId} {o : Objects Record} {name : Utf16}

/-! ## What a name finds -/

lemma findById_eq_some (ho : Kept o) (ht : TenantOk t) {id : Utf16} {d : Document} :
    findById t o name id = some d ↔ ∃ q, docAt t o q = some d ∧ d.collection = name ∧ d.id = id := by
  unfold findById
  rw [Option.bind_eq_some_iff]
  refine exists_congr fun q => ?_
  show o.named ⟨documentNs t name, id⟩ = some q ∧ _ ↔ _
  rw [ho.named_iff ht]
  constructor
  · rintro ⟨⟨d', hd', hc, hid⟩, hread⟩
    rw [readDocument_of_docAt hd'] at hread
    cases hread
    exact ⟨hd', hc, hid⟩
  · rintro ⟨hd, hc, hid⟩
    exact ⟨⟨d, hd, hc, hid⟩, readDocument_of_docAt hd⟩

lemma documentNamed_empty (id : Utf16) : documentNamed t o {} name id = findById t o name id := by
  unfold documentNamed currentNamed findById
  cases o.lookup (documentNs t name) id <;> rfl

lemma findById_commit (ho : Kept o) (ht : TenantOk t) (hname : isName name = true) {s : Staged}
    (hw : Within host t o [] [] s) (id : Utf16) :
    findById t (o.commit s.writes) name id = documentNamed t o s.pending name id := by
  ext d
  rw [findById_eq_some (hw.kept_commit ho ht) ht]
  constructor
  · rintro ⟨q, hd, hc, hid⟩
    rw [hw.docAt_commit] at hd
    unfold documentNamed
    rw [(hw.names name id hname q d).2 ⟨hd, hc, hid⟩]
    rfl
  · intro hd
    obtain ⟨q, hnamed⟩ := currentNamed_of_documentNamed hd
    obtain ⟨hcurr, hc, hid⟩ := (hw.names name id hname q d).1 hnamed
    exact ⟨q, by rw [hw.docAt_commit]; exact hcurr, hc, hid⟩

lemma moveFence_ne {t' : TenantId} {c : Utf16} : MOVE_FENCE_NAMESPACE ≠ documentNs t' c := by
  intro h
  exact absurd (List.cons.inj h).1 (by decide)

lemma assertNotMoving_commit (ho : Kept o) {s : Staged} (hw : Within host t o [] [] s) :
    assertNotMoving t (o.commit s.writes) = assertNotMoving t o := by
  have hi : ∀ c, (⟨MOVE_FENCE_NAMESPACE, t⟩ : ObjectIdentity).ns ≠ documentNs t c :=
    fun c => moveFence_ne
  have hlookup : ((o.commit s.writes).lookup MOVE_FENCE_NAMESPACE t).bind (o.commit s.writes).read =
      (o.lookup MOVE_FENCE_NAMESPACE t).bind o.read := by
    have hnamed := hw.named_commit ho hi
    show ((o.commit s.writes).named ⟨MOVE_FENCE_NAMESPACE, t⟩).bind _ = (o.named _).bind _
    rw [hnamed]
    cases hq : o.named ⟨MOVE_FENCE_NAMESPACE, t⟩ with
    | none => rfl
    | some q =>
      obtain ⟨held, hheld, hid⟩ := (ho.named _ q).1 hq
      show (o.commit s.writes).read q = o.read q
      unfold Objects.read
      rw [(hw.held_commit hid hi).2 hheld, hheld]
  unfold assertNotMoving
  rw [hlookup]

/-! ## The store of a namespace -/

/-- A store with a collection whose documents stand alone, of a tenant that is not moving. -/
structure Serves (t : TenantId) (name : Utf16) (record : StoredCollection) (o : Objects Record) :
    Prop where
  kept : Kept o
  recorded : loadCollection t o name = some record
  still : assertNotMoving t o = .ok ()

variable {record : StoredCollection}

lemma Serves.commit (h : Serves t name record o) (ht : TenantOk t) {s : Staged}
    (hw : Within host t o [] [] s) : Serves t name record (o.commit s.writes) where
  kept := hw.kept_commit h.kept ht
  recorded := (hw.load_commit h.kept t name).trans h.recorded
  still := (assertNotMoving_commit h.kept hw).trans h.still

lemma allocate_spec (ops : List DocumentOperation) (o : Objects Record) :
    ∃ last, (allocate ops o).1 = { o with lastSeq := last } ∧ o.lastSeq ≤ last ∧
      (allocate ops o).2.length = ops.length ∧ (∀ q, some q ∈ (allocate ops o).2 → o.lastSeq < q ∧ q ≤ last) ∧
      ((allocate ops o).2.filterMap id).Nodup := by
  induction ops generalizing o with
  | nil => exact ⟨o.lastSeq, rfl, le_rfl, rfl, fun q h => absurd h not_mem_nil, nodup_nil⟩
  | cons op ops ih =>
    rw [allocate]
    split_ifs with htakes
    · obtain ⟨last, hstore, hle, hlength, hmem, hnodup⟩ := ih o.nextSeq.2
      refine ⟨last, hstore, (Nat.le_succ _).trans hle, congrArg (· + 1) hlength, fun q hq => ?_, ?_⟩
      · rcases mem_cons.1 hq with heq | hq
        · rw [Option.some.inj heq]
          exact ⟨Nat.lt_succ_self _, hle⟩
        · exact ⟨(Nat.lt_succ_self _).trans (hmem q hq).1, (hmem q hq).2⟩
      · show (o.nextSeq.1 :: (allocate ops o.nextSeq.2).2.filterMap id).Nodup
        refine nodup_cons.2 ⟨fun hself => ?_, hnodup⟩
        obtain ⟨q, hq, hqself⟩ := mem_filterMap.1 hself
        have hq' : q = some o.nextSeq.1 := hqself
        have hlt : o.lastSeq + 1 < o.nextSeq.1 := (hmem _ (hq' ▸ hq)).1
        exact absurd hlt (lt_irrefl _)
    · obtain ⟨last, hstore, hle, hlength, hmem, hnodup⟩ := ih o
      refine ⟨last, hstore, hle, congrArg (· + 1) hlength, fun q hq => ?_, hnodup⟩
      rcases mem_cons.1 hq with heq | hq
      · cases heq
      · exact hmem q hq

/-- Every document of a namespace is under a key that is read as it was written. -/
def LegibleKeys (t : TenantId) (name : Utf16) (o : Objects Record) : Prop :=
  ∀ id d, findById t o name id = some d → Legible id

lemma Serves.allocated (h : Serves t name record o) {last : Seq} (hle : o.lastSeq ≤ last) :
    Serves t name record { o with lastSeq := last } where
  kept := ⟨h.kept.named, fun q held hheld => (h.kept.bounded q held hheld).trans hle, h.kept.shapes⟩
  recorded := h.recorded
  still := h.still

/-! ## A batch -/

section

variable {D : Dates} {now : ℤ} {m : KeyValueMap} {s : Staged}

/-- No change of a batch meets an expired entry: neither one that was, nor one that a change before
it left expired. -/
def meetsNothing (D : Dates) (now : ℤ) : (Utf16 → Bool) → List (KeyValueWrite × Expires) → Bool
  | _, [] => true
  | expired, w :: ws => !expired w.1.key &&
      meetsNothing D now (changed expired w.1.key (w.1.leavesExpired D now w.2)) ws

def changesOf (D : Dates) (now : ℤ) (name : Utf16) (ws : List (KeyValueWrite × Expires))
    (seqs : List (Option Seq)) : List DocumentWrite :=
  (ws.zip seqs).map fun e =>
    (e.1.1.operation name e.1.2).change (D.clock now) e.1.1.key (e.2.getD 0)

variable (host) in
lemma applyWritten_changes (hr : Standalone record) (hload : loadCollection t o name = some record)
    (seqs : List (Option Seq)) (hlength : seqs.length = ws.length) {expired : Utf16 → Bool}
    (hs : Shows D name (fun _ => now) (documentNamed t o s.pending name) m)
    (hexpired : ∀ id d, documentNamed t o s.pending name id = some d →
      isExpired D now d.expiresAt = true → expired id = true)
    (hmeets : meetsNothing D now expired ws = true) (hk : ∀ w ∈ ws, Legible w.1.key) :
    (∀ fault, m.changes (rulesOf host t name record) D name now ws = .error fault →
      applyWritten host t o (D.clock now).now s (changesOf D now name ws seqs) = .error fault) ∧
    ∀ m' answers, m.changes (rulesOf host t name record) D name now ws = .ok (m', answers) →
      ∃ s' written, applyWritten host t o (D.clock now).now s (changesOf D now name ws seqs) =
          .ok (s', written) ∧ written.map writtenOf = answers ∧
        Shows D name (fun _ => now) (documentNamed t o s'.pending name) m' := by
  induction ws generalizing seqs expired s m with
  | nil =>
    refine ⟨fun fault h => ?_, fun m' answers h => ?_⟩
    · cases h
    · cases h
      refine ⟨s, [], ?_, rfl, hs⟩
      cases seqs <;> rfl
  | cons w ws ih =>
    cases seqs with
    | nil => cases hlength
    | cons seq seqs =>
      rw [meetsNothing, Bool.and_eq_true, Bool.not_eq_true'] at hmeets
      obtain ⟨hfresh, hmeets⟩ := hmeets
      have hfresh : ∀ d, documentNamed t o s.pending name w.1.key = some d →
          isExpired D now d.expiresAt = false := by
        intro d hd
        cases hd' : isExpired D now d.expiresAt with
        | false => rfl
        | true => rw [hexpired _ d hd hd'] at hfresh; cases hfresh
      obtain ⟨hrefused, hdone⟩ := applyWrite_follows w.2 hr hload hs
        (hk w mem_cons_self) hfresh (seq.getD 0)
      have hops : changesOf D now name (w :: ws) (seq :: seqs) =
          (w.1.operation name w.2).change (D.clock now) w.1.key (seq.getD 0) ::
            changesOf D now name ws seqs := rfl
      rw [hops]
      unfold KeyValueMap.changes applyWritten
      cases hchange : m.change (rulesOf host t name record) D name now w.2 w.1 with
      | error fault =>
        refine ⟨fun fault' h => ?_, fun m' answers h => ?_⟩
        · cases h
          rw [hrefused fault hchange]
          rfl
        · cases h
      | ok after =>
        obtain ⟨m₁, answer⟩ := after
        obtain ⟨s₁, written, happly, hwritten, hanswer, hshows, hleaves⟩ := hdone m₁ answer hchange
        have hexpired' : ∀ id d, documentNamed t o s₁.pending name id = some d →
            isExpired D now d.expiresAt = true →
            changed expired w.1.key (w.1.leavesExpired D now w.2) id = true := by
          intro id d hd hd'
          have hleaves := hleaves id d hd hd'
          unfold changed
          split_ifs at hleaves ⊢ with hid
          · exact hleaves
          · exact hexpired id d hleaves hd'
        obtain ⟨hrefused', hdone'⟩ := ih seqs (Nat.succ.inj hlength) hshows hexpired' hmeets
          fun w hw => hk w (mem_cons_of_mem _ hw)
        rw [happly]
        simp only [ok_bind]
        refine ⟨fun fault h => ?_, fun m' answers h => ?_⟩
        · cases hrest : m₁.changes (rulesOf host t name record) D name now ws with
          | error fault' =>
            rw [hrest] at h
            cases h
            rw [hrefused' _ hrest]
            rfl
          | ok rest =>
            rw [hrest] at h
            cases h
        · obtain ⟨⟨m₂, rest⟩, hrest, h⟩ := bind_eq_ok_iff.1 h
          cases h
          obtain ⟨s', written', happly', hanswers, hshows'⟩ := hdone' m₂ rest hrest
          refine ⟨s', written :: written', ?_, ?_, hshows'⟩
          · rw [happly', hwritten]
            rfl
          · rw [map_cons, hanswer, hanswers]

/-! ## A request -/

lemma idOr_operation (w : KeyValueWrite) (expires : Expires) :
    (w.operation name expires).idOr [] = w.key := by
  cases w with
  | set key value expectedVersion ifAbsent e => cases ifAbsent <;> rfl
  | remove key expectedVersion => rfl

lemma changes_eq_changesOf {request : KeyedRequest}
    (hops : request.operations = ws.map fun w => w.1.operation name w.2) (seqs : List (Option Seq)) :
    request.changes (D.clock now) (request.operations.map (DocumentOperation.idOr [])) seqs =
      changesOf D now name ws seqs := by
  unfold KeyedRequest.changes changesOf
  rw [hops]
  clear hops
  induction ws generalizing seqs with
  | nil => rfl
  | cons w ws ih =>
    cases seqs with
    | nil => rfl
    | cons seq seqs =>
      simp only [map_cons, zip_cons_cons]
      rw [ih seqs, idOr_operation]

lemma inserts_operation {w : KeyValueWrite} {expires : Expires} {q : Seq} {i}
    (h : ((w.operation name expires).change (D.clock now) w.key q).inserts = some i) :
    (w.operation name expires).takesSeq = true ∧ i.2.2.2.2 = q := by
  cases w with
  | set key value expectedVersion ifAbsent e =>
    cases ifAbsent with
    | true | false =>
      cases h
      exact ⟨rfl, rfl⟩
  | remove key expectedVersion => cases h

variable (D now name) in
lemma seqsOf_changesOf (ws : List (KeyValueWrite × Expires)) (o : Objects Record) :
    (seqsOf (changesOf D now name ws (allocate (ws.map fun w => w.1.operation name w.2) o).2)).Sublist
      ((allocate (ws.map fun w => w.1.operation name w.2) o).2.filterMap id) := by
  induction ws generalizing o with
  | nil => exact List.Sublist.slnil
  | cons w ws ih =>
    have hcons : ∀ (seq : Option Seq) (seqs : List (Option Seq)),
        seqsOf (changesOf D now name (w :: ws) (seq :: seqs)) =
          seqsOf [(w.1.operation name w.2).change (D.clock now) w.1.key (seq.getD 0)] ++
            seqsOf (changesOf D now name ws seqs) := by
      intro seq seqs
      unfold seqsOf
      rw [← filterMap_append]
      rfl
    have hone : ∀ q, seqsOf [(w.1.operation name w.2).change (D.clock now) w.1.key q] = [] ∨
        (w.1.operation name w.2).takesSeq = true ∧
          seqsOf [(w.1.operation name w.2).change (D.clock now) w.1.key q] = [q] := by
      intro q
      unfold seqsOf
      cases hinserts : ((w.1.operation name w.2).change (D.clock now) w.1.key q).inserts with
      | none =>
        refine Or.inl ?_
        rw [filterMap_cons, hinserts]
        rfl
      | some i =>
        obtain ⟨htakes, hq⟩ := inserts_operation hinserts
        refine Or.inr ⟨htakes, ?_⟩
        rw [filterMap_cons, hinserts]
        exact congrArg (fun q => [q]) hq
    rw [map_cons, allocate]
    split_ifs with htakes
    · rw [hcons]
      have hrest := ih o.nextSeq.2
      rcases hone o.nextSeq.1 with hnil | ⟨-, hsingle⟩
      · rw [Option.getD_some, hnil]
        exact hrest.cons _
      · rw [Option.getD_some, hsingle]
        exact hrest.cons_cons _
    · rw [hcons]
      rcases hone ((none : Option Seq).getD 0) with hnil | ⟨htakes', -⟩
      · rw [hnil]
        exact ih o
      · exact absurd htakes' htakes

variable (host) in
lemma writeRequest_does (ht : TenantOk t) (hname : isName name = true) (hr : Standalone record)
    (hserves : Serves t name record o) (ws : List (KeyValueWrite × Expires))
    (hs : Shows D name (fun _ => now) (findById t o name) m) (hmeets : meetsNothing D now
      (fun id => (findById t o name id).any fun d => isExpired D now d.expiresAt) ws = true)
    (hk : ∀ w ∈ ws, Legible w.1.key) (request : KeyedRequest)
    (hops : request.operations = ws.map fun w => w.1.operation name w.2)
    (hvalid : request.validate = .ok ()) :
    Serves t name record (writeRequest host t o (D.clock now) request).1 ∧
    (∀ fault, m.changes (rulesOf host t name record) D name now ws = .error fault →
      (writeRequest host t o (D.clock now) request).2 = .error fault ∧ Shows D name (fun _ => now)
        (findById t (writeRequest host t o (D.clock now) request).1 name) m) ∧
    ∀ m' answers, m.changes (rulesOf host t name record) D name now ws = .ok (m', answers) →
      ∃ written, (writeRequest host t o (D.clock now) request).2 = .ok written ∧
        written.map writtenOf = answers ∧ Shows D name (fun _ => now)
          (findById t (writeRequest host t o (D.clock now) request).1 name) m' := by
  obtain ⟨last, hstore, hle, hlength, hmem, hnodup⟩ := allocate_spec request.operations o
  have hserves' := hserves.allocated hle
  have hlook : ∀ id, documentNamed t { o with lastSeq := last } {} name id = findById t o name id :=
    fun id => documentNamed_empty (o := { o with lastSeq := last }) id
  have hlook' : documentNamed t { o with lastSeq := last } ({} : Staged).pending name =
      findById t o name := funext hlook
  obtain ⟨hrefused, hdone⟩ := applyWritten_changes (s := {}) (o := { o with lastSeq := last })
    host hr hserves'.recorded (allocate request.operations o).2
    (by rw [hlength, hops, length_map]) (by rw [hlook']; exact hs)
    (fun id d hd hexpired => by
      rw [hlook'] at hd
      rw [hd]
      exact hexpired) hmeets hk
  have hkeyed : applyKeyed host t { o with lastSeq := last } (D.clock now)
      (request.operations.map (DocumentOperation.idOr [])) (allocate request.operations o).2 request =
      applyWritten host t { o with lastSeq := last } (D.clock now).now {}
        (changesOf D now name ws (allocate request.operations o).2) := by
    unfold applyKeyed
    rw [hserves'.still, changes_eq_changesOf hops]
    rfl
  have hfaulted : ∀ fault, applyWritten host t { o with lastSeq := last } (D.clock now).now {}
      (changesOf D now name ws (allocate request.operations o).2) = .error fault →
      writeRequest host t o (D.clock now) request = ({ o with lastSeq := last }, .error fault) := by
    intro fault happly
    unfold writeRequest
    rw [hvalid]
    dsimp only
    rw [hstore, hkeyed, happly]
  have hlanded : ∀ s written, applyWritten host t { o with lastSeq := last } (D.clock now).now {}
      (changesOf D now name ws (allocate request.operations o).2) = .ok (s, written) →
      writeRequest host t o (D.clock now) request =
        (Objects.commit { o with lastSeq := last } s.writes, .ok written) := by
    intro s written happly
    unfold writeRequest
    rw [hvalid]
    dsimp only
    rw [hstore, hkeyed, happly]
  cases hchanges : m.changes (rulesOf host t name record) D name now ws with
  | error fault =>
    rw [hfaulted fault (hrefused fault hchanges)]
    refine ⟨hserves', fun fault' h => ?_, fun m' answers h => ?_⟩
    · cases h
      exact ⟨rfl, hs⟩
    · cases h
  | ok after =>
    obtain ⟨m', answers⟩ := after
    obtain ⟨s', written, happly, hanswers, hshows⟩ := hdone m' answers hchanges
    rw [hlanded s' written happly]
    have hsub := seqsOf_changesOf name D now ws o
    rw [← hops] at hsub
    have hfresh : ∀ q ∈ seqsOf (changesOf D now name ws (allocate request.operations o).2),
        q ≤ last ∧ o.held.get q = none := by
      intro q hq
      obtain ⟨q', hq', heq⟩ := mem_filterMap.1 (hsub.subset hq)
      have heq : q' = some q := heq
      subst heq
      obtain ⟨hlt, hle'⟩ := hmem q hq'
      refine ⟨hle', ?_⟩
      cases hheld : o.held.get q with
      | none => rfl
      | some held => exact absurd (hserves.kept.bounded q held hheld) (not_le.2 hlt)
    obtain ⟨hfold, -⟩ := applyWritten_eq_ok happly
    obtain ⟨hw, -⟩ := foldlM_uses hserves'.kept ht hfresh (hsub.nodup hnodup) hfold
    refine ⟨hserves'.commit ht hw, fun fault h => ?_, fun m'' answers' h => ?_⟩
    · cases h
    · cases h
      refine ⟨written, rfl, hanswers, ?_⟩
      have hfound : findById t (Objects.commit { o with lastSeq := last } s'.writes) name =
          documentNamed t { o with lastSeq := last } s'.pending name :=
        funext (findById_commit hserves'.kept ht hname hw)
      rw [hfound]
      exact hshows

end

end

end Zelavis.Db
