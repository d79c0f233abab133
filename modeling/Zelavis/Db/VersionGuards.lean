import Zelavis.Db.KeyValueCalls
import Zelavis.Db.Versions

/-!
# Changes that carry the version they were made for

A client reads a document or a key, and later asks for a change that carries the version it read.
-/

namespace Zelavis.Db

open Lib List

/-! ## What a change carries -/

/-- The document a change is about and the version it carries. Source: `documents.ts`
`DocumentWrite`. -/
def DocumentOperation.expects : DocumentOperation → Option (Utf16 × Utf16 × ℕ)
  | .upsert collection id _ expectedVersion _ _ => expectedVersion.map fun v => (collection, id, v)
  | .insert .. => none
  | .update collection id _ _ expectedVersion _ => expectedVersion.map fun v => (collection, id, v)
  | .delete collection id expectedVersion _ => expectedVersion.map fun v => (collection, id, v)

def DocumentOperation.takesNone : DocumentOperation → Bool
  | .upsert .. => false
  | .insert .. => true
  | .update .. => false
  | .delete .. => true

/-- The key a change of a namespace is about and the version it carries. Source: `key-value.ts`
`KeyValueWrite`. -/
def KeyValueWrite.expects (name : Utf16) : KeyValueWrite → Option (Utf16 × Utf16 × ℕ)
  | .set key _ expectedVersion _ _ => expectedVersion.map fun v => (name, key, v)
  | .remove key expectedVersion => expectedVersion.map fun v => (name, key, v)

variable {ops : List DocumentWrite}
  {precondition : List DocumentFilter} {data : JsonObject} {expiry : Expiry} {place : ℕ}
  {seq : Seq}

namespace Versions

/-- What is asked in one transaction: changes of documents, or of a namespace. -/
inductive Request where
  /-- `insert`, `update`, `delete` and `write` of documents. -/
  | documents (request : KeyedRequest)
  /-- `set`, `remove` and `write` of a namespace. -/
  | entries (name : Utf16) (operations : List KeyValueWrite)

def Request.operations (D : Dates) : Request → Except KeyValueError (List DocumentOperation)
  | .documents request => .ok request.operations
  | .entries name operations =>
    operations.mapM fun w => (w.expires D).map fun expires => w.operation name expires

def Request.expects (place : ℕ) : Request → Option (Utf16 × Utf16 × ℕ)
  | .documents request => request.operations[place]?.bind DocumentOperation.expects
  | .entries name operations => operations[place]?.bind (KeyValueWrite.expects name)

/-- The changes with their ids and the identifiers allocated for them. Source: `documents.ts`
`write`. -/
def changesAt (clock : Clock) (generated : ℕ → Utf16) (seq : ℕ → Seq)
    (operations : List DocumentOperation) : List DocumentWrite :=
  operations.mapIdx fun place op => op.change clock (op.idOr (generated place)) (seq place)

/-! ## What a version tells -/

section

variable (host : Host) (t : TenantId) (c id : Utf16) (d : Document)

/-- A name addresses another document than it did in a store read before, and of the same version. -/
def Renewed (read : Objects Record) (o : Objects Record) (p : PendingDocs) : Prop :=
  ∃ q d', currentNamed t o p c id = some (q, some d') ∧ read.lookup (documentNs t c) id ≠ some q ∧
    d'.version = d.version

/-- What is asked of the store, and of the changes before it in its batch, for a change that carries
the version that was read: its document is not a new one of the same version, and where the change
would be accepted without one, there is one. -/
def Meets (read : Objects Record) (o : Objects Record) (now : Utf16) (before : List DocumentWrite)
    (op : DocumentOperation) : Prop :=
  ∀ s, before.foldlM (applyWrite host t o now) {} = .ok s → ¬Renewed t c id d read o s.pending ∧
      (op.takesNone = true → documentNamed t o s.pending c id ≠ none)

/-- Nothing that was accepted since it was read wrote a document, deleted it or created it anew, the
changes before it in its batch included. -/
def Unchanged (ws : List World) (o : Objects Record) (now : Utf16) (before : List DocumentWrite) :
    Prop :=
  ∃ q, Untouched host t c id d q ws ∧ ∀ s, before.foldlM (applyWrite host t o now) {} = .ok s →
      currentNamed t o s.pending c id = some (q, some d) ∧
        ∀ write ∈ s.writes, ¬Concerns o ⟨documentNs t c, id⟩ write

end

section

variable {host : Host} {t : TenantId} {o : Objects Record} {now : Utf16} {c id : Utf16} {v : ℕ}
  {s s' : Staged}

lemma version_of_expect {current : Document}
    (h : expect c current (some v) precondition = .ok ()) : current.version = v := by
  unfold expect at h
  dsimp only at h
  split_ifs at h with hne
  exact (not_not.1 hne).symm

lemma version_of_applyUpdate {mode : UpdateMode}
    (h : applyUpdate host t o now c id data mode (some v) precondition expiry s = .ok s') :
    ∃ q d, currentNamed t o s.pending c id = some (q, some d) ∧ d.version = v := by
  unfold applyUpdate at h
  split at h
  next q current hnamed =>
    obtain ⟨⟨⟩, hexpect, -⟩ := bind_eq_ok_iff.1 h
    exact ⟨q, current, hnamed, version_of_expect hexpect⟩
  next => cases h

lemma documentNamed_eq_none {p : PendingDocs}
    (h : ∀ q d, currentNamed t o p c id ≠ some (q, some d)) : documentNamed t o p c id = none := by
  cases hnamed : documentNamed t o p c id with
  | none => rfl
  | some d =>
    obtain ⟨q, hq⟩ := currentNamed_of_documentNamed hnamed
    exact absurd hq (h q d)

/-- A change that carries a version is accepted on a document of that version, or where there is none
and it may be. -/
theorem version_of_applyWrite {op : DocumentOperation} {clock : Clock} {generated : Utf16}
    (hexpects : op.expects = some (c, id, v))
    (h : applyWrite host t o now s (op.change clock (op.idOr generated) seq) = .ok s') :
    (∃ q d, currentNamed t o s.pending c id = some (q, some d) ∧ d.version = v) ∨
      (op.takesNone = true ∧ documentNamed t o s.pending c id = none) := by
  cases op with
  | upsert collection id' data expectedVersion expiresAt ttlMs =>
    obtain ⟨v', rfl, heq⟩ := Option.map_eq_some_iff.1 hexpects
    cases heq
    refine .inl ?_
    dsimp only [DocumentOperation.change, applyWrite] at h
    split at h
    · exact version_of_applyUpdate h
    · cases h
  | insert collection id' data expiresAt ttlMs => cases hexpects
  | update collection id' data mode expectedVersion precondition =>
    obtain ⟨v', rfl, heq⟩ := Option.map_eq_some_iff.1 hexpects
    cases heq
    exact .inl (version_of_applyUpdate h)
  | delete collection id' expectedVersion precondition =>
    obtain ⟨v', rfl, heq⟩ := Option.map_eq_some_iff.1 hexpects
    cases heq
    dsimp only [DocumentOperation.change, DocumentOperation.idOr, applyWrite] at h
    unfold applyDelete at h
    split at h
    next q current hnamed =>
      obtain ⟨⟨⟩, hexpect, -⟩ := bind_eq_ok_iff.1 h
      exact .inl ⟨q, current, hnamed, version_of_expect hexpect⟩
    next hnone => exact .inr ⟨rfl, documentNamed_eq_none fun q d hq => hnone q d hq⟩

lemma documentNamed_of_applyInsert (h : applyInsert host t o now c id data expiry seq s = .ok s') :
    documentNamed t o s.pending c id = none := by
  unfold applyInsert at h
  cases hrecord : loadCollection t o c with
  | none =>
    rw [hrecord] at h
    cases h
  | some record =>
    rw [hrecord] at h
    obtain ⟨_, ⟨⟩, h⟩ := bind_eq_ok_iff.1 h
    obtain ⟨⟨⟩, -, h⟩ := bind_eq_ok_iff.1 h
    split_ifs at h
    · cases h
    · split at h
      · cases h
      next hfree => exact documentNamed_eq_none fun q d hq => hfree q d hq

/-- What a change of a namespace that carries a version comes to: one of documents that carries it,
or, asked to set a value where there is none, an insert that does not. -/
theorem expects_operation {w : KeyValueWrite} {name : Utf16} {expires : Expires}
    (h : w.expects name = some (c, id, v)) : (w.operation name expires).expects = some (c, id, v) ∨
      ∃ data expiresAt ttlMs, w.operation name expires = .insert c (some id) data expiresAt ttlMs := by
  cases w with
  | set key value expectedVersion ifAbsent expires' =>
    cases ifAbsent with
    | false => exact .inl h
    | true =>
      obtain ⟨v', rfl, heq⟩ := Option.map_eq_some_iff.1 h
      cases heq
      exact .inr ⟨value, expires.expiresAt, expires.ttlMs, rfl⟩
  | remove key expectedVersion => exact .inl h

lemma expects_operations {D : Dates} {request : Request} {operations : List DocumentOperation}
    (hasked : request.operations D = .ok operations)
    (h : request.expects place = some (c, id, v)) : ∃ op, operations[place]? = some op ∧
      (op.expects = some (c, id, v) ∨
        ∃ data expiresAt ttlMs, op = .insert c (some id) data expiresAt ttlMs) := by
  cases request with
  | documents request =>
    cases hasked
    obtain ⟨op, hop, hexpects⟩ := Option.bind_eq_some_iff.1 h
    exact ⟨op, hop, .inl hexpects⟩
  | entries name writes =>
    have hall := mapM_eq_ok_iff.1 hasked
    obtain ⟨w, hw, hexpects⟩ := Option.bind_eq_some_iff.1 h
    clear h hasked
    induction hall generalizing place with
    | nil => cases hw
    | cons hhead _ ih =>
      cases place with
      | zero =>
        cases hw
        cases hexpires : w.expires D with
        | error fault =>
          rw [hexpires] at hhead
          cases hhead
        | ok expires =>
          rw [hexpires] at hhead
          cases hhead
          exact ⟨_, rfl, expects_operation hexpects⟩
      | succ place => exact ih hw

/-! ## Every run -/

lemma Runs.head_mem {w w' : World} {ws : List World} (h : Runs host w ws w') : w ∈ ws := by
  induction h with
  | here => exact mem_singleton.2 rfl
  | step _ _ ih => exact mem_append_left _ ih

lemma Accepts.during_take {w : World} {store : Objects Record}
    (h : Accepts host w t now ops store) (hw : w.Sound) (ht : TenantOk t) (place : ℕ)
    (hs : (ops.take place).foldlM (applyWrite host t w.store now) {} = .ok s) :
    During host t w.store (ops.take place) s := by
  have hsub : (seqsOf (ops.take place)).Sublist (seqsOf ops) := (take_sublist _ _).filterMap _
  exact Versions.during hw.kept ht (fun q hq => hw.reserved q (h.reserved q (hsub.subset hq)))
    (h.nodup.sublist hsub) hs

lemma foldlM_take {op : DocumentWrite}
    (hop : ops[place]? = some op) (h : ops.foldlM (applyWrite host t o now) {} = .ok s') :
    ∃ s s'', (ops.take place).foldlM (applyWrite host t o now) {} = .ok s ∧
      applyWrite host t o now s op = .ok s'' := by
  obtain ⟨hlt, rfl⟩ := List.getElem?_eq_some_iff.1 hop
  rw [← take_append_drop place ops, foldlM_append, drop_eq_getElem_cons hlt] at h
  obtain ⟨s, hs, h⟩ := bind_eq_ok_iff.1 h
  obtain ⟨s'', hs'', -⟩ := bind_eq_ok_iff.1 h
  exact ⟨s, s'', hs, hs''⟩

/-- A change that carries the version a document was read with, accepted in a state that any run since
leads to, is made on the document as it was read, exactly where the name was not given since to a
document of the same version, and, for a change that may be accepted without a document, there is
one. -/
theorem expected_iff (host : Host) (D : Dates) (read w : World) (ws : List World) (t : TenantId)
    (c id : Utf16) (d : Document) (request : Request) (operations : List DocumentOperation)
    (clock : Clock) (generated : ℕ → Utf16) (seq : ℕ → Seq) (store : Objects Record) (place : ℕ)
    (hread : Reached host Any read) (hrun : Runs host read ws w) (ht : TenantOk t)
    (hd : findById t read.store c id = some d) (hasked : request.operations D = .ok operations)
    (haccepted : Accepts host w t clock.now (changesAt clock generated seq operations) store)
    (hexpects : request.expects place = some (c, id, d.version)) :
    Unchanged host t c id d ws w.store clock.now ((changesAt clock generated seq operations).take place) ↔
      ∀ op ∈ operations[place]?, Meets host t c id d read.store w.store clock.now
        ((changesAt clock generated seq operations).take place) op := by
  have hsound := hread.sound
  obtain ⟨q, hdoc, rfl, rfl⟩ := (findById_eq_some hsound.kept ht).1 hd
  have hlookup : read.store.lookup (documentNs t d.collection) d.id = some q :=
    (stands_of_docAt hsound.kept ht hdoc).1
  obtain ⟨hw, -, hq, hcases⟩ := runs_moved hsound ht hdoc hrun
  obtain ⟨op, hop, hguards⟩ := expects_operations hasked hexpects
  have hop' : (changesAt clock generated seq operations)[place]? =
      some (op.change clock (op.idOr (generated place)) (seq place)) := by
    unfold changesAt
    rw [List.getElem?_mapIdx, hop]
    rfl
  obtain ⟨s', hs', -⟩ := writeDocuments_eq_ok haccepted.written
  obtain ⟨s, s'', hs, happly⟩ := foldlM_take hop' hs'
  have hduring := haccepted.during_take hw ht place hs
  constructor
  · rintro ⟨q', huntouched, hturn⟩ op' hop'' s₀ hs₀
    obtain ⟨hnamed, -⟩ := hturn s₀ hs₀
    refine ⟨?_, fun _ hnone => ?_⟩
    · rintro ⟨q'', d', hnamed', hother, -⟩
      rw [hnamed] at hnamed'
      cases hnamed'
      exact hother (huntouched.stands read hrun.head_mem).1
    · unfold documentNamed at hnone
      rw [hnamed] at hnone
      cases hnone
  · intro hmeets
    obtain ⟨hnew, hsome⟩ := hmeets op hop s hs
    have hversion : (∃ q d', currentNamed t w.store s.pending d.collection d.id = some (q, some d') ∧
        d'.version = d.version) ∨
        (op.takesNone = true ∧ documentNamed t w.store s.pending d.collection d.id = none) := by
      rcases hguards with hguards | ⟨data, expiresAt, ttlMs, rfl⟩
      · exact version_of_applyWrite hguards happly
      · exact Or.inr ⟨rfl, documentNamed_of_applyInsert happly⟩
    rcases hversion with ⟨q', d', hnamed, heq⟩ | ⟨htakes, hnone⟩
    · -- the document is the one that was read, as it has its version
      have hq' : q' = q := by
        by_contra hne
        refine hnew ⟨q', d', hnamed, fun hlookup' => ?_, heq⟩
        rw [hlookup] at hlookup'
        exact hne (Option.some.inj hlookup').symm
      rw [hq'] at hnamed
      have hcurr := hduring.within.curr_of_named hw.kept ht hnamed
      have huses := hduring.uses.of_curr hcurr
      have hfresh : q ∉ seqsOf ((changesAt clock generated seq operations).take place) := fun hmem =>
        hq (haccepted.reserved q (((List.take_sublist _ _).filterMap _).subset hmem))
      obtain ⟨d₀, hd₀⟩ := huses.resolve_left hfresh
      rcases hcases with ⟨hd', huntouched⟩ | hmoved
      · rw [hd'] at hd₀
        cases hd₀
        rcases hduring.moves.of_curr hd' hcurr with ⟨hby, rfl⟩ | hlt
        · refine ⟨q, huntouched, fun s₀ hs₀ => ?_⟩
          rw [hs] at hs₀
          cases hs₀
          exact ⟨hnamed, hduring.moves.apart q d' hd' hby⟩
        · exact absurd heq hlt.ne'
      · have hlt := hmoved d₀ hd₀
        rcases hduring.moves.of_curr hd₀ hcurr with ⟨-, rfl⟩ | hlt'
        · exact absurd heq hlt.ne'
        · exact absurd heq (hlt.trans hlt').ne'
    · exact absurd hnone (hsome htakes)

end

/-! ### A document created anew -/

def leftBy (o : Objects Record) (ops : List DocumentWrite) : Objects Record :=
  (writeDocuments plainHost (utf16 "t") o [] ops).toOption.getD .empty

lemma writeDocuments_leftBy {o : Objects Record}
    (h : (writeDocuments plainHost (utf16 "t") o [] ops).toOption.isSome = true) :
    writeDocuments plainHost (utf16 "t") o [] ops = .ok (leftBy o ops) := by
  unfold leftBy
  cases hwrite : writeDocuments plainHost (utf16 "t") o [] ops with
  | ok store => rfl
  | error fault =>
    rw [hwrite] at h
    cases h

def emptyWorld : World where
  store := (createCollection (utf16 "t") .empty [] (fun _ => []) { name := utf16 "a" }).2.nextSeq.2.nextSeq.2
  reserved := [4, 3]

def insertAs (seq : Seq) : DocumentWrite := .insert (utf16 "a") (utf16 "d") [] .keep seq

def readWorld : World where
  store := leftBy emptyWorld.store [insertAs 3]
  reserved := [4]

def deletedWorld : World where
  store := leftBy readWorld.store [.delete (utf16 "a") (utf16 "d") none []]
  reserved := [4]

def renewedWorld : World where
  store := leftBy deletedWorld.store [insertAs 4]

lemma reached_readWorld : Reached plainHost Any readWorld := by
  have hempty : Reached plainHost Any emptyWorld := by
    refine .step (.step (.step .start (@World.Step.create plainHost _ {} (utf16 "t") []
      (fun _ => []) { name := utf16 "a" } (by simp))) .reserve) ?_
    exact .reserve
  refine .step hempty (.write ⟨by decide, by decide⟩ (by decide) (by decide) trivial
    (writeDocuments_leftBy ?_))
  decide +kernel

lemma runs_renewedWorld :
    Runs plainHost readWorld [readWorld, deletedWorld, renewedWorld] renewedWorld := by
  refine .step (.step .here (.write ⟨by decide, by decide⟩ (by decide) (by decide) trivial
    (writeDocuments_leftBy ?_))) (.write ⟨by decide, by decide⟩ (by decide) (by decide) trivial
    (writeDocuments_leftBy ?_))
  · decide +kernel
  · decide +kernel

def updateFirst : Request :=
  .documents (.update (utf16 "a") (utf16 "d") [] none (some 1) none)

def updatesFirst : List DocumentOperation :=
  [.update (utf16 "a") (utf16 "d") [] none (some 1) none]

def noClock : Clock := ⟨[], fun _ => none⟩

def noDates : Dates := ⟨fun _ => none, fun _ => none⟩

lemma accepts_updateFirst {w : World} (h : (writeDocuments plainHost (utf16 "t") w.store []
      (changesAt noClock (fun _ => []) (fun _ => 0) updatesFirst)).toOption.isSome = true) :
    Accepts plainHost w (utf16 "t") noClock.now (changesAt noClock (fun _ => []) (fun _ => 0) updatesFirst)
      (leftBy w.store (changesAt noClock (fun _ => []) (fun _ => 0) updatesFirst)) :=
  ⟨fun q hq => absurd hq not_mem_nil, nodup_nil, writeDocuments_leftBy h⟩

/-- The document was deleted and created anew since it was read, and its version is again the one
read: the update is accepted. -/
theorem not_expected : ¬∀ (host : Host) (D : Dates) (read w : World) (ws : List World) (t : TenantId)
    (c id : Utf16) (d : Document) (request : Request) (operations : List DocumentOperation)
    (clock : Clock) (generated : ℕ → Utf16) (seq : ℕ → Seq) (store : Objects Record) (place : ℕ),
    Reached host Any read → Runs host read ws w → TenantOk t →
    findById t read.store c id = some d → request.operations D = .ok operations →
    Accepts host w t clock.now (changesAt clock generated seq operations) store →
    request.expects place = some (c, id, d.version) → Unchanged host t c id d ws w.store clock.now
      ((changesAt clock generated seq operations).take place) := by
  intro hall
  have hversion : (findById (utf16 "t") readWorld.store (utf16 "a") (utf16 "d")).map
      Document.version = some 1 := by decide +kernel
  obtain ⟨d, hd, hv⟩ := Option.map_eq_some_iff.1 hversion
  obtain ⟨q, huntouched, -⟩ := hall plainHost noDates readWorld renewedWorld
    [readWorld, deletedWorld, renewedWorld] (utf16 "t") (utf16 "a") (utf16 "d") d updateFirst
    updatesFirst noClock (fun _ => []) (fun _ => 0) _ 0 reached_readWorld runs_renewedWorld
    ⟨by decide, by decide⟩ hd rfl (accepts_updateFirst (by decide +kernel)) (by rw [hv]; rfl)
  have hgone : deletedWorld.store.lookup (documentNs (utf16 "t") (utf16 "a")) (utf16 "d") = none := by
    decide +kernel
  have hstands := (huntouched.stands deletedWorld (by simp)).1
  rw [hgone] at hstands
  cases hstands

/-- Nothing happened since the document was read. -/
theorem expected_iff_first : ∃ d, findById (utf16 "t") readWorld.store (utf16 "a") (utf16 "d") = some d ∧
      Unchanged plainHost (utf16 "t") (utf16 "a") (utf16 "d") d [readWorld] readWorld.store [] [] := by
  have hversion : (findById (utf16 "t") readWorld.store (utf16 "a") (utf16 "d")).map
      Document.version = some 1 := by decide +kernel
  obtain ⟨d, hd, hv⟩ := Option.map_eq_some_iff.1 hversion
  refine ⟨d, hd, (expected_iff plainHost noDates readWorld readWorld [readWorld] (utf16 "t")
    (utf16 "a") (utf16 "d") d updateFirst updatesFirst noClock (fun _ => []) (fun _ => 0) _ 0
    reached_readWorld .here ⟨by decide, by decide⟩ hd rfl (accepts_updateFirst (by decide +kernel))
    (by rw [hv]; rfl)).2 ?_⟩
  intro op hop s hs
  cases hop
  cases hs
  refine ⟨?_, fun htakes => by cases htakes⟩
  rintro ⟨q, d', hnamed, hother, -⟩
  have hsame : (currentNamed (utf16 "t") readWorld.store {} (utf16 "a") (utf16 "d")).map Prod.fst =
      readWorld.store.lookup (documentNs (utf16 "t") (utf16 "a")) (utf16 "d") := by decide +kernel
  rw [hnamed] at hsame
  exact hother hsame.symm

/-! ## Requests and calls are runs -/

def Leads (host : Host) (w : World) (o : Objects Record) : Prop :=
  ∃ ws w', Runs host w ws w' ∧ w'.store = o

section

variable {host : Host} {t : TenantId} {w : World}

lemma Runs.trans {w' w'' : World} {ws ws' : List World} (h : Runs host w ws w')
    (h' : Runs host w' ws' w'') : ∃ ws'', Runs host w ws'' w'' := by
  induction h' with
  | here => exact ⟨ws, h⟩
  | step _ hstep ih =>
    obtain ⟨ws'', h''⟩ := ih
    exact ⟨_, h''.step hstep⟩

lemma Runs.reached {w' : World} {ws : List World} (h : Runs host w ws w') (hw : Reached host Any w) :
    Reached host Any w' := by
  induction h with
  | here => exact hw
  | step _ hstep ih => exact ih.step hstep

lemma Leads.refl (w : World) : Leads host w w.store := ⟨[w], w, .here, rfl⟩

lemma Leads.of_eq {α : Type} {r : Objects Record × α} {o : Objects Record} {a : α} (h : Leads host w r.1)
    (heq : r = (o, a)) : Leads host w o := by
  rwa [heq] at h

lemma Leads.trans {o o' : Objects Record} (h : Leads host w o)
    (h' : ∀ w' : World, w'.store = o → Leads host w' o') : Leads host w o' := by
  obtain ⟨ws, w', hruns, hstore⟩ := h
  obtain ⟨ws', w'', hruns', hstore'⟩ := h' w' hstore
  obtain ⟨ws'', hruns''⟩ := hruns.trans hruns'
  exact ⟨ws'', w'', hruns'', hstore'⟩

lemma runs_allocate (host : Host) (ops : List DocumentOperation) (w : World) : ∃ ws w', Runs host w ws w' ∧
    w'.store = (allocate ops w.store).1 ∧ (∀ q ∈ w.reserved, q ∈ w'.reserved) ∧
    ∀ q, some q ∈ (allocate ops w.store).2 → q ∈ w'.reserved := by
  induction ops generalizing w with
  | nil => exact ⟨[w], w, .here, rfl, fun _ hq => hq, fun q hq => absurd hq not_mem_nil⟩
  | cons op ops ih =>
    rw [allocate]
    split_ifs
    · obtain ⟨ws, w', hruns, hstore, hkeep, hnew⟩ := ih { w with
        store := w.store.nextSeq.2, reserved := w.store.nextSeq.1 :: w.reserved }
      obtain ⟨ws', hruns'⟩ := (Runs.here.step World.Step.reserve).trans hruns
      refine ⟨ws', w', hruns', hstore, fun q hq => hkeep q (mem_cons_of_mem _ hq), ?_⟩
      intro q hq
      rcases mem_cons.1 hq with heq | hq
      · rw [Option.some.inj heq]
        exact hkeep _ mem_cons_self
      · exact hnew q hq
    · obtain ⟨ws, w', hruns, hstore, hkeep, hnew⟩ := ih w
      refine ⟨ws, w', hruns, hstore, hkeep, fun q hq => hnew q ?_⟩
      rcases mem_cons.1 hq with heq | hq
      · cases heq
      · exact hq

/-- The changes of some operations with the identifiers allocated for them. -/
def allocated (clock : Clock) (ops : List DocumentOperation) (seqs : List (Option Seq)) :
    List DocumentWrite :=
  (ops.zip ((ops.map (DocumentOperation.idOr [])).zip seqs)).map fun op =>
    op.1.change clock op.2.1 (op.2.2.getD 0)

lemma seqsOf_allocated (clock : Clock) (ops : List DocumentOperation) (o : Objects Record) :
    seqsOf (allocated clock ops (allocate ops o).2) = (allocate ops o).2.filterMap id := by
  induction ops generalizing o with
  | nil => rfl
  | cons op ops ih =>
    have hcons : ∀ (o : Objects Record) (seq : Option Seq),
        seqsOf (allocated clock (op :: ops) (seq :: (allocate ops o).2)) =
          ((op.change clock (op.idOr []) (seq.getD 0)).inserts.map fun i => i.2.2.2.2).toList ++
            (allocate ops o).2.filterMap id := by
      intro o seq
      rw [← ih o]
      unfold seqsOf allocated
      rw [map_cons, zip_cons_cons, zip_cons_cons, map_cons, filterMap_cons]
      cases (op.change clock (op.idOr []) (seq.getD 0)).inserts <;> rfl
    rw [allocate]
    split_ifs with htakes
    · rw [hcons]
      cases op with
      | upsert | insert => rfl
      | update | delete => cases htakes
    · rw [hcons]
      cases op with
      | upsert | insert => exact absurd rfl htakes
      | update | delete => rfl

lemma forM_allocated (clock : Clock) {ops : List DocumentOperation} {seqs : List (Option Seq)}
    (hlength : seqs.length = ops.length) : (allocated clock ops seqs).length = ops.length ∧
      (allocated clock ops seqs).forM DocumentWrite.validate = ops.forM DocumentOperation.validate := by
  induction ops generalizing seqs with
  | nil => exact ⟨rfl, rfl⟩
  | cons op ops ih =>
    cases seqs with
    | nil => cases hlength
    | cons seq seqs =>
      obtain ⟨hlen, hvalid⟩ := ih (Nat.succ.inj hlength)
      have hcons : allocated clock (op :: ops) (seq :: seqs) =
          op.change clock (op.idOr []) (seq.getD 0) :: allocated clock ops seqs := rfl
      have hop : (op.change clock (op.idOr []) (seq.getD 0)).validate = op.validate := by
        cases op <;> rfl
      refine ⟨congrArg (· + 1) hlen, ?_⟩
      show (do DocumentWrite.validate _; (allocated clock ops seqs).forM DocumentWrite.validate) =
        (do op.validate; ops.forM DocumentOperation.validate)
      rw [hop, hvalid]

/-- A request is a run: identifiers are allocated, and a batch is written, unless it is refused. -/
theorem runs_writeRequest (host : Host) (clock : Clock) (w : World) (ht : TenantOk t) (request : KeyedRequest) :
    Leads host w (writeRequest host t w.store clock request).1 := by
  unfold writeRequest
  cases hvalid : request.validate with
  | error fault => exact .refl w
  | ok _ =>
    obtain ⟨ws, w', hruns, hstore, -, hreserved⟩ := runs_allocate host request.operations w
    obtain ⟨last, -, -, hlength, -, hnodup⟩ := allocate_spec request.operations w.store
    dsimp only
    cases happly : applyKeyed host t (allocate request.operations w.store).1 clock
        (request.operations.map (DocumentOperation.idOr [])) (allocate request.operations w.store).2
        request with
    | error fault => exact ⟨ws, w', hruns, hstore⟩
    | ok result =>
      obtain ⟨⟨⟩, hmoving, happly⟩ := bind_eq_ok_iff.1 happly
      have hchanges : request.changes clock (request.operations.map (DocumentOperation.idOr []))
          (allocate request.operations w.store).2 =
          allocated clock request.operations (allocate request.operations w.store).2 := rfl
      obtain ⟨hfold, -⟩ := applyWritten_eq_ok happly
      obtain ⟨hlen, hforM⟩ := forM_allocated clock hlength
      have hseqs := seqsOf_allocated clock request.operations w.store
      unfold KeyedRequest.validate at hvalid
      split_ifs at hvalid with hbounds
      · cases hvalid
      have hwrite : writeDocuments host t w'.store clock.now
          (allocated clock request.operations (allocate request.operations w.store).2) =
            .ok ((allocate request.operations w.store).1.commit result.1.writes) := by
        unfold writeDocuments applyAll
        rw [hlen, if_neg hbounds, hforM, hstore]
        have hvalid : request.operations.forM DocumentOperation.validate = .ok _ := hvalid
        rw [hvalid, hmoving]
        simp only [bind_eq_ok_iff]
        exact ⟨(), trivial, result.1, ⟨(), trivial, hfold⟩, rfl⟩
      have hstep : w'.Step host Any { w' with
          store := (allocate request.operations w.store).1.commit result.1.writes
          reserved := w'.reserved.filter fun q => q ∉ seqsOf (allocated clock request.operations
            (allocate request.operations w.store).2) } := by
        refine .write ht (fun q hq => ?_) ?_ trivial hwrite
        · rw [hseqs] at hq
          obtain ⟨seq, hseq, heq⟩ := mem_filterMap.1 hq
          exact hreserved q (heq ▸ hseq)
        · rw [hseqs]
          exact hnodup
      exact ⟨_, _, hruns.step hstep, rfl⟩

variable (host : Host) (D : Dates) (name : Utf16)

section

variable (ht : TenantOk t)
include ht

lemma runs_getEntry (now : ℤ) (key : Utf16) (retries : ℕ) (w : World) :
    Leads host w (getEntry host t D name now key retries w.store).1 := by
  induction retries generalizing w with
  | zero => exact .refl w
  | succ retries ih =>
    unfold getEntry
    split
    · exact .refl w
    next document _ =>
      split_ifs
      · exact .refl w
      · have hdelete := runs_writeRequest host (D.clock now) w ht
          (.delete name key (some document.version) none)
        split
        next store _ heq => exact hdelete.of_eq heq
        next store _ _ _ heq =>
          refine (hdelete.of_eq heq).trans fun w' hw' => ?_
          rw [← hw']
          exact ih w'
        next store _ _ heq => exact hdelete.of_eq heq

lemma runs_visitEntries (visits : Utf16 → ℤ) (limit : ℕ)
    (identities : List (Utf16 × Seq)) (found : List KeyValueEntry) (after : Option Utf16) (w : World) :
    Leads host w (visitEntries host t D name visits limit identities found after w.store).1 := by
  induction identities generalizing found after w with
  | nil => exact .refl w
  | cons identity rest ih =>
    unfold visitEntries
    have hget := runs_getEntry host D name ht (visits identity.1) identity.1 8 w
    split
    next store _ heq => exact hget.of_eq heq
    next store entry heq =>
      replace hget := hget.of_eq heq
      split_ifs
      · exact hget
      · refine hget.trans fun w' hw' => ?_
        rw [← hw']
        exact ih _ _ w'

lemma runs_scanEntries (visits : Utf16 → ℤ) (options : KeyValueScanOptions)
    (limit fuel : ℕ) (found : List KeyValueEntry) (after : Option Utf16) (w : World) :
    Leads host w (scanEntries host t D name visits options limit fuel found after w.store).1 := by
  induction fuel generalizing found after w with
  | zero => exact .refl w
  | succ fuel ih =>
    unfold scanEntries
    dsimp only
    split_ifs with hnone
    · exact .refl w
    · have hvisit := runs_visitEntries host D name ht visits limit
        (scanIdentities w.store {
          ns := documentNs t name, pre := options.pre, lower := options.lower,
          upper := options.upper, after, desc := options.desc,
          limit := namesAtOnce limit found.length }) found after w
      split
      next store _ heq => exact hvisit.of_eq heq
      next store found' after' heq =>
        replace hvisit := hvisit.of_eq heq
        split_ifs
        · exact hvisit
        · refine hvisit.trans fun w' hw' => ?_
          rw [← hw']
          exact ih found' after' w'

lemma runs_scanPage (visits : Utf16 → ℤ) (options : KeyValueScanOptions)
    (w : World) : Leads host w (scanPage host t D name visits options w.store).1 := by
  unfold scanPage
  split
  · exact .refl w
  next limit _ =>
    split_ifs
    · exact .refl w
    · have hscan := runs_scanEntries host D name ht visits options limit
        (w.store.held.entries.length + 1) [] (options.after.map CursorPayload.key) w
      split
      all_goals exact hscan.of_eq ‹_›

lemma runs_countEntries (visits : ℕ → Utf16 → ℤ) (fuel place : ℕ)
    (after : Option CursorPayload) (total : ℕ) (w : World) :
    Leads host w (countEntries host t D name visits fuel place after total w.store).1 := by
  induction fuel generalizing place after total w with
  | zero => exact .refl w
  | succ fuel ih =>
    unfold countEntries
    have hpage := runs_scanPage host D name ht (visits place)
      { limit := some (.ofNat 1000), after } w
    split
    next store _ heq => exact hpage.of_eq heq
    next store _ heq => exact hpage.of_eq heq
    next store _ _ heq =>
      refine (hpage.of_eq heq).trans fun w' hw' => ?_
      rw [← hw']
      exact ih _ _ _ w'

lemma runs_writeEntries (now : ℤ) (operations : List KeyValueWrite) (w : World) :
    Leads host w (writeEntries host t D name now operations w.store).1 := by
  unfold writeEntries
  split
  · exact .refl w
  next changes _ =>
    have hwrite := runs_writeRequest host (D.clock now) w ht (.write changes)
    split
    all_goals exact hwrite.of_eq ‹_›

end

/-- Every call of a namespace is a run: the expired entries it reads are deleted, each in its own
transaction, and what it changes is changed in one. -/
lemma runs_call (ht : TenantOk t) (m : Moments) (call : KeyValueCall) (w : World) :
    Leads host w (call.run host t D name m w.store).1 := by
  cases call with
  | get key | has key => exact runs_getEntry host D name ht m.now key 8 w
  | set key value expectedVersion ifAbsent expires =>
    have hwrite := runs_writeEntries host D name ht m.now
      [.set key value expectedVersion ifAbsent expires] w
    dsimp only [KeyValueCall.run]
    split
    · exact hwrite.of_eq ‹_›
    · split <;> exact hwrite.of_eq ‹_›
  | remove key expectedVersion =>
    have hdelete := runs_writeRequest host (D.clock m.now) w ht
      (.delete name key expectedVersion none)
    dsimp only [KeyValueCall.run]
    split
    · exact hdelete.of_eq ‹_›
    · split <;> exact hdelete.of_eq ‹_›
  | write operations => exact runs_writeEntries host D name ht m.now operations w
  | scan options => exact runs_scanPage host D name ht (m.visits 0) options w
  | size =>
    exact runs_countEntries host D name ht m.visits (w.store.held.entries.length + 1) 0 none 0 w

/-- A call of a namespace. -/
structure NamespaceCall where
  tenant : TenantId
  name : Utf16
  moments : Moments
  call : KeyValueCall

/-- The store after calls of namespaces one after another. -/
def storeAfter (calls : List NamespaceCall) (o : Objects Record) : Objects Record :=
  calls.foldl (fun o c => (c.call.run host c.tenant D c.name c.moments o).1) o

/-- Whatever calls are made of namespaces, of any tenants and at any moments, on a store that a run of documents
reaches, such a run reaches the store after them, and no unique index that is ready holds a tuple twice. -/
theorem reached_storeAfter (h : Reached host Any w) (calls : List NamespaceCall)
    (ht : ∀ c ∈ calls, TenantOk c.tenant) :
    (∃ w', Reached host Any w' ∧ w'.store = storeAfter host D calls w.store) ∧
      ∀ t, TenantOk t → UniqueIn t (storeAfter host D calls w.store) := by
  have hreached : ∃ w', Reached host Any w' ∧ w'.store = storeAfter host D calls w.store := by
    induction calls generalizing w with
    | nil => exact ⟨w, h, rfl⟩
    | cons c calls ih =>
      rw [forall_mem_cons] at ht
      obtain ⟨ws, w₁, hruns, hstore⟩ := runs_call host D c.name ht.1 c.moments c.call w
      obtain ⟨w', hw', hrest⟩ := ih (hruns.reached h) ht.2
      exact ⟨w', hw', hrest.trans (congrArg (storeAfter host D calls) hstore)⟩
  refine ⟨hreached, fun t ht => ?_⟩
  obtain ⟨w', hw', hstore⟩ := hreached
  exact hstore ▸ (hw'.sound.respects t ht).uniqueIn

end

/-- The document that was read is removed. -/
theorem reached_storeAfter_read : UniqueIn (utf16 "t") (storeAfter plainHost noDates
    [⟨utf16 "t", utf16 "a", ⟨0, fun _ _ => 0, 0⟩, .remove (utf16 "d") none⟩] readWorld.store) :=
  (reached_storeAfter plainHost noDates reached_readWorld _ (by simpa [TenantOk] using by decide)).2 (utf16 "t") ⟨by decide, by decide⟩

end Versions

end Zelavis.Db
