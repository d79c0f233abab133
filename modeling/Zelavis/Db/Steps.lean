import Zelavis.Db.PostingKeys

/-!
# What each operation leaves in the engine

One lemma for each operation: every write it makes is accepted whole, so what can be found
afterwards is one of a few contents, described on the contents before.
-/

namespace Zelavis.Db

open Lib OrderedMap
open Prog hiding pure bind bind_assoc get scan

variable {I : Store → Prop} {m : Store} {claim : WriterClaim}

/-! ## Batches -/

def wrote (m : Store) (ws : List (Write Key Stored)) (u : Bytes) : Store :=
  m.apply (ws ++ [.put (metaKey META_REVISION) (.raw u)])

variable {ws : List (Write Key Stored)}

lemma write_safe {revision : Option Stored}
    {R : Option Stored → Store → Prop} (h : ∀ u, I (wrote m ws u) ∧ R (some (.raw u)) (wrote m ws u)) :
    (write claim revision ws).safe I R m := by
  refine safe_bind.2 (safe_token.2 fun u => ?_)
  refine safe_bind.2 (safe_tryWrite_of ⟨(h u).1, ?_⟩ ?_)
  · rw [if_pos rfl]
    exact safe_pure.2 (h u).2
  · rw [if_neg Bool.false_ne_true]
    exact safe_bind.2 (assertCurrent_safe (safe_fail.2 trivial))

lemma exclusive_safe {α : Type} {body : Option Stored → StoreM α} {R : α → Store → Prop}
    (h : (body (m.get (metaKey META_REVISION))).safe I R m) : (exclusive claim body).safe I R m := by
  simp only [exclusive, bind_eq, safe_bind, safe_read]
  exact assertCurrent_safe h

def revised (c : Contents) (u : Bytes) : Contents :=
  after c [.put (metaKey META_REVISION) (.raw u)]

lemma get_wrote (m : Store) (ws : List (Write Key Stored)) (u : Bytes) :
    (wrote m ws u).get = revised (after m.get ws) u := by
  rw [wrote, get_apply_eq_after, after_append, revised]

lemma revised_of_ne {c : Contents} {u : Bytes} {k : Key} (h : k ≠ metaKey META_REVISION) :
    revised c u k = c k := by
  rw [revised, after_put, if_neg h]

lemma scanM_safe {pre : Key} {lower upper : Option Key} {R : List (Key × Stored) → Store → Prop}
    (h : R (scan m pre lower upper) m) : (scanM pre lower upper).safe I R m := by
  simpa [scanM, scan] using h

lemma orThrow_safe {α : Type} {o : Option α} {R : α → Store → Prop}
    (h : ∀ a, o = some a → R a m) : (orThrow o : StoreM α).safe I R m := by
  cases o with
  | none => simp [orThrow]
  | some a => simpa [orThrow] using h a rfl

/-! ## Numbers -/

lemma recordU32_encodePayload (n : ℕ) (body : Bytes) : recordU32 (encodePayload n body) = some (n % 2 ^ 32) := by
  have hlength : ¬(writeU32 n ++ body).length < 4 := by simp
  rw [encodePayload, recordU32, if_neg hlength, List.take_left' (writeU32_length n), writeU32,
    readBigEndian_bigEndian]
  norm_num

lemma recordU32_writeU32 (n : ℕ) : recordU32 (.raw (writeU32 n)) = some (n % 2 ^ 32) := by
  simpa [encodePayload] using recordU32_encodePayload n []

/-! ## Transactions -/

/-- What a transaction that saw `c` last, at position `pos`, leaves. -/
def committed (c : Contents) (pos : ℕ) (u : Bytes) : Contents :=
  revised (after c [.put (metaKey META_NEXT_POSITION) (.raw (writeU32 pos))]) u

lemma commit_safe {α : Type} {f : Bool → TxnM α} {R : α → Store → Prop}
    (S : Bool → Contents → ℕ → α → Contents → ℕ → Prop) (hf : ∀ sealed (txn : Txn), TxnM.safe m (f sealed)
      (S sealed (txn.view m) txn.position) txn) (h : ∀ n p a c pos u m', metaOf m.get META_SEALED = some n →
      metaOf m.get META_NEXT_POSITION = some p → S (decide (0 < n)) m.get p a c pos →
      m'.get = committed c pos u → I m' ∧ R a m') : (commit claim f).safe I R m := by
  refine exclusive_safe ?_
  refine safe_bind.2 (readMeta_safe fun p hp => ?_)
  refine safe_bind.2 (readMeta_safe fun n hn => ?_)
  refine safe_bind.2 (safe_weaken (fun _ => False.elim) (safe_mono
    (hf _ { position := p }) fun r m' hr => ?_))
  obtain ⟨rfl, hr⟩ := hr
  have hget : ∀ u, (wrote m' (pendingWrites (stagePending r.2.pending
      [.put (metaKey META_NEXT_POSITION) (.raw (writeU32 r.2.position))])) u).get =
      committed (r.2.view m') r.2.position u := by
    intro u
    rw [get_wrote, after_pendingWrites _ _ 0, view_stagePending _ _ _ r.2.position, committed]
  refine safe_bind.2 (write_safe fun u => ?_)
  have := h n p r.1 _ _ u _ hn hp hr (hget u)
  exact ⟨this.1, safe_pure.2 this.2⟩

def runOpsC (claim : WriterClaim) (sealed : Bool) (ops : List TxnOp) (s : Contents × ℕ) :
    Option (Contents × ℕ) :=
  ops.foldlM (fun s op => op.runC claim sealed s) s

lemma runOps_safe (ops : List TxnOp) (sealed : Bool) (txn : Txn) :
    TxnM.safe m (ops.forM (TxnOp.run claim sealed))
      (fun _ c pos => runOpsC claim sealed ops (txn.view m, txn.position) = some (c, pos)) txn := by
  refine TxnM.safe_forM (fun rest c pos => ∀ r, runOpsC claim sealed rest (c, pos) = r →
    runOpsC claim sealed ops (txn.view m, txn.position) = r) ?_ ?_ fun r hr => hr
  · intro op rest txn' hinv
    refine TxnM.safe_mono (txnOp_safe claim sealed op) fun _ c pos hc r hr => hinv r ?_
    rw [runOpsC, List.foldlM_cons, hc]
    exact hr
  · intro c pos hinv
    exact hinv _ rfl

lemma transact_safe {ops : List TxnOp} {R : Unit → Store → Prop}
    (h : ∀ n p c pos u m', metaOf m.get META_SEALED = some n → metaOf m.get META_NEXT_POSITION = some p →
      runOpsC claim (decide (0 < n)) ops (m.get, p) = some (c, pos) →
      m'.get = committed c pos u → I m' ∧ R () m') : (transact claim ops).safe I R m :=
  commit_safe (fun sealed c p _ c' pos => runOpsC claim sealed ops (c, p) = some (c', pos))
    (fun sealed txn => runOps_safe ops sealed txn) fun n p _ c pos u m' => h n p c pos u m'

lemma applyEvent_safe {event : DbEvent} {R : Unit → Store → Prop}
    (h : ∀ n p c pos u m', metaOf m.get META_SEALED = some n → metaOf m.get META_NEXT_POSITION = some p →
      applyC (decide (0 < n)) event (m.get, p) = some (c, pos) →
      m'.get = committed c pos u → I m' ∧ R () m') : (applyEvent claim event).safe I R m := by
  refine commit_safe (fun _ c p _ c' pos => ∀ n, metaOf m.get META_SEALED = some n →
    applyC (decide (0 < n)) event (c, p) = some (c', pos)) (fun _ txn => ?_)
    fun n p _ c pos u m' hn hp hS => h n p c pos u m' hn hp (hS n hn)
  refine TxnM.safe_bind (TxnM.safe_mono (versionOf_safe event.seq)
    fun seen c pos hseen txn₁ hv₁ hp₁ => ?_)
  obtain ⟨hseen, rfl, hpos⟩ := hseen
  simp only [applyC, hseen, Option.bind_eq_bind, Option.bind_some]
  rw [hpos] at hp₁
  by_cases hle : event.version ≤ seen
  · rw [if_pos hle]
    refine TxnM.safe_pure fun n _ => ?_
    rw [if_pos hle, hv₁, hp₁]
    rfl
  · rw [if_neg hle]
    refine TxnM.safe_bind (TxnM.safe_mono (append_safe event.stored)
      fun _ c pos happ txn₂ hv₂ hp₂ => ?_)
    obtain ⟨hc, hpos'⟩ := happ
    refine TxnM.safe_bind (TxnM.safe_lift (readMeta_safe fun k hk =>
      ⟨rfl, fun txn₃ hv₃ hp₃ => ?_⟩))
    have hlog : ∀ c', replayC (decide (0 < k)) event.stored (txn₃.view m) = some c' →
        ∀ n, metaOf m.get META_SEALED = some n →
        (if event.version ≤ seen then some (txn.view m, txn.position)
          else logC (decide (0 < n)) event.stored (txn.view m, txn.position)) = some (c', txn₃.position) := by
      intro c' hc' n hn
      obtain rfl : k = n := Option.some.inj (hk.symm.trans hn)
      rw [if_neg hle, logC]
      rw [hv₃, hv₂, hc, hv₁, hp₁] at hc'
      rw [hc', hp₃, hp₂, hpos', hp₁]
      rfl
    cases event with
    | objectPut _ _ seq version bytes manifest identity =>
      refine TxnM.safe_mono (project_safe seq version bytes manifest _ identity)
        fun _ c' pos' hr => ?_
      rw [hr.2]
      exact hlog c' hr.1
    | objectRetracted _ _ seq _ _ =>
      refine TxnM.safe_mono (remove_safe seq _) fun _ c' pos' hr => ?_
      rw [hr.2]
      exact hlog c' hr.1

/-! ## What the scans decode to -/

def dropped (m : Store) (tags : List Byte) : List (Write Key Stored) :=
  (tags.map fun tag => scan m [tag] none none).flatten.map fun entry => .delete entry.1

def manifestEntry (entry : Key × Stored) : Option (Seq × IndexManifest) := do
  let seq ← keySeq entry.1
  let manifest ← unjsonManifest entry.2
  return (seq, manifest)

def manifestsC (m : Store) : Option (List (Seq × IndexManifest)) :=
  (scan m [Tag.manifest] none none).mapM manifestEntry

def manifestC (entry : Seq × IndexManifest) : Option (List (Write Key Stored)) := do
  let columns ← columnKeys entry.1 entry.2
  return entry.2.terms.map (fun t => .put (termKey t.1 t.2 entry.1) EMPTY) ++
    columns.map (fun key => .put key EMPTY) ++
    entry.2.measures.map (fun c => .put (measureKey c.1 entry.1) (f64 c.2)) ++
    entry.2.edges.flatMap fun e => (edgeKeys entry.1 e).map fun key => .put key EMPTY

def identityEntry (entry : Key × Stored) : Option (Seq × ObjectIdentity) := do
  let seq ← keySeq entry.1
  let identity ← unjsonIdentity entry.2
  return (seq, identity)

def manifestOf (c : Contents) (seq : Seq) : Option IndexManifest :=
  match c (manifestKey seq) with
  | none => some emptyManifest
  | some stored => unjsonManifest stored

def liveRecordC (c : Contents) (entry : Seq × ObjectIdentity) : Option (List LiveRecord) :=
  match c (payloadKey entry.1) with
  | none => some []
  | some payload => do
    let version ← recordU32 payload
    let manifest ← manifestOf c entry.1
    return [{ seq := entry.1, version, bytes := payloadBody payload, manifest, identity := entry.2 }]

def liveRecordsC (m : Store) : Option (List LiveRecord) := do
  let identities ← (scan m [Tag.identityBySeq] none none).mapM identityEntry
  let out ← identities.mapM (liveRecordC m.get)
  return out.flatten

def eventEntry (snapshotAt : ℕ) (entry : Key × Stored) : Option (List StoredEvent) :=
  if positionOf entry.1 ≤ snapshotAt then some []
  else (unjsonEvent entry.2).map fun event => [event]

def eventsC (m : Store) (snapshotAt : ℕ) : Option (List StoredEvent) := do
  let events ← (scan m eventPrefix none none).mapM (eventEntry snapshotAt)
  return events.flatten

def snapshotEntry (entry : Key × Stored) : Option (Seq × StoredSnapshot) := do
  let seq ← keySeq entry.1
  let record ← unjsonSnapshot entry.2
  return (seq, record)

def snapshotRecordsC (m : Store) : Option (List (Seq × StoredSnapshot)) :=
  (scan m snapshotPrefix none none).mapM snapshotEntry

def replaySnapshotC (c : Contents) (record : Seq × StoredSnapshot) : Option Contents :=
  projectC record.1 record.2.version record.2.body record.2.manifest false record.2.identity c

def replayAllC (records : List (Seq × StoredSnapshot)) (events : List StoredEvent) (c : Contents) :
    Option Contents := do
  let c ← records.foldlM replaySnapshotC c
  events.foldlM (fun c event => replayC false event c) c

variable {R : List (Write Key Stored) → Store → Prop}

lemma dropTags_safe {tags : List Byte} (h : R (dropped m tags) m) : (dropTags tags).safe I R m := by
  refine safe_bind.2 (safe_mapM_option (fun tag => pure (scan m [tag] none none))
    (fun tag _ => scanM_safe ⟨rfl, rfl⟩) fun bs hbs => ?_)
  rw [List.mapM_pure] at hbs
  rw [← Option.some.inj hbs]
  exact safe_pure.2 h

lemma entry_safe {α β : Type} {a : Option α} {b : Option β} {R : α × β → Store → Prop}
    (h : ∀ p, (do let x ← a; let y ← b; return (x, y)) = some p → R p m) :
    (do let x ← orThrow a; let y ← orThrow b; pure (x, y) : StoreM (α × β)).safe I R m :=
  safe_bind.2 (orThrow_safe fun x hx => safe_bind.2 (orThrow_safe fun y hy =>
    safe_pure.2 (h (x, y) (by simp [hx, hy]))))

lemma manifestWrites_safe {entry : Seq × IndexManifest}
    (h : ∀ ws, manifestC entry = some ws → R ws m) : (manifestWrites entry.1 entry.2).safe I R m := by
  refine safe_bind.2 (orThrow_safe fun columns hc => safe_pure.2 (h _ ?_))
  rw [manifestC, hc]
  rfl

lemma liveRecords_safe {R : List LiveRecord → Store → Prop}
    (h : ∀ records, liveRecordsC m = some records → R records m) : liveRecords.safe I R m := by
  refine safe_bind.2 (scanM_safe (safe_bind.2 (safe_mapM_option identityEntry
    (fun entry _ => entry_safe fun p hp => ⟨rfl, hp⟩) fun identities hids => ?_)))
  refine safe_bind.2 (safe_mapM_option (liveRecordC m.get) (fun entry _ => ?_)
    fun out hout => safe_pure.2 (h _ ?_))
  · simp only [bind_eq, safe_bind, safe_read, liveRecordC]
    cases hp : m.get (payloadKey entry.1) with
    | none => exact safe_pure.2 ⟨rfl, rfl⟩
    | some payload =>
      refine safe_bind.2 (orThrow_safe fun version hv => ?_)
      cases hm : m.get (manifestKey entry.1) with
      | none => exact safe_pure.2 ⟨rfl, by simp [hv, manifestOf, hm]⟩
      | some stored =>
        refine safe_bind.2 (orThrow_safe fun man hman => safe_pure.2 ⟨rfl, ?_⟩)
        simp [hv, hman, manifestOf, hm]
  · rw [liveRecordsC, hids, Option.bind_eq_bind, Option.bind_some, hout]
    rfl

lemma eventsAfter_safe {snapshotAt : ℕ} {R : List StoredEvent → Store → Prop}
    (h : ∀ events, eventsC m snapshotAt = some events → R events m) :
    (eventsAfter snapshotAt).safe I R m := by
  refine safe_bind.2 (scanM_safe (safe_bind.2 (safe_mapM_option
    (eventEntry snapshotAt) (fun entry _ => ?_) fun events hev => safe_pure.2 (h _ ?_))))
  · rw [eventEntry]
    split_ifs
    · exact safe_pure.2 ⟨rfl, rfl⟩
    · exact safe_bind.2 (orThrow_safe fun event he => safe_pure.2 ⟨rfl, by simp [he]⟩)
  · rw [eventsC, hev]
    rfl

lemma snapshotRecords_safe {R : List (Seq × StoredSnapshot) → Store → Prop}
    (h : ∀ records, snapshotRecordsC m = some records → R records m) : snapshotRecords.safe I R m :=
  safe_bind.2 (scanM_safe (safe_mapM_option snapshotEntry
    (fun _ _ => entry_safe fun _ hp => ⟨rfl, hp⟩) h))

/-! ## The other operations -/

def reindexedC (m : Store) (postings : List (Write Key Stored)) (u : Bytes) : Contents :=
  revised (after m.get (dropped m DERIVED_TAGS ++ unsealed ++ postings)) u

lemma reindex_safe {R : ℕ → Store → Prop} (h : ∀ entries postings u m', manifestsC m = some entries →
      entries.mapM manifestC = some postings → m'.get = reindexedC m postings.flatten u →
      I m' ∧ R entries.length m') : (reindexLenses claim).safe I R m := by
  refine exclusive_safe (safe_bind.2 (dropTags_safe ?_))
  refine safe_bind.2 (scanM_safe (safe_bind.2 (safe_mapM_option manifestEntry
    (fun entry _ => entry_safe fun p hp => ⟨rfl, hp⟩) fun entries hentries => ?_)))
  refine safe_bind.2 (safe_mapM_option manifestC
    (fun entry _ => manifestWrites_safe fun ws hws => ⟨rfl, hws⟩) fun postings hpostings => ?_)
  refine safe_bind.2 (write_safe fun u => ?_)
  have := h entries postings u _ hentries hpostings ((get_wrote _ _ _).trans (by
    rw [after_pendingWrites _ _ 0, view_stagePending _ _ _ 0]
    exact congrArg (fun c => revised (after c _) u) (view_empty 0 m)))
  exact ⟨this.1, safe_pure.2 this.2⟩

lemma replayAll_safe (ws : List (Write Key Stored)) (records : List (Seq × StoredSnapshot))
    (events : List StoredEvent) (txn : Txn) :
    TxnM.safe m (do
      stage ws
      records.forM replaySnapshot
      events.forM replayEvent)
      (fun _ c _ => replayAllC records events (after (txn.view m) ws) = some c) txn := by
  refine TxnM.safe_bind (TxnM.safe_stage fun txn₁ hv₁ _ => ?_)
  refine TxnM.safe_bind (TxnM.safe_forM (fun rest c _ => ∀ r,
      rest.foldlM replaySnapshotC c = r → records.foldlM replaySnapshotC (txn₁.view m) = r) ?_
    (fun c _ h txn₂ hv₂ _ => ?_) fun r hr => hr)
  · intro record rest txn' hinv
    refine TxnM.safe_mono (project_safe _ _ _ _ _ _) fun _ c _ ⟨hc, _⟩ r hr => hinv r ?_
    rw [List.foldlM_cons, replaySnapshotC, hc]
    exact hr
  · rw [← hv₁]
    refine TxnM.safe_forM (fun rest c _ => ∀ r, rest.foldlM (fun c event => replayC false event c) c = r →
      replayAllC records events (txn₁.view m) = r) ?_ (fun c _ h => h _ rfl) fun r hr => ?_
    · intro event rest txn' hinv
      refine TxnM.safe_mono (replayEvent_safe event) fun _ c _ ⟨hc, _⟩ r hr => hinv r ?_
      rw [List.foldlM_cons, hc]
      exact hr
    · rw [replayAllC, h _ rfl, ← hv₂]
      exact hr

lemma rebuild_safe {R : ℕ → Store → Prop} (h : ∀ compactedTo snapshotAt events records c u m',
      metaOf m.get META_COMPACTED_TO = some compactedTo → metaOf m.get META_SNAPSHOT_AT = some snapshotAt →
      ¬ (0 < compactedTo ∧ snapshotAt < compactedTo) → eventsC m snapshotAt = some events →
      (if 0 < snapshotAt then snapshotRecordsC m else some []) = some records →
      replayAllC records events (after m.get (dropped m LENS_TAGS ++ unsealed)) = some c →
      m'.get = revised c u → I m' ∧ R (records.length + events.length) m') :
    (rebuildLenses claim).safe I R m := by
  refine exclusive_safe (safe_bind.2 (readMeta_safe fun compactedTo hto => ?_))
  refine safe_bind.2 (readMeta_safe fun snapshotAt hat => ?_)
  refine safe_ite.2 ⟨fun _ => safe_fail.2 trivial, fun hcut => ?_⟩
  refine safe_bind.2 (eventsAfter_safe fun events hev => ?_)
  refine safe_bind.2 (dropTags_safe ?_)
  have hrest : ∀ records, (if 0 < snapshotAt then snapshotRecordsC m else some []) = some records →
      Prog.safe I (do
        let r ← StateT.run (do
          stage (dropped m LENS_TAGS ++ unsealed)
          records.forM replaySnapshot
          events.forM replayEvent) { position := 0 }
        let _ ← write claim (m.get (metaKey META_REVISION)) (pendingWrites r.2.pending)
        pure (records.length + events.length)) R m := by
    intro records hrec
    refine safe_bind.2 (safe_weaken (fun _ => False.elim) (safe_mono
      (replayAll_safe _ records events { position := 0 }) fun r m' hr => ?_))
    obtain ⟨rfl, hr⟩ := hr
    refine safe_bind.2 (write_safe fun u => ?_)
    have := h _ _ events records _ u _ hto hat hcut hev hrec hr
      ((get_wrote _ _ u).trans (by rw [after_pendingWrites _ _ r.2.position]))
    exact ⟨this.1, safe_pure.2 this.2⟩
  by_cases h0 : 0 < snapshotAt
  · rw [if_pos h0] at hrest
    simp only [if_pos h0]
    exact safe_bind.2 (snapshotRecords_safe hrest)
  · rw [if_neg h0] at hrest
    simp only [if_neg h0]
    exact hrest [] rfl

def snapshotWrites (records : List LiveRecord) : List (Write Key Stored) :=
  records.map fun record => .put (snapshotKey record.seq) (.snapshot
    { version := record.version, body := record.bytes, manifest := jsonManifest record.manifest,
      identity := some record.identity })

lemma snapshot_safe {R : ℕ × ℕ → Store → Prop}
    (h : ∀ position records u m', metaOf m.get META_NEXT_POSITION = some position →
      liveRecordsC m = some records → m'.get = revised (after m.get ((scan m snapshotPrefix none none).map
        (fun entry => .delete entry.1) ++ snapshotWrites records ++
        [.put (metaKey META_SNAPSHOT_AT) (.raw (writeU32 position))])) u →
      I m' ∧ R (records.length, position) m') : (snapshot claim).safe I R m := by
  refine exclusive_safe (safe_bind.2 (readMeta_safe fun position hpos => ?_))
  refine safe_bind.2 (scanM_safe (safe_bind.2 (liveRecords_safe fun records hrec => ?_)))
  refine safe_bind.2 (write_safe fun u => ?_)
  have := h position records u _ hpos hrec (get_wrote _ _ u)
  exact ⟨this.1, safe_pure.2 this.2⟩

def positionsC (m : Store) : List ℕ :=
  (scan m eventPrefix none none).map fun entry => positionOf entry.1

lemma compact_safe {keep : ℕ} {R : ℕ × ℕ → Store → Prop} (hnone : (positionsC m).length - keep = 0 →
      ∀ n, metaOf m.get META_COMPACTED_TO = some n → R (0, n) m)
    (hsome : ∀ cut to' u m', cut = (positionsC m).length - keep → 0 < cut →
      to' = (positionsC m).getD (cut - 1) 0 → m'.get = revised (after m.get
        (((positionsC m).take cut).map (fun position => .delete (eventKey position)) ++
          [.put (metaKey META_COMPACTED_TO) (.raw (writeU32 to'))])) u → I m' ∧ R (cut, to') m') :
    (compact claim keep).safe I R m := by
  refine exclusive_safe (safe_bind.2 (scanM_safe ?_))
  refine safe_ite.2 ⟨fun hcut => ?_, fun hcut => ?_⟩
  · exact safe_bind.2 (readMeta_safe fun n hn => safe_pure.2 (hnone hcut n hn))
  · refine safe_bind.2 (write_safe fun u => ?_)
    have := hsome _ _ u _ rfl (Nat.pos_of_ne_zero hcut) rfl (get_wrote _ _ u)
    exact ⟨this.1, safe_pure.2 this.2⟩

lemma nextSeq_safe {R : Seq → Store → Prop} (h : ∀ n u m', metaOf m.get META_NEXT_SEQ = some n →
      m'.get = revised (after m.get [.put (metaKey META_NEXT_SEQ) (.raw (writeU32 (n + 1)))]) u →
      I m' ∧ R (n + 1) m') : (nextSeq claim).safe I R m := by
  refine exclusive_safe (safe_bind.2 (readMeta_safe fun n hn => ?_))
  refine safe_bind.2 (write_safe fun u => ?_)
  have := h n u _ hn (get_wrote _ _ u)
  exact ⟨this.1, safe_pure.2 this.2⟩

def OPEN_KEYS : List Key :=
  [metaKey META_GENERATION, metaKey META_OWNER, metaKey META_REVISION, metaKey META_FORMAT]

lemma get_apply_of_open
    (hws : ∀ w ∈ ws, w.key ∈ OPEN_KEYS) {k : Key} (hk : k ∉ OPEN_KEYS) : (m.apply ws).get k = m.get k := by
  rw [get_apply_eq_after]
  exact after_of_forall_ne fun w hw he => hk (he ▸ hws w hw)

lemma claimLoop_safe {session : Bytes} {R : WriterClaim → Store → Prop}
    (h : ∀ m', (∀ k ∉ OPEN_KEYS, m'.get k = m.get k) → I m' ∧ ∀ c, R c m') (n : ℕ) :
    (claimLoop session n).safe I R m := by
  induction n with
  | zero => exact safe_fail.2 trivial
  | succ n ih =>
    refine safe_bind.2 (safe_read.2 ?_)
    cases hg : readGeneration (m.get (metaKey META_GENERATION)) with
    | none => exact safe_fail.2 trivial
    | some previous =>
      refine safe_ite.2 ⟨fun _ => safe_fail.2 trivial, fun _ => ?_⟩
      refine safe_bind.2 (safe_token.2 fun u => ?_)
      have hm' := h (m.apply [.put (metaKey META_GENERATION) (generationBytes (previous + 1)),
        .put (metaKey META_OWNER) (.raw session), .put (metaKey META_REVISION) (.raw u)])
        fun k hk => get_apply_of_open (by simp [OPEN_KEYS, Write.key]) hk
      refine safe_bind.2 (safe_tryWrite_of ⟨hm'.1, ?_⟩ ?_)
      · rw [if_pos rfl]
        exact safe_pure.2 (hm'.2 _)
      · rw [if_neg Bool.false_ne_true]
        exact ih

lemma open_safe {R : WriterClaim → Store → Prop}
    (h : ∀ m', (∀ k ∉ OPEN_KEYS, m'.get k = m.get k) → I m' ∧ ∀ c, R c m') : openStoreOverKv.safe I R m := by
  refine safe_bind.2 (safe_bind.2 (safe_token.2 fun session => claimLoop_safe
    (fun m₁ h₁ => ⟨(h m₁ h₁).1, fun claim => ?_⟩) 32))
  refine safe_bind.2 (safe_read.2 (safe_bind.2 (safe_read.2 ?_)))
  cases m₁.get (metaKey META_FORMAT) with
  | some stored =>
    refine safe_bind.2 (orThrow_safe fun version _ => ?_)
    split_ifs
    · exact safe_fail.2 trivial
    · exact safe_pure.2 ((h m₁ h₁).2 claim)
  | none =>
    cases (m₁.get (metaKey META_NEXT_POSITION)).isSome with
    | true => exact safe_fail.2 trivial
    | false =>
      refine safe_bind.2 (safe_read.2 (safe_bind.2 (safe_token.2 fun u => ?_)))
      have hm₂ := h (m₁.apply [.put (metaKey META_REVISION) (.raw u),
        .put (metaKey META_FORMAT) (.raw (writeU32 CURRENT_FORMAT))])
        fun k hk => (get_apply_of_open (by simp [OPEN_KEYS, Write.key]) hk).trans (h₁ k hk)
      refine safe_bind.2 (safe_tryWrite_of ⟨hm₂.1, ?_⟩ ?_)
      · rw [if_pos rfl]
        exact safe_pure.2 (hm₂.2 claim)
      · rw [if_neg Bool.false_ne_true]
        exact safe_fail.2 trivial

end Zelavis.Db
