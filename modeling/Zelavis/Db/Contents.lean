import Zelavis.Db.KvStore

/-!
# What the operations do to what a store holds

A store is read as the function from its keys to their records (`Contents`), and a transaction as a
function on contents: what it sees before and what it sees after.
-/

namespace Zelavis.Db

open Lib OrderedMap Option

/-- What a store holds under each key. -/
abbrev Contents := Key → Option Stored

/-! ## Batches on contents -/

def after (c : Contents) (ws : List (Write Key Stored)) : Contents :=
  fun k => (lastWrite ws k).getD (c k)

lemma get_apply_eq_after (m : Store) (ws : List (Write Key Stored)) :
    (m.apply ws).get = after m.get ws := funext fun k => get_apply m ws k

@[simp] lemma after_nil (c : Contents) : after c [] = c := rfl

lemma after_append (c : Contents) (ws ws' : List (Write Key Stored)) :
    after c (ws ++ ws') = after (after c ws) ws' := by
  funext k
  rw [after, lastWrite_append, after, after]
  cases lastWrite ws' k <;> rfl

variable {ws : List (Write Key Stored)} {c : Contents} {k : Key}

lemma after_of_forall_ne (h : ∀ w ∈ ws, w.key ≠ k) : after c ws k = c k := by
  rw [after, lastWrite_eq_none h]
  rfl

lemma after_of_exists
    {v : Option Stored} (hmem : ∃ w ∈ ws, w.key = k) (h : ∀ w ∈ ws, w.key = k → w.value = v) :
    after c ws k = v := by
  rw [after, lastWrite_eq_some hmem h]
  rfl

lemma after_congr {c c' : Contents} (h : c k = c' k) : after c ws k = after c' ws k := by
  rw [after, after, h]

lemma of_after_eq_some {v : Stored} (h : after c ws k = some v) : c k = some v ∨ .put k v ∈ ws := by
  rw [after] at h
  cases hl : lastWrite ws k with
  | none =>
    rw [hl] at h
    exact Or.inl h
  | some o =>
    rw [hl, getD_some] at h
    obtain ⟨w, hw, hk, hv⟩ := exists_of_lastWrite hl
    refine Or.inr ?_
    cases w with
    | delete => exact absurd (hv.trans h) (by simp [Write.value])
    | put k' v' =>
      obtain rfl : k' = k := hk
      obtain rfl : v' = v := some.inj (hv.trans h)
      exact hw

lemma after_put (c : Contents) (key : Key) (v : Stored) (k : Key) :
    after c [.put key v] k = if k = key then some v else c k := by
  rcases eq_or_ne k key with rfl | h
  · rw [if_pos rfl]
    exact after_of_exists ⟨_, List.mem_singleton_self _, rfl⟩ (by simp [Write.value])
  · rw [if_neg h]
    exact after_of_forall_ne (by simpa [Write.key] using h.symm)

lemma after_delete (c : Contents) (key k : Key) :
    after c [.delete key] k = if k = key then none else c k := by
  rcases eq_or_ne k key with rfl | h
  · rw [if_pos rfl]
    exact after_of_exists ⟨_, List.mem_singleton_self _, rfl⟩ (by simp [Write.value])
  · rw [if_neg h]
    exact after_of_forall_ne (by simpa [Write.key] using h.symm)

def metaOf (c : Contents) (name : Utf16) : Option ℕ :=
  match c (metaKey name) with
  | none => some 0
  | some stored => recordU32 stored

/-! ## A transaction's view -/

def Txn.view (txn : Txn) (m : Store) : Contents := fun k => (txn.pending.get k).getD (m.get k)

lemma get_stagePending (p : Pending) (ws : List (Write Key Stored)) (k : Key) :
    (stagePending p ws).get k = (lastWrite ws k).or (p.get k) := by
  induction ws generalizing p with
  | nil => simp [stagePending]
  | cons w ws ih =>
    refine (ih _).trans ?_
    rw [lastWrite_cons, get_insert]
    rcases eq_or_ne k w.key with rfl | h
    · cases lastWrite ws w.key <;> simp
    · simp [h, h.symm]

lemma view_stagePending (p : Pending) (ws : List (Write Key Stored)) (pos pos' : ℕ) (m : Store) :
    Txn.view ⟨stagePending p ws, pos⟩ m = after (Txn.view ⟨p, pos'⟩ m) ws := by
  funext k
  rw [Txn.view, after, Txn.view, get_stagePending]
  cases lastWrite ws k <;> simp

@[simp] lemma view_empty (pos : ℕ) (m : Store) : Txn.view { position := pos } m = m.get := by
  funext k
  simp [Txn.view]

lemma after_pendingWrites (p : Pending) (m : Store) (pos : ℕ) :
    after m.get (pendingWrites p) = Txn.view ⟨p, pos⟩ m := by
  funext k
  rw [Txn.view]
  have hwrite : ∀ w ∈ pendingWrites p, p.get w.key = some w.value := by
    intro w hw
    obtain ⟨⟨k, v⟩, he, rfl⟩ := List.mem_map.1 hw
    have hget := mem_entries.1 he
    cases v with
    | none | some => exact hget
  cases hp : p.get k with
  | none =>
    refine after_of_forall_ne fun w hw he => ?_
    have := hwrite w hw
    rw [he, hp] at this
    exact absurd this (by simp)
  | some v =>
    refine after_of_exists ?_ fun w hw he => ?_
    · refine ⟨_, List.mem_map.2 ⟨(k, v), mem_entries.2 hp, rfl⟩, ?_⟩
      cases v <;> rfl
    · have := hwrite w hw
      rw [he, hp] at this
      exact (some.inj this).symm

/-! ## Programs in a transaction -/

/-- Run in a transaction over the engine `m`, a program writes nothing to the engine, and a result
`a` that leaves the transaction seeing `c` at position `pos` satisfies `R a c pos`. -/
def TxnM.safe {α : Type} (m : Store) (t : TxnM α) (R : α → Contents → ℕ → Prop) (txn : Txn) :
    Prop :=
  (StateT.run t txn).safe (fun _ => False)
    (fun r m' => m' = m ∧ R r.1 (r.2.view m) r.2.position) m

namespace TxnM

variable {α β γ : Type} {m : Store} {txn : Txn} {R : α → Contents → ℕ → Prop}

lemma safe_pure {a : α} (h : R a (txn.view m) txn.position) : safe m (pure a) R txn := by
  simp [safe, h]

variable {t : TxnM α}

lemma safe_bind {f : α → TxnM β} {R : β → Contents → ℕ → Prop}
    (h : safe m t (fun a c pos => ∀ txn' : Txn, txn'.view m = c → txn'.position = pos →
      safe m (f a) R txn') txn) : safe m (t >>= f) R txn := by
  rw [safe, StateT.run_bind, Prog.bind_eq, Prog.safe_bind]
  refine Prog.safe_mono h fun r m' hr => ?_
  obtain ⟨rfl, hr⟩ := hr
  exact hr r.2 rfl rfl

lemma safe_mono {R R' : α → Contents → ℕ → Prop} (h : safe m t R txn)
    (hR : ∀ a c pos, R a c pos → R' a c pos) : safe m t R' txn :=
  Prog.safe_mono h fun _ _ hr => ⟨hr.1, hR _ _ _ hr.2⟩

lemma safe_viewGet {key : Key} {R : Option Stored → Contents → ℕ → Prop}
    (h : R (txn.view m key) (txn.view m) txn.position) : safe m (viewGet key) R txn := by
  rw [Txn.view] at h
  simp only [safe, viewGet, StateT.run_bind, StateT.run_get]
  cases hp : txn.pending.get key with
  | some v =>
    simpa [Prog.bind, hp] using h
  | none =>
    simpa [Prog.bind, hp] using h

lemma safe_stage {R : Unit → Contents → ℕ → Prop}
    (h : R () (after (txn.view m) ws) txn.position) : safe m (stage ws) R txn := by
  have hview : Txn.view ⟨stagePending txn.pending ws, txn.position⟩ m = after (txn.view m) ws :=
    view_stagePending txn.pending ws _ txn.position m
  rw [← hview] at h
  simpa [safe, stage] using h

lemma safe_lift {p : StoreM α}
    (h : p.safe (fun _ => False) (fun a m' => m' = m ∧ R a (txn.view m) txn.position) m) :
    safe m (StateT.lift p) R txn := by
  simp only [safe, StateT.run_lift, Prog.bind_eq, Prog.safe_bind]
  refine Prog.safe_mono h fun a m' ha => ?_
  simpa using ha

lemma safe_orThrow {o : Option α} (h : ∀ a, o = some a → R a (txn.view m) txn.position) :
    safe m (StateT.lift (orThrow o)) R txn := by
  refine safe_lift ?_
  cases o with
  | none => simp [orThrow]
  | some a => simpa [orThrow] using h a rfl

lemma safe_forM {f : γ → TxnM PUnit} {R : PUnit → Contents → ℕ → Prop} (Inv : List γ → Contents → ℕ → Prop)
    (hstep : ∀ x rest (txn : Txn), Inv (x :: rest) (txn.view m) txn.position →
      safe m (f x) (fun _ => Inv rest) txn)
    (hdone : ∀ c pos, Inv [] c pos → R ⟨⟩ c pos) {l : List γ} {txn : Txn}
    (h : Inv l (txn.view m) txn.position) : safe m (l.forM f) R txn := by
  induction l generalizing txn with
  | nil => exact safe_pure (hdone _ _ h)
  | cons x l ih =>
    refine safe_bind (safe_mono (hstep x l txn h) fun _ c pos hc txn' hv hp => ?_)
    exact ih (by rw [hv, hp]; exact hc)

end TxnM

open TxnM

/-! ## Operations as functions on contents -/

def postingKeys (seq : Seq) (manifest : IndexManifest) : List Key :=
  manifest.terms.map (fun t => termKey t.1 t.2 seq) ++
    manifest.columns.filterMap (fun c => orderedKey c.1 (.scalar c.2) seq) ++
    manifest.edges.flatMap (edgeKeys seq)

/-- The writes that drop what a manifest stands for, in the order they are staged. -/
def retraction (seq : Seq) (manifest : IndexManifest) (columns : List Key) (sealed : Bool) :
    List (Write Key Stored) :=
  manifest.terms.flatMap (fun t => dropPosting (termKey t.1 t.2 seq) sealed) ++
    columns.flatMap (fun key => dropPosting key sealed) ++
    manifest.measures.map (fun c => .delete (measureKey c.1 seq)) ++
    manifest.edges.flatMap (fun e => (edgeKeys seq e).flatMap (dropPosting · sealed)) ++
    [.delete (manifestKey seq)]

def forgetIdentity (seq : Seq) (c : Contents) : Option Contents :=
  match c (identityBySeqKey seq) with
  | none => some c
  | some stored => (unjsonIdentity stored).map fun identity =>
      after c [.delete (identityKey identity.ns identity.key), .delete (identityBySeqKey seq)]

/-- `unproject` on contents. -/
def unprojectC (seq : Seq) (sealed : Bool) (c : Contents) : Option Contents :=
  match c (manifestKey seq) with
  | none => some c
  | some stored => do
    let manifest ← unjsonManifest stored
    let columns ← columnKeys seq manifest
    forgetIdentity seq (after c (retraction seq manifest columns sealed))

/-- The writes that add what a manifest stands for, with the payload and the manifest. -/
def projection (seq : Seq) (version : ℕ) (body : Bytes) (manifest : IndexManifest)
    (columns : List Key) (sealed : Bool) : List (Write Key Stored) :=
  [.put (payloadKey seq) (encodePayload version body)] ++
    manifest.terms.flatMap (fun t => addPosting (termKey t.1 t.2 seq) EMPTY sealed) ++
    columns.flatMap (fun key => addPosting key EMPTY sealed) ++
    manifest.measures.map (fun c => .put (measureKey c.1 seq) (f64 c.2)) ++
    manifest.edges.flatMap (fun e => (edgeKeys seq e).flatMap (addPosting · EMPTY sealed)) ++
    [.put (manifestKey seq) (.manifest (jsonManifest manifest))]

def recordIdentity (seq : Seq) (identity : Option ObjectIdentity) (c : Contents) : Contents :=
  match identity with
  | none => c
  | some identity => after c [.put (identityKey identity.ns identity.key) (.raw (writeU32 seq)),
      .put (identityBySeqKey seq) (.identity identity)]

/-- `project` on contents. -/
def projectC (seq : Seq) (version : ℕ) (body : Bytes) (manifest : IndexManifest) (sealed : Bool)
    (identity : Option ObjectIdentity) (c : Contents) : Option Contents := do
  let c ← unprojectC seq sealed c
  let columns ← columnKeys seq manifest
  return recordIdentity seq identity (after c (projection seq version body manifest columns sealed))

/-- `versionOf` on contents. -/
def versionC (seq : Seq) (c : Contents) : Option ℕ :=
  match c (payloadKey seq) with
  | none => some 0
  | some stored => recordU32 stored

/-- `append` on contents. -/
def appendC (event : StoredEvent) (position : ℕ) (c : Contents) : Contents :=
  after c [.put (eventKey position) (.event (jsonEvent event))]

def removeC (seq : Seq) (sealed : Bool) (c : Contents) : Option Contents :=
  (unprojectC seq sealed c).map fun c => after c [.delete (payloadKey seq)]

def replayC (sealed : Bool) (event : StoredEvent) (c : Contents) : Option Contents :=
  match event.kind with
  | .put => projectC event.seq event.version (event.body.getD [])
      (event.manifest.getD emptyManifest) sealed event.identity c
  | .retract => removeC event.seq sealed c

/-- `identityOf` on contents. -/
def identityC (seq : Seq) (c : Contents) : Option (Option ObjectIdentity) :=
  match c (identityBySeqKey seq) with
  | none => some none
  | some stored => (unjsonIdentity stored).map some

def TxnOp.event (claim : WriterClaim) (c : Contents) : TxnOp → Option (Option StoredEvent)
  | .put now seq bytes manifest identity => do
    let version ← versionC seq c
    return some { generation := claim.generation, seq, kind := .put, version := version + 1,
                  writtenAt := now, body := some bytes, manifest := some manifest, identity }
  | .retract now seq => do
    let version ← versionC seq c
    if version = 0 then return none
    else
      let identity ← identityC seq c
      return some { generation := claim.generation, seq, kind := .retract, version := version + 1,
                    writtenAt := now, identity }

/-- An event logged and carried out: what is seen after it, and the position it took. -/
def logC (sealed : Bool) (event : StoredEvent) (s : Contents × ℕ) : Option (Contents × ℕ) :=
  (replayC sealed event (appendC event (s.2 + 1) s.1)).map fun c => (c, s.2 + 1)

def TxnOp.runC (claim : WriterClaim) (sealed : Bool) (op : TxnOp) (s : Contents × ℕ) :
    Option (Contents × ℕ) := do
  match ← op.event claim s.1 with
  | none => some s
  | some event => logC sealed event s

/-- An applied event on contents: nothing, when the version stored is as new. -/
def applyC (sealed : Bool) (event : DbEvent) (s : Contents × ℕ) : Option (Contents × ℕ) := do
  let seen ← versionC event.seq s.1
  if event.version ≤ seen then return s else logC sealed event.stored s

/-! ## The programs compute them -/

variable {I : Store → Prop}

section programs

variable {m : Store} {txn : Txn}

lemma unproject_safe (seq : Seq) (sealed : Bool) : safe m (unproject seq sealed)
      (fun _ c pos => unprojectC seq sealed (txn.view m) = some c ∧ pos = txn.position) txn := by
  refine safe_bind (safe_viewGet fun txn₁ hv₁ hp₁ => ?_)
  rw [unprojectC]
  cases hman : txn.view m (manifestKey seq) with
  | none => exact safe_pure ⟨by rw [hv₁], hp₁⟩
  | some stored =>
    refine safe_bind (safe_orThrow fun manifest hm txn₂ hv₂ hp₂ => ?_)
    refine safe_bind (safe_stage fun txn₃ hv₃ hp₃ => ?_)
    refine safe_bind (safe_orThrow fun columns hc txn₄ hv₄ hp₄ => ?_)
    refine safe_bind (safe_stage fun txn₅ hv₅ hp₅ => ?_)
    refine safe_bind (safe_stage fun txn₆ hv₆ hp₆ => ?_)
    refine safe_bind (safe_stage fun txn₇ hv₇ hp₇ => ?_)
    refine safe_bind (safe_stage fun txn₈ hv₈ hp₈ => ?_)
    refine safe_bind (safe_viewGet fun txn₉ hv₉ hp₉ => ?_)
    have hview : txn₈.view m = after (txn.view m) (retraction seq manifest columns sealed) := by
      rw [hv₈, hv₇, hv₆, hv₅, hv₄, hv₃, hv₂, hv₁, retraction, after_append, after_append,
        after_append, after_append]
    have hpos : txn₉.position = txn.position := by
      rw [hp₉, hp₈, hp₇, hp₆, hp₅, hp₄, hp₃, hp₂, hp₁]
    simp only [hm, hc, bind_eq_bind, bind_some, forgetIdentity, ← hview]
    cases hid : txn₈.view m (identityBySeqKey seq) with
    | none => exact safe_pure ⟨by rw [hv₉], hpos⟩
    | some stored =>
      refine safe_bind (safe_orThrow fun identity hi txn' hv' hp' => ?_)
      refine safe_stage ⟨?_, by rw [hp', hpos]⟩
      rw [hv', hv₉]
      simp [hi]

lemma project_safe (seq : Seq) (version : ℕ) (body : Bytes) (manifest : IndexManifest)
    (sealed : Bool) (identity : Option ObjectIdentity) :
    safe m (project seq version body manifest sealed identity)
      (fun _ c pos => projectC seq version body manifest sealed identity (txn.view m) = some c ∧
        pos = txn.position) txn := by
  refine safe_bind (safe_mono (unproject_safe seq sealed)
    fun _ c pos ⟨hc, hpos⟩ txn₁ hv₁ hp₁ => ?_)
  refine safe_bind (safe_stage fun txn₂ hv₂ hp₂ => ?_)
  refine safe_bind (safe_stage fun txn₃ hv₃ hp₃ => ?_)
  refine safe_bind (safe_orThrow fun columns hcol txn₄ hv₄ hp₄ => ?_)
  refine safe_bind (safe_stage fun txn₅ hv₅ hp₅ => ?_)
  refine safe_bind (safe_stage fun txn₆ hv₆ hp₆ => ?_)
  refine safe_bind (safe_stage fun txn₇ hv₇ hp₇ => ?_)
  refine safe_bind (safe_stage fun txn₈ hv₈ hp₈ => ?_)
  have hview : txn₈.view m = after c (projection seq version body manifest columns sealed) := by
    rw [hv₈, hv₇, hv₆, hv₅, hv₄, hv₃, hv₂, hv₁, projection, after_append, after_append,
      after_append, after_append, after_append]
  have hpos' : txn₈.position = txn.position := by
    rw [hp₈, hp₇, hp₆, hp₅, hp₄, hp₃, hp₂, hp₁, hpos]
  simp only [projectC, hc, hcol, bind_eq_bind, bind_some, ← hview]
  cases identity with
  | none => exact safe_pure ⟨rfl, hpos'⟩
  | some identity => exact safe_stage ⟨rfl, hpos'⟩

lemma versionOf_safe (seq : Seq) : safe m (versionOf seq)
      (fun v c pos => versionC seq c = some v ∧ c = txn.view m ∧ pos = txn.position) txn := by
  refine safe_bind (safe_viewGet fun txn₁ hv₁ hp₁ => ?_)
  cases hp : txn.view m (payloadKey seq) with
  | none => exact safe_pure ⟨by rw [versionC, hv₁, hp], hv₁, hp₁⟩
  | some stored =>
    exact safe_orThrow fun v hv => ⟨by rw [versionC, hv₁, hp]; exact hv, hv₁, hp₁⟩

lemma identityOf_safe (seq : Seq) : safe m (identityOf seq)
      (fun i c pos => identityC seq c = some i ∧ c = txn.view m ∧ pos = txn.position) txn := by
  refine safe_bind (safe_viewGet fun txn₁ hv₁ hp₁ => ?_)
  cases hp : txn.view m (identityBySeqKey seq) with
  | none => exact safe_pure ⟨by rw [identityC, hv₁, hp], hv₁, hp₁⟩
  | some stored =>
    refine safe_bind (safe_orThrow fun i hi txn₂ hv₂ hp₂ => ?_)
    refine safe_pure ⟨?_, hv₂.trans hv₁, hp₂.trans hp₁⟩
    rw [identityC, hv₂, hv₁, hp]
    simp [hi]

lemma append_safe (event : StoredEvent) : safe m (append event)
      (fun _ c pos => c = appendC event (txn.position + 1) (txn.view m) ∧ pos = txn.position + 1) txn := by
  have hview : Txn.view ⟨stagePending txn.pending
      [.put (eventKey (txn.position + 1)) (.event (jsonEvent event))], txn.position + 1⟩ m =
      appendC event (txn.position + 1) (txn.view m) :=
    view_stagePending txn.pending _ _ txn.position m
  simpa [safe, append, stage, Prog.bind] using hview

lemma log_safe {event : StoredEvent} {t : TxnM Unit} (sealed : Bool) (ht : ∀ txn : Txn, safe m t
      (fun _ c pos => replayC sealed event (txn.view m) = some c ∧ pos = txn.position) txn) :
    safe m (append event >>= fun _ => t)
      (fun _ c pos => logC sealed event (txn.view m, txn.position) = some (c, pos)) txn := by
  refine safe_bind (safe_mono (append_safe event) fun _ c pos ⟨hc, hpos⟩ txn₁ hv hp => ?_)
  refine safe_mono (ht txn₁) fun _ c' pos' ⟨hc', hpos'⟩ => ?_
  rw [logC, ← hc, ← hv, hc', hpos', hp, hpos]
  rfl

lemma remove_safe (seq : Seq) (sealed : Bool) :
    safe m (unproject seq sealed >>= fun _ => stage [.delete (payloadKey seq)])
      (fun _ c pos => removeC seq sealed (txn.view m) = some c ∧ pos = txn.position) txn := by
  refine safe_bind (safe_mono (unproject_safe seq sealed)
    fun _ c pos ⟨hc, hpos⟩ txn₁ hv hp => ?_)
  refine safe_stage ⟨?_, by rw [hp, hpos]⟩
  rw [removeC, hc, hv]
  rfl

lemma replayEvent_safe (event : StoredEvent) : safe m (replayEvent event)
      (fun _ c pos => replayC false event (txn.view m) = some c ∧ pos = txn.position) txn := by
  rw [replayEvent, replayC]
  cases event.kind with
  | put => exact project_safe _ _ _ _ _ _
  | retract => exact remove_safe _ _

lemma assertCurrent_safe {claim : WriterClaim} {R : Unit → Store → Prop}
    {m : Store} (h : R () m) : (assertCurrent claim).safe I R m := by
  simp only [assertCurrent, generationOf, Prog.bind_eq, Prog.safe_bind, Prog.safe_read]
  cases readGeneration (m.get (metaKey META_GENERATION)) with
  | none => simp
  | some g => simp [h]

lemma readMeta_safe {name : Utf16} {R : ℕ → Store → Prop} {m : Store}
    (h : ∀ n, metaOf m.get name = some n → R n m) : (readMeta name).safe I R m := by
  simp only [readMeta, Prog.bind_eq, Prog.safe_bind, Prog.safe_read]
  rw [metaOf] at h
  cases hget : m.get (metaKey name) with
  | none =>
    rw [hget] at h
    exact Prog.safe_pure.2 (h 0 rfl)
  | some stored =>
    rw [hget] at h
    cases hr : recordU32 stored with
    | none => simp [orThrow, hr]
    | some n => simpa [orThrow, hr] using h n hr

lemma txnOp_safe (claim : WriterClaim) (sealed : Bool) (op : TxnOp) : safe m (op.run claim sealed)
      (fun _ c pos => op.runC claim sealed (txn.view m, txn.position) = some (c, pos)) txn := by
  cases op with
  | put now seq bytes manifest identity =>
    refine safe_bind (safe_lift (assertCurrent_safe ⟨rfl, fun txn₁ hv₁ hp₁ => ?_⟩))
    refine safe_bind (safe_mono (versionOf_safe seq)
      fun v c pos ⟨hver, hc, hpos⟩ txn₂ hv₂ hp₂ => ?_)
    subst hc
    rw [hv₁] at hver
    refine safe_mono (log_safe sealed fun txn => project_safe _ _ _ _ _ _)
      fun _ c' pos' h => ?_
    simp only [TxnOp.runC, TxnOp.event, hver, bind_eq_bind, bind_some]
    rw [hv₂, hv₁, hp₂, hpos, hp₁] at h
    exact h
  | retract now seq =>
    refine safe_bind (safe_lift (assertCurrent_safe ⟨rfl, fun txn₁ hv₁ hp₁ => ?_⟩))
    refine safe_bind (safe_mono (versionOf_safe seq)
      fun v c pos ⟨hver, hc, hpos⟩ txn₂ hv₂ hp₂ => ?_)
    subst hc
    rw [hv₁] at hver
    rw [hv₁] at hv₂
    rw [hpos, hp₁] at hp₂
    simp only [TxnOp.runC, TxnOp.event, hver, bind_eq_bind, bind_some]
    by_cases h0 : v = 0
    · rw [if_pos h0, if_pos h0]
      refine safe_pure ?_
      rw [hv₂, hp₂]
      rfl
    · rw [if_neg h0, if_neg h0]
      refine safe_bind (safe_mono (identityOf_safe seq)
        fun identity c pos ⟨hid, hc, hpos⟩ txn₃ hv₃ hp₃ => ?_)
      subst hc
      rw [hv₂] at hid hv₃
      rw [hpos, hp₂] at hp₃
      refine safe_mono (log_safe sealed fun txn => remove_safe _ _)
        fun _ c' pos' h => ?_
      rw [hv₃, hp₃] at h
      rw [hid]
      exact h

end programs

end Zelavis.Db
