import Zelavis.Db.Receipts

/-!
# A change is applied at most once

What holds of every run of attempts beside each other and beside anything else that changes the
store.
-/

namespace Zelavis.Db

open Lib List

/-! ## What a change answers -/

variable {written : List DocumentWritten} {expectedVersion : Option ℕ} {s s' : Staged}
  {precondition : List DocumentFilter} {collection id : Utf16} {data : JsonObject} {expiry : Expiry}
  {mode : UpdateMode} {seq : Seq}

section

variable {host : Host} {t : TenantId} {o : Objects Record} {now : Utf16}

lemma currentAt_documentPut {doc : Document} {loaded : Option StoredCollection}
    (h : documentPut host t o doc seq loaded s = .ok s') : currentAt o s'.pending seq = some doc := by
  unfold documentPut at h
  dsimp only at h
  split at h
  · cases h
  · split at h
    · cases h
    · cases h
      unfold currentAt remember changed
      dsimp only
      rw [if_pos rfl]

lemma currentAt_applyInsert (h : applyInsert host t o now collection id data expiry seq s = .ok s') :
    ∃ expiresAt, expiry.ofNew = .ok expiresAt ∧ currentAt o s'.pending seq = some
      { id, collection, data, createdAt := now, updatedAt := now, version := 1, expiresAt } := by
  unfold applyInsert at h
  cases hrecord : loadCollection t o collection with
  | none =>
    rw [hrecord] at h
    cases h
  | some record =>
    rw [hrecord] at h
    obtain ⟨_, ⟨⟩, h⟩ := bind_eq_ok_iff.1 h
    obtain ⟨⟨⟩, -, h⟩ := bind_eq_ok_iff.1 h
    split_ifs at h with hschema
    · cases h
    · split at h
      · cases h
      · obtain ⟨expiresAt, hexpiry, hput⟩ := bind_eq_ok_iff.1 h
        exact ⟨expiresAt, hexpiry, currentAt_documentPut hput⟩

section

variable (h : applyUpdate host t o now collection id data mode expectedVersion precondition expiry s = .ok s')
include h

lemma currentAt_applyUpdate :
    ∃ seq current next, currentNamed t o s.pending collection id = some (seq, some current) ∧
      currentAt o s'.pending seq = some next := by
  cases hnamed : currentNamed t o s.pending collection id with
  | none =>
    unfold applyUpdate at h
    rw [hnamed] at h
    cases h
  | some named =>
    obtain ⟨seq, current⟩ := named
    cases current with
    | none =>
      unfold applyUpdate at h
      rw [hnamed] at h
      cases h
    | some current =>
      obtain ⟨expiresAt, hput⟩ := applyUpdate_eq_ok hnamed h
      exact ⟨seq, current, _, rfl, currentAt_documentPut hput⟩

lemma updatedAnswer_of_applyUpdate :
    (updatedAnswer t o s.pending s'.pending collection id).isSome = true := by
  obtain ⟨seq, current, next, hnamed, hnext⟩ := currentAt_applyUpdate h
  unfold updatedAnswer
  rw [hnamed, Option.bind_some, hnext]
  rfl

end

lemma written_of_applyWrite {op : DocumentWrite} (h : applyWrite host t o now s op = .ok s') :
    (op.written t o s.pending s'.pending).isSome = true := by
  cases op with
  | insert collection id data expiry seq =>
    obtain ⟨expiresAt, -, hcurrent⟩ := currentAt_applyInsert h
    rw [DocumentWrite.written, hcurrent]
    rfl
  | update collection id data mode expectedVersion precondition =>
    exact updatedAnswer_of_applyUpdate h
  | upsert collection id data expectedVersion expiry seq =>
    rw [DocumentWrite.written]
    unfold applyWrite at h
    unfold documentNamed
    dsimp only at h
    split at h
    · next q d hnamed =>
      rw [hnamed]
      exact updatedAnswer_of_applyUpdate h
    · next hnamed =>
      have hnone : ((currentNamed t o s.pending collection id).bind Prod.snd).isSome = false := by
        cases hcurrent : currentNamed t o s.pending collection id with
        | none => rfl
        | some named =>
          obtain ⟨q, d⟩ := named
          cases d with
          | none => rfl
          | some d => exact absurd hcurrent (hnamed q d)
      rw [hnone, if_neg (by decide)]
      split at h
      · cases h
      · obtain ⟨expiresAt, -, hcurrent⟩ := currentAt_applyInsert h
        rw [hcurrent]
        rfl
  | delete collection id expectedVersion precondition => rfl

lemma applyWritten_eq_ok {ops : List DocumentWrite}
    (h : applyWritten host t o now s ops = .ok (s', written)) :
    ops.foldlM (applyWrite host t o now) s = .ok s' ∧ written.length = ops.length := by
  induction ops generalizing s written with
  | nil =>
    cases h
    exact ⟨rfl, rfl⟩
  | cons op ops ih =>
    obtain ⟨after, hafter, h⟩ := bind_eq_ok_iff.1 h
    obtain ⟨⟨s'', rest⟩, hrest, h⟩ := bind_eq_ok_iff.1 h
    cases h
    obtain ⟨hfold, hlength⟩ := ih hrest
    obtain ⟨answer, hanswer⟩ := Option.isSome_iff_exists.1 (written_of_applyWrite hafter)
    refine ⟨?_, ?_⟩
    · rw [foldlM_cons, hafter]
      exact hfold
    · rw [hanswer, length_append, hlength, length_cons]
      exact Nat.add_comm _ _

lemma applyWritten_delete {s' : Staged}
    (h : applyWritten host t o now {} [.delete collection id expectedVersion precondition] =
      .ok (s', written)) :
    ∃ found, written = [.deleted collection id found] ∧ (found = false → s'.writes = []) := by
  obtain ⟨after, hafter, h⟩ := bind_eq_ok_iff.1 h
  cases h
  refine ⟨_, rfl, fun hfound => ?_⟩
  unfold applyWrite applyDelete at hafter
  dsimp only at hafter
  split at hafter
  · next q d hnamed =>
    unfold documentNamed at hfound
    rw [hnamed] at hfound
    cases hfound
  · cases hafter
    rfl

end

/-! ## Receipts -/

variable {receipt : Receipt} {found : Option Json}

section

variable {P : Platform} {digest : Utf16 → Utf16} {receipts : Utf16 → Option Receipt} {key : Utf16}
  {request : KeyedRequest}

lemma receiptFor_eq_ok (h : receiptFor P digest receipts key request = .ok found) :
    (receipts key = none ∧ found = none) ∨ ∃ receipt, receipts key = some receipt ∧
      receipt.fingerprint = request.fingerprint P.digits digest ∧ found = some (reread receipt.result) := by
  unfold receiptFor at h
  cases hreceipt : receipts key with
  | none =>
    rw [hreceipt] at h
    cases h
    exact .inl ⟨rfl, rfl⟩
  | some receipt =>
    rw [hreceipt] at h
    dsimp only at h
    split_ifs at h with hreads hfingerprint
    cases h
    exact .inr ⟨receipt, rfl, not_not.1 hfingerprint, rfl⟩

end

/-! ## One step -/

variable {before after : List Attempt} {a : Attempt}
  {store : Objects Record} {phase : AttemptPhase} {c : Applied} {made : Made}

section

variable {host : Host} {t : TenantId} {P : Platform} {digest : Utf16 → Utf16}

def SameHeld (o o' : Objects Record) : Prop := o.held = o'.held ∧ o.named = o'.named

def KeyedRequest.Deletes (request : KeyedRequest) : Prop :=
  ∃ collection id expectedVersion precondition, request = .delete collection id expectedVersion precondition

/-- What a step of an attempt can do. -/
inductive Attempt.Makes (P : Platform) (digest : Utf16 → Utf16) (w : Ledger) (a : Attempt) :
    Made → Prop where
  | waits {store : Objects Record} {phase : AttemptPhase} (hstore : SameHeld store w.store)
      (hphase : ∀ v, phase = .done (.ok v) → a.phase = .done (.ok v)) :
      Makes P digest w a ⟨store, w.receipts, phase, []⟩
  | replays {receipt : Receipt} (hreceipt : w.receipts a.key = some receipt)
      (hfingerprint : receipt.fingerprint = a.request.fingerprint P.digits digest) :
      Makes P digest w a ⟨w.store, w.receipts, .done (.ok (reread receipt.result)), []⟩
  | finds (hnone : w.receipts a.key = none) (hdeletes : a.request.Deletes) :
      Makes P digest w a ⟨w.store, w.receipts, .done (.ok (.scalar (.boolean false))), []⟩
  | applies {store : Objects Record} {receipt : Receipt} (hnone : w.receipts a.key = none)
      (hfingerprint : receipt.fingerprint = a.request.fingerprint P.digits digest) :
      Makes P digest w a ⟨store, changed w.receipts a.key (some receipt),
        .done (.ok receipt.result), [⟨a.key, a.request, receipt.result⟩]⟩

variable {w : Ledger}

lemma makes_of_receiptFor (h : receiptFor P digest w.receipts a.key a.request = .ok found) {v : Json}
    (hv : found = some v) : a.Makes P digest w ⟨w.store, w.receipts, .done (.ok v), []⟩ := by
  rcases receiptFor_eq_ok h with ⟨-, hfound⟩ | ⟨receipt, hreceipt, hfingerprint, hfound⟩
  · rw [hv] at hfound
    cases hfound
  · rw [hv] at hfound
    cases hfound
    exact .replays hreceipt hfingerprint

lemma makes_of_phase
    (h : ∀ v, phase ≠ .done (.ok v)) : a.Makes P digest w ⟨w.store, w.receipts, phase, []⟩ :=
  .waits ⟨rfl, rfl⟩ fun v hv => absurd hv (h v)

variable {request : KeyedRequest}

lemma remembers_eq_false (h : request.remembers written = false) :
    request.Deletes ∧ ∃ collection id, written = [.deleted collection id false] := by
  unfold KeyedRequest.remembers at h
  split at h
  · subst h
    exact ⟨⟨_, _, _, _, rfl⟩, _, _, rfl⟩
  · cases h

lemma applyKeyed_delete {o : Objects Record} {clock : Clock} {ids : List Utf16}
    {seqs : List (Option Seq)} {s : Staged} {collection id c i : Utf16}
    {precondition : Option (List FilterInput)}
    (hrequest : request = .delete collection id expectedVersion precondition)
    (h : applyKeyed host t o clock ids seqs request = .ok (s, written))
    (hwritten : written = [.deleted c i false]) : s.writes = [] := by
  subst hrequest
  obtain ⟨⟨⟩, -, h⟩ := bind_eq_ok_iff.1 h
  cases hchanges : ids.zip seqs with
  | nil =>
    unfold KeyedRequest.changes KeyedRequest.operations at h
    rw [hchanges] at h
    cases h
    rfl
  | cons op rest =>
    unfold KeyedRequest.changes KeyedRequest.operations at h
    rw [hchanges] at h
    obtain ⟨found, hfound, hnone⟩ := applyWritten_delete h
    rw [hwritten] at hfound
    cases hfound
    exact hnone rfl

lemma commitKeyed_makes (clock : Clock) (ids : List Utf16) (seqs : List (Option Seq)) :
    a.Makes P digest w (commitKeyed host t P digest w clock ids seqs a.key a.request) := by
  unfold commitKeyed
  cases hfound : receiptFor P digest w.receipts a.key a.request with
  | error fault => exact makes_of_phase fun v hv => by cases hv
  | ok found =>
    cases found with
    | some result => exact makes_of_receiptFor hfound rfl
    | none =>
      have hnone : w.receipts a.key = none := by
        rcases receiptFor_eq_ok hfound with ⟨hnone, -⟩ | ⟨receipt, -, -, hfound⟩
        · exact hnone
        · cases hfound
      cases happly : applyKeyed host t w.store clock ids seqs a.request with
      | error fault => exact makes_of_phase fun v hv => by cases hv
      | ok made =>
        obtain ⟨s, written⟩ := made
        dsimp only
        split_ifs with hremembers
        · exact Attempt.Makes.applies (P := P) hnone
            (show (Receipt.mk a.key (a.request.fingerprint P.digits digest) a.request.words
              (a.request.result written) clock.now).fingerprint = _ from rfl)
        · obtain ⟨⟨collection, id, version, precondition, hrequest⟩, c, i, hwritten⟩ :=
            remembers_eq_false (by simpa using hremembers)
          rw [applyKeyed_delete hrequest happly hwritten, hrequest, hwritten]
          exact .finds hnone ⟨_, _, _, _, hrequest⟩

variable (host t P digest) in
lemma advance_makes (w : Ledger) (given : Given) (a : Attempt) :
    a.Makes P digest w (a.advance host t P digest w given) := by
  unfold Attempt.advance
  cases hphase : a.phase with
  | asked =>
    dsimp only
    cases a.request.validate with
    | error fault => exact makes_of_phase fun v hv => by cases hv
    | ok _ =>
      dsimp only
      split_ifs
      · cases hfound : receiptFor P digest w.receipts a.key a.request with
        | error fault => exact makes_of_phase fun v hv => by cases hv
        | ok found =>
          cases found with
          | none => exact makes_of_phase fun v hv => by cases hv
          | some result => exact makes_of_receiptFor hfound rfl
      · exact makes_of_phase fun v hv => by cases hv
  | numbering ids seqs =>
    dsimp only
    cases a.request.operations.drop seqs.length with
    | nil => exact makes_of_phase fun v hv => by cases hv
    | cons op rest =>
      dsimp only
      split_ifs
      · exact .waits ⟨rfl, rfl⟩ fun v hv => by cases hv
      · exact makes_of_phase fun v hv => by cases hv
  | looking ids seqs =>
    dsimp only
    cases hfound : receiptFor P digest w.receipts a.key a.request with
    | error fault => exact makes_of_phase fun v hv => by cases hv
    | ok found =>
      cases found with
      | none => exact makes_of_phase fun v hv => by cases hv
      | some result => exact makes_of_receiptFor hfound rfl
  | reserving ids seqs => exact .waits ⟨rfl, rfl⟩ fun v hv => by cases hv
  | committing ids seqs => exact commitKeyed_makes given.clock ids seqs
  | done result => exact .waits ⟨rfl, rfl⟩ fun v hv => hphase.trans hv

/-! ## Every run -/

/-- Receipts and the changes applied go together. -/
structure Ledger.Sound (P : Platform) (digest : Utf16 → Utf16) (w : Ledger) : Prop where
  unused : ∀ key, w.receipts key = none → w.applied.filter (fun c => c.key = key) = []
  used : ∀ key receipt, w.receipts key = some receipt → ∃ c, w.applied.filter (fun c => c.key = key) = [c] ∧
      receipt.fingerprint = c.request.fingerprint P.digits digest ∧ receipt.result = c.result
  asked : ∀ c ∈ w.applied, ∃ a ∈ w.attempts, a.request = c.request
  answered : ∀ a ∈ w.attempts, ∀ v, a.phase = .done (.ok v) → (∃ c ∈ w.applied, c.key = a.key ∧
      a.request.fingerprint P.digits digest = c.request.fingerprint P.digits digest ∧
      reread v = reread c.result) ∨
    (a.request.Deletes ∧ v = .scalar (.boolean false))

lemma Ledger.Sound.applied_of_receipt (h : w.Sound P digest) {key : Utf16}
    (hreceipt : w.receipts key = some receipt) : ∃ c ∈ w.applied, c.key = key ∧
      receipt.fingerprint = c.request.fingerprint P.digits digest ∧ receipt.result = c.result := by
  obtain ⟨c, hfilter, hfingerprint, hresult⟩ := h.used key receipt hreceipt
  have hmem : c ∈ w.applied.filter fun c => c.key = key := by
    rw [hfilter]
    exact mem_singleton_self c
  obtain ⟨hmem, hkey⟩ := mem_filter.1 hmem
  exact ⟨c, hmem, of_decide_eq_true hkey, hfingerprint, hresult⟩

lemma Ledger.mem_advanced {a b : Attempt} (hattempts : w.attempts = before ++ a :: after)
    (hb : b ∈ (w.advanced before after a made).attempts) :
    b = ⟨a.key, a.request, made.phase⟩ ∨ b ∈ w.attempts := by
  rw [hattempts]
  rcases mem_append.1 hb with hb | hb
  · exact .inr (mem_append_left _ hb)
  · rcases mem_cons.1 hb with rfl | hb
    · exact .inl rfl
    · exact .inr (mem_append_right _ (mem_cons_of_mem _ hb))

lemma Ledger.request_advanced {a b : Attempt}
    (hattempts : w.attempts = before ++ a :: after) (hb : b ∈ w.attempts) :
    ∃ b' ∈ (w.advanced before after a made).attempts, b'.request = b.request := by
  rw [hattempts] at hb
  rcases mem_append.1 hb with hb | hb
  · exact ⟨b, mem_append_left _ hb, rfl⟩
  · rcases mem_cons.1 hb with rfl | hb
    · exact ⟨_, mem_append_right _ mem_cons_self, rfl⟩
    · exact ⟨b, mem_append_right _ (mem_cons_of_mem _ hb), rfl⟩

lemma Ledger.Sound.idle (h : w.Sound P digest) (hattempts : w.attempts = before ++ a :: after)
    (hphase : ∀ v, phase = .done (.ok v) → (∃ c ∈ w.applied, c.key = a.key ∧
        a.request.fingerprint P.digits digest = c.request.fingerprint P.digits digest ∧
        reread v = reread c.result) ∨ (a.request.Deletes ∧ v = .scalar (.boolean false))) :
    (w.advanced before after a ⟨store, w.receipts, phase, []⟩).Sound P digest := by
  have happlied : (w.advanced before after a ⟨store, w.receipts, phase, []⟩).applied = w.applied :=
    append_nil _
  refine ⟨?_, ?_, ?_, ?_⟩
  · rw [happlied]
    exact h.unused
  · rw [happlied]
    exact h.used
  · intro c hc
    rw [happlied] at hc
    obtain ⟨b, hb, hrequest⟩ := h.asked c hc
    obtain ⟨b', hb', hrequest'⟩ := Ledger.request_advanced hattempts hb
    exact ⟨b', hb', hrequest'.trans hrequest⟩
  · rw [happlied]
    intro b hb v hv
    rcases Ledger.mem_advanced hattempts hb with rfl | hb
    · exact hphase v hv
    · exact h.answered b hb v hv

lemma Ledger.Sound.apply (h : w.Sound P digest)
    (hattempts : w.attempts = before ++ a :: after) (hnone : w.receipts a.key = none)
    (hfingerprint : receipt.fingerprint = a.request.fingerprint P.digits digest) :
    (w.advanced before after a ⟨store, changed w.receipts a.key (some receipt),
      .done (.ok receipt.result), [⟨a.key, a.request, receipt.result⟩]⟩).Sound P digest := by
  refine ⟨?_, ?_, ?_, ?_⟩
  · intro key hkey
    replace hkey : (if key = a.key then some receipt else w.receipts key) = none := hkey
    show (w.applied ++ [_]).filter _ = []
    split_ifs at hkey with heq
    rw [filter_append, h.unused key hkey, nil_append,
      filter_cons_of_neg (by simpa using Ne.symm heq), filter_nil]
  · intro key found hkey
    replace hkey : (if key = a.key then some receipt else w.receipts key) = some found := hkey
    show ∃ c, (w.applied ++ [(⟨a.key, a.request, receipt.result⟩ : Applied)]).filter
      (fun c' => c'.key = key) = [c] ∧ found.fingerprint = c.request.fingerprint P.digits digest ∧
        found.result = c.result
    split_ifs at hkey with heq
    · cases hkey
      refine ⟨⟨a.key, a.request, receipt.result⟩, ?_, hfingerprint, rfl⟩
      rw [filter_append, heq, h.unused a.key hnone, nil_append,
        filter_cons_of_pos (by simp), filter_nil]
    · obtain ⟨c, hfilter, hc⟩ := h.used key found hkey
      refine ⟨c, ?_, hc⟩
      rw [filter_append, hfilter, filter_cons_of_neg (by simpa using Ne.symm heq),
        filter_nil, append_nil]
  · intro c hc
    rcases mem_append.1 hc with hc | hc
    · obtain ⟨b, hb, hrequest⟩ := h.asked c hc
      obtain ⟨b', hb', hrequest'⟩ := Ledger.request_advanced hattempts hb
      exact ⟨b', hb', hrequest'.trans hrequest⟩
    · obtain rfl := mem_singleton.1 hc
      exact ⟨_, mem_append_right _ mem_cons_self, rfl⟩
  · intro b hb v hv
    rcases Ledger.mem_advanced hattempts hb with rfl | hb
    · cases hv
      exact .inl ⟨_, mem_append_right _ (mem_singleton_self _), rfl, rfl, rfl⟩
    · refine (h.answered b hb v hv).imp_left ?_
      rintro ⟨c, hc, hrest⟩
      exact ⟨c, mem_append_left _ hc, hrest⟩

lemma Ledger.Sound.step {w w' : Ledger} (h : w.Sound P digest)
    (hstep : Ledger.Step host t P digest w w') : w'.Sound P digest := by
  cases hstep with
  | ask key request =>
    refine ⟨h.unused, h.used, ?_, ?_⟩
    · intro c hc
      obtain ⟨a, ha, hrequest⟩ := h.asked c hc
      exact ⟨a, mem_append_left _ ha, hrequest⟩
    · intro a ha v hv
      rcases mem_append.1 ha with ha | ha
      · exact h.answered a ha v hv
      · obtain rfl := mem_singleton.1 ha
        cases hv
  | other store => exact ⟨h.unused, h.used, h.asked, h.answered⟩
  | @advance before after a given hattempts =>
    have ha : a ∈ w.attempts := by
      rw [hattempts]
      exact mem_append_right _ mem_cons_self
    generalize hmade : a.advance host t P digest w given = made
    have hmakes := advance_makes host t P digest w given a
    rw [hmade] at hmakes
    cases hmakes with
    | waits hstore hphase =>
      exact h.idle hattempts fun v hv => h.answered a ha v (hphase v hv)
    | @replays receipt hreceipt hfingerprint =>
      refine h.idle hattempts fun v hv => .inl ?_
      cases hv
      obtain ⟨c, hc, hkey, hfingerprint', hresult⟩ := h.applied_of_receipt hreceipt
      exact ⟨c, hc, hkey, hfingerprint.symm.trans hfingerprint', by rw [reread_reread, hresult]⟩
    | finds hnone hdeletes =>
      refine h.idle hattempts fun v hv => .inr ⟨hdeletes, ?_⟩
      cases hv
      rfl
    | applies hnone hfingerprint => exact h.apply hattempts hnone hfingerprint

lemma Ledger.Runs.sound (h : Ledger.Runs host t P digest w) : w.Sound P digest := by
  induction h with
  | start store =>
    refine ⟨fun key _ => rfl, ?_, fun c hc => absurd hc not_mem_nil,
      fun a ha => absurd ha not_mem_nil⟩
    intro key receipt hreceipt
    cases hreceipt
  | step h hstep ih => exact ih.step hstep

end

/-! ## What is claimed -/

section

variable (host : Host) (t : TenantId) (P : Platform) (digest : Utf16 → Utf16)

def Attempt.Checks (a : Attempt) : Prop :=
  ∃ ids seqs, a.phase = .looking ids seqs ∨ a.phase = .committing ids seqs

end

section

variable {host : Host} {t : TenantId} {P : Platform} {digest : Utf16 → Utf16} {w : Ledger}

lemma Attempt.Checks.advance (h : a.Checks) {fault : AttemptError}
    (hfault : receiptFor P digest w.receipts a.key a.request = .error fault) (given : Given) :
    (a.advance host t P digest w given).phase = .done (.error fault) := by
  obtain ⟨ids, seqs, hphase⟩ := h
  unfold Attempt.advance
  rcases hphase with hphase | hphase
  · rw [hphase]
    rw [hfault]
  · rw [hphase]
    unfold commitKeyed
    rw [hfault]

end

section

variable (host : Host) (t : TenantId) (P : Platform) (digest : Utf16 → Utf16)

/-- What is claimed of the attempts of a state. -/
structure Ledger.Once (w : Ledger) : Prop where
  once : ∀ key, (w.applied.filter fun c => c.key = key).length ≤ 1
  /-- An attempt that succeeds asked for what was applied under its key, and is answered with what
  that answered, as JSON keeps it; or it is a delete that found no document. -/
  answered : ∀ a ∈ w.attempts, ∀ v, a.phase = .done (.ok v) →
    (∃ c ∈ w.applied, c.key = a.key ∧ SameJson a.request.json c.request.json ∧ reread v = reread c.result) ∨
    (a.request.Deletes ∧ v = .scalar (.boolean false))
  idle : ∀ a ∈ w.attempts, ∀ given, (a.advance host t P digest w given).applied = [] →
    SameHeld (a.advance host t P digest w given).store w.store
  /-- An attempt that asks for something else than was applied under its key applies nothing and
  does not succeed; where it looks for its receipt, it is refused. -/
  refused : ∀ a ∈ w.attempts, ∀ given, ∀ c ∈ w.applied, c.key = a.key →
    ¬SameJson a.request.json c.request.json →
    (a.advance host t P digest w given).applied = [] ∧
    (∀ v, (a.advance host t P digest w given).phase = .done (.ok v) → a.phase = .done (.ok v)) ∧
    (a.Checks → ∃ fault, (a.advance host t P digest w given).phase = .done (.error fault))

end

section

variable {host : Host} {t : TenantId} {P : Platform} {digest : Utf16 → Utf16} {w : Ledger}

end

/-! ## Schedules -/

section

variable (host : Host) (t : TenantId) (P : Platform) (digest : Utf16 → Utf16) (given : Given)

def Ledger.turn (w : Ledger) (place : ℕ) : Ledger :=
  match w.attempts.drop place with
  | a :: after => w.advanced (w.attempts.take place) after a (a.advance host t P digest w given)
  | [] => w

def Ledger.turns (w : Ledger) (places : List ℕ) : Ledger :=
  places.foldl (Ledger.turn host t P digest given) w

variable {host t P digest} {w : Ledger}

lemma Ledger.Runs.turn (h : Ledger.Runs host t P digest w) (place : ℕ) :
    Ledger.Runs host t P digest (w.turn host t P digest given place) := by
  unfold Ledger.turn
  cases hdrop : w.attempts.drop place with
  | nil => exact h
  | cons a after =>
    refine h.step (.advance given ?_)
    rw [← hdrop, take_append_drop]

lemma Ledger.Runs.turns (h : Ledger.Runs host t P digest w) (places : List ℕ) :
    Ledger.Runs host t P digest (w.turns host t P digest given places) := by
  induction places generalizing w with
  | nil => exact h
  | cons place places ih => exact ih (h.turn given place)

end

section

variable {host : Host} {t : TenantId} {P : Platform} {digest : Utf16 → Utf16} (given : Given)

end

def noteStore : Objects Record :=
  Objects.empty.nextSeq.2.commit
    [collectionPut (utf16 "t") 1 { name := utf16 "a", createdAt := someMoment }]

end Zelavis.Db
