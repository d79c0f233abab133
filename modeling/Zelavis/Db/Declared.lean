import Zelavis.Db.Builds
import Zelavis.Db.Declarations

/-!
# What is declared, and what a change of the store leaves of it
-/

namespace Zelavis.Db.Declarations

open Lib

/-! ## A batch -/

variable {d : Document} {q : Seq}

section

variable {host : Host} {t : TenantId} {o : Objects Record} {now : Utf16} {ops : List DocumentWrite}
  {s : Staged}

def Meets (c : StoredCollection) (d : Document) : Prop :=
  embeddingFault c d = none ∧ ∀ check ∈ c.checks, checkFault d check = none

/-- Every document a transaction has written meets what its collection's record declares. -/
def Enforced (t : TenantId) (o : Objects Record) (s : Staged) : Prop :=
  ∀ q d, s.pending.bySeq q = some (some d) → ∀ c, loadCollection t o d.collection = some c → Meets c d

variable {c : StoredCollection}

lemma meets_of_enforceConstraints {p : PendingDocs}
    {edges : List (Utf16 × Seq)} (h : enforceConstraints t o (some c) d q p = .ok edges) : Meets c d := by
  unfold enforceConstraints at h
  dsimp only at h
  split at h
  · cases h
  next hfault =>
    obtain ⟨hembedding, hfault⟩ := Option.or_eq_none_iff.1 hfault
    obtain ⟨hchecks, -⟩ := Option.or_eq_none_iff.1 hfault
    exact ⟨hembedding, List.findSome?_eq_none_iff.1 hchecks⟩

lemma Enforced.forget (h : Enforced t o s) :
    Enforced t o { s with pending := Db.forget s.pending d q } := by
  intro q' d' hby
  have hby : (if q' = q then some none else s.pending.bySeq q') = some (some d') := hby
  split_ifs at hby with hq
  · cases hby
  · exact h q' d' hby

lemma Enforced.keeps : Keeps host t o now ops (fun _ _ => True) fun _ s => Enforced t o s where
  put := by
    intro rest due s s' op doc seq loaded _ _ hplaced _ hput _ h q d hby c hc
    obtain ⟨edges, manifest, hedges, -, rfl⟩ := documentPut_eq_ok hplaced.record_eq hput
    have hby : (if q = seq then some (some doc) else s.pending.bySeq q) = some (some d) := hby
    split_ifs at hby with hq
    · cases hby
      rw [hc] at hedges
      exact meets_of_enforceConstraints hedges
    · exact h q d hby c hc
  forget := fun _ _ _ h => h.forget
  forgetAgain := fun _ h => h.forget
  retract := fun _ h => h

/-- A document that is there after a batch was there before it, or meets what its collection's record
declares. -/
theorem docAt_of_batch (ho : Kept o) (ht : TenantOk t)
    (hfresh : ∀ q ∈ seqsOf ops, q ≤ o.lastSeq ∧ o.held.get q = none) (hnodup : (seqsOf ops).Nodup)
    (hs : ops.foldlM (applyWrite host t o now) {} = .ok s) (hd : docAt t (o.commit s.writes) q = some d) :
    docAt t o q = some d ∨ ∀ c, loadCollection t o d.collection = some c → Meets c d := by
  have hkeeps : Keeps host t o now ops (fun _ _ => True) fun _ s => Enforced t o s := Enforced.keeps
  obtain ⟨hw, henforced⟩ := foldlM_induct ho ht hkeeps (fun q hq => (hfresh q hq).2)
    (fun q hq => (hfresh q hq).1) hnodup (fun _ _ _ _ _ _ => trivial) (fun _ _ hby => by cases hby) hs
  rw [hw.docAt_commit] at hd
  cases hby : s.pending.bySeq q with
  | none => exact .inl ((curr_of_none hby).symm.trans hd)
  | some doc =>
    rw [curr_of_some hby] at hd
    subst hd
    exact .inr (henforced q d hby)

lemma fault_of_meets {n : Utf16} (hd : d.collection = n)
    (h : Meets c d) {request : Request} (hrecorded : request.RecordedIn c) : request.fault n d = none := by
  subst hd
  cases request with
  | addCheck check => exact h.2 check hrecorded
  | dropCheck name => rfl
  | embed e =>
    have hembedding : c.embedding = some e := hrecorded
    have hnone := h.1
    unfold embeddingFault at hnone
    rw [hembedding] at hnone
    exact hnone

end

/-! ## A record written -/

/-- A store that another came to without an identifier being used. -/
structure Follows (t : TenantId) (n : Utf16) (o o' : Objects Record) : Prop where
  kept : Kept o'
  named : ∀ seq, o.named ⟨collectionNs t, n⟩ = some seq → o'.named ⟨collectionNs t, n⟩ = some seq
  free : ∀ q ≤ o.lastSeq, o.held.get q = none → q ≤ o'.lastSeq ∧ o'.held.get q = none

/-- A collection's record written over the one there is. -/
structure Rewritten (t : TenantId) (n : Utf16) (o o' : Objects Record) (c c' : StoredCollection) :
    Prop extends Follows t n o o' where
  docAt : ∀ q, Db.docAt t o' q = Db.docAt t o q
  load : loadCollection t o n = some c
  load' : loadCollection t o' n = some c'

lemma Rewritten.recorded_iff {t : TenantId} {n : Utf16} {o o' : Objects Record}
    {c c' : StoredCollection} (h : Rewritten t n o o' c c') {P : StoredCollection → Prop} (hP : P c' ↔ P c) :
    (∃ c, loadCollection t o' n = some c ∧ P c) ↔ ∃ c, loadCollection t o n = some c ∧ P c := by
  constructor
  · rintro ⟨c₀, hc₀, hin⟩
    cases h.load'.symm.trans hc₀
    exact ⟨c, h.load, hP.1 hin⟩
  · rintro ⟨c₀, hc₀, hin⟩
    cases h.load.symm.trans hc₀
    exact ⟨c', h.load', hP.2 hin⟩

lemma rewritten_settings {t : TenantId} {n : Utf16} {o : Objects Record} (ho : Kept o) {seq : Seq}
    {c : StoredCollection} (hseq : o.named ⟨collectionNs t, n⟩ = some seq)
    (hc : loadCollection t o n = some c) (settings : Settings) :
    Rewritten t n o (o.commit [collectionPut t seq (settings.on c)]) c (settings.on c) := by
  obtain ⟨hr, -⟩ := recordSettings_recordsOnly ho hseq fun _ => settings
  have hcommit : recordSettings t o seq n (fun _ => settings) =
      o.commit [collectionPut t seq (settings.on c)] := by
    unfold recordSettings
    rw [hc]
  rw [hcommit] at hr
  have hname := (ho.name_of_load hc).1
  refine ⟨⟨hr.kept, fun q hq => hr.names t n q hq, fun q hq hnone =>
    ⟨hq.trans hr.later, hr.free q hq hnone⟩⟩, hr.documents.docAt t, hc, ?_⟩
  have htakes : o.Takes seq ⟨collectionNs t, (settings.on c).name⟩ := by
    refine ho.named.takes_of_named ?_
    rw [← hseq, ← hname]
    rfl
  rw [Objects.commit_cons, Objects.commit_nil, loadCollection_collectionPut ho.named htakes]
  exact if_pos ⟨rfl, hname.symm⟩

/-! ## What a change of the store leaves -/

section

variable {t : TenantId} {n : Utf16} {o o' : Objects Record} {request : Request}
  {c c' : StoredCollection}

/-- What a change of the store leaves of a declaration. -/
structure Spares (t : TenantId) (n : Utf16) (o o' : Objects Record) (request : Request) : Prop where
  recorded : (∃ c, loadCollection t o n = some c ∧ request.RecordedIn c) →
    ∃ c, loadCollection t o' n = some c ∧ request.RecordedIn c
  only : ∀ check, request = .addCheck check → ∀ c', loadCollection t o' n = some c' →
    ∀ other ∈ c'.checks, other.name = check.name →
      other = check ∨ ∃ c, loadCollection t o n = some c ∧ other ∈ c.checks
  docs : (∃ c, loadCollection t o n = some c ∧ request.RecordedIn c) →
    ∀ q d, docAt t o' q = some d → d.collection = n → docAt t o q = some d ∨ request.fault n d = none

lemma Spares.refl : Spares t n o o request where
  recorded := id
  only := fun _ _ c hc other hother _ => .inr ⟨c, hc, hother⟩
  docs := fun _ _ _ hd _ => .inl hd

lemma Holds.spared (h : Holds t n o request) (hs : Spares t n o o' request) : Holds t n o' request := by
  refine ⟨hs.recorded h.1, fun q d hd hcol => ?_⟩
  rcases hs.docs h.1 q d hd hcol with hold | hmeets
  · exact h.2 q d hold hcol
  · exact hmeets

lemma Rewritten.spares (h : Rewritten t n o o' c c')
    (hrecorded : request.RecordedIn c → request.RecordedIn c')
    (honly : ∀ check, request = .addCheck check → ∀ other ∈ c'.checks, other.name = check.name →
      other = check ∨ other ∈ c.checks) : Spares t n o o' request where
  recorded := by
    rintro ⟨c₀, hc₀, hin⟩
    cases h.load.symm.trans hc₀
    exact ⟨c', h.load', hrecorded hin⟩
  only := by
    intro check hrequest c₀ hc₀ other hother hname
    cases h.load'.symm.trans hc₀
    rcases honly check hrequest other hother hname with heq | hmem
    · exact .inl heq
    · exact .inr ⟨c, h.load, hmem⟩
  docs := fun _ q d hd _ => .inl ((h.docAt q).symm.trans hd)

lemma spares_batch {host : Host} {now : Utf16} {ops : List DocumentWrite} {s : Staged} (ho : Kept o)
    (ht : TenantOk t) (hfresh : ∀ q ∈ seqsOf ops, q ≤ o.lastSeq ∧ o.held.get q = none)
    (hnodup : (seqsOf ops).Nodup) (hs : ops.foldlM (applyWrite host t o now) {} = .ok s) :
    Spares t n o (o.commit s.writes) request := by
  obtain ⟨hw, -⟩ := foldlM_uses ho ht hfresh hnodup hs
  have hload := hw.load_commit ho t n
  refine ⟨fun h => ?_, fun check _ c' hc' other hother _ => ?_, ?_⟩
  · rw [hload]
    exact h
  · exact .inr ⟨c', hload.symm.trans hc', hother⟩
  · rintro ⟨c, hc, hrecorded⟩ q d hd hcol
    refine (docAt_of_batch ho ht hfresh hnodup hs hd).imp_right fun hmeets => ?_
    exact fault_of_meets hcol (hmeets c (by rw [hcol]; exact hc)) hrecorded

end

/-! ## The invariant -/

section

variable (t : TenantId) (n : Utf16)

/-- What is so of a call that was made. -/
structure Call.Sound (w : World) (call : Call) : Prop where
  named : ∀ seq, call.phase.seq = some seq → w.store.named ⟨collectionNs t, n⟩ = some seq
  recorded : call.phase.isOpen = true → ∃ c, loadCollection t w.store n = some c ∧ call.request.RecordedIn c
  only : call.phase.isOpen = true → ∀ check, call.request = .addCheck check →
    ∀ c, loadCollection t w.store n = some c → ∀ other ∈ c.checks, other.name = check.name → other = check
  fresh : call.phase.isOpen = true → ∀ check, call.request = .addCheck check →
    ∀ other ∈ w.checks, other.name ≠ check.name
  free : call.phase.isOpen = true → ∀ e, call.request = .embed e → w.embedding = none
  read : ∀ seq before todo documents, call.phase = .reading seq before todo documents →
    ∀ q d, docAt t w.store q = some d → d.collection = n → q ∈ todo ∨ call.request.fault n d = none
  failed : ∀ seq before fault, call.phase = .failing seq before fault →
    ∀ e, call.request = .embed e → before = none

/-- Two declarations that can be under way at once. -/
structure Apart (a b : Request) : Prop where
  names : ∀ c d, a = .addCheck c → b = .addCheck d → c.name ≠ d.name
  embeddings : ∀ e e', a = .embed e → b ≠ .embed e'

/-- The invariant. -/
structure World.Sound (w : World) : Prop where
  kept : Kept w.store
  reserved : ∀ q ∈ w.reserved, q ≤ w.store.lastSeq ∧ w.store.held.get q = none
  inForce : w.InForce t n
  calls : ∀ call ∈ w.calls, call.Sound t n w
  apart : ∀ (i j : ℕ) (a b : Call), w.calls[i]? = some a → w.calls[j]? = some b → i ≠ j →
    a.phase.isOpen = true → b.phase.isOpen = true → Apart a.request b.request

end

section

variable {t : TenantId} {n : Utf16} {w w' : World} {call : Call} {request : Request}

lemma Apart.symm {a b : Request} (h : Apart a b) : Apart b a where
  names := fun c d hb ha => (h.names d c ha hb).symm
  embeddings := fun e e' hb ha => h.embeddings e' e ha hb

lemma Call.sound_of_closed (hopen : call.phase.isOpen = false)
    (hnamed : ∀ seq, call.phase.seq = some seq → w.store.named ⟨collectionNs t, n⟩ = some seq) :
    call.Sound t n w := by
  have hnot : call.phase.isOpen ≠ true := by
    rw [hopen]
    exact Bool.false_ne_true
  refine ⟨hnamed, fun h => absurd h hnot, fun h => absurd h hnot, fun h => absurd h hnot,
    fun h => absurd h hnot, fun seq before todo documents hphase => ?_,
    fun seq before fault hphase => ?_⟩
  · rw [hphase] at hnot
    exact absurd rfl hnot
  · rw [hphase] at hnot
    exact absurd rfl hnot

/-- A change that spares what a call declares leaves it sound, where nothing comes in force that it
would withdraw. -/
theorem Call.Sound.spared (h : call.Sound t n w)
    (hnamed : ∀ seq, w.store.named ⟨collectionNs t, n⟩ = some seq →
      w'.store.named ⟨collectionNs t, n⟩ = some seq)
    (hspares : call.phase.isOpen = true → Spares t n w.store w'.store call.request)
    (hchecks : call.phase.isOpen = true → ∀ check, call.request = .addCheck check →
      ∀ other ∈ w'.checks, other ∈ w.checks ∨ other.name ≠ check.name)
    (hembedding : call.phase.isOpen = true → ∀ e, call.request = .embed e →
      w'.embedding = w.embedding ∨ w'.embedding = none) : call.Sound t n w' where
  named := fun seq hseq => hnamed seq (h.named seq hseq)
  recorded := fun hopen => (hspares hopen).recorded (h.recorded hopen)
  only := by
    intro hopen check hrequest c' hc' other hother hname
    rcases (hspares hopen).only check hrequest c' hc' other hother hname with heq | ⟨c, hc, hmem⟩
    · exact heq
    · exact h.only hopen check hrequest c hc other hmem hname
  fresh := by
    intro hopen check hrequest other hother
    rcases hchecks hopen check hrequest other hother with hmem | hne
    · exact h.fresh hopen check hrequest other hmem
    · exact hne
  free := by
    intro hopen e hrequest
    rcases hembedding hopen e hrequest with heq | hnone
    · exact heq.trans (h.free hopen e hrequest)
    · exact hnone
  read := by
    intro seq before todo documents hphase q d hd hcol
    have hopen : call.phase.isOpen = true := by
      rw [hphase]
      rfl
    rcases (hspares hopen).docs (h.recorded hopen) q d hd hcol with hold | hmeets
    · exact h.read seq before todo documents hphase q d hold hcol
    · exact .inr hmeets
  failed := h.failed

lemma World.InForce.spared (h : w.InForce t n)
    (hchecks : ∀ check ∈ w.checks, Spares t n w.store w'.store (.addCheck check))
    (hembedding : ∀ e, w.embedding = some e → Spares t n w.store w'.store (.embed e))
    (hsame : w'.checks = w.checks ∧ w'.embedding = w.embedding) : w'.InForce t n := by
  obtain ⟨hc, he⟩ := hsame
  refine ⟨fun check hcheck => ?_, fun e hin => ?_⟩
  · rw [hc] at hcheck
    exact (h.checks check hcheck).spared (hchecks check hcheck)
  · rw [he] at hin
    exact (h.embedding e hin).spared (hembedding e hin)

end

end Zelavis.Db.Declarations
