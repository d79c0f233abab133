import Zelavis.Platform.Bootstrap

/-!
# There is one first owner

Over every run of `Zelavis.Platform.Bootstrap` whose turns are clear.
-/

namespace Zelavis.Platform.Bootstrap

open Lib Turns Edge List Option

variable {lower : Utf16 → Utf16} {s s' s₁ : Shared} {p p' q next failing : Phase} {e : Event} {t : Attempt}

/-! ## What an attempt holds -/

def Phase.attempt : Phase → Option Attempt
  | .listing t => some t
  | .cleaning t _ _ _ => some t
  | .creating t => some t
  | .enrolling t => some t
  | .completing t => some t
  | .opening t => some t
  | .finishing t _ => some t
  | .undoing t _ => some t
  | .succeeded t _ => some t
  | .failed t => some t
  | _ => none

def Phase.holds : Phase → Option (Versioned Claim)
  | .succeeded _ _ => none
  | .failed _ => none
  | p => p.attempt.map Attempt.record

def Phase.past : Phase → Bool
  | .opening _ => true
  | .finishing _ _ => true
  | .succeeded _ _ => true
  | _ => false

lemma attempt_clean (t : Attempt) (ids : List ℕ) : (Phase.clean t ids).attempt = some t := by
  cases ids <;> rfl

lemma holds_clean (t : Attempt) (ids : List ℕ) : (Phase.clean t ids).holds = some t.record := by
  cases ids <;> rfl

lemma past_clean (t : Attempt) (ids : List ℕ) : (Phase.clean t ids).past = false := by
  cases ids <;> rfl

/-! ## One step -/

def Shared.Newer (s : Shared) (record : Versioned Claim) : Prop :=
  ∀ c, s.claim = some c → c.updatedAt < record.updatedAt

/-- What one step of an attempt does. -/
structure Moved (s s' : Shared) (p p' : Phase) : Prop where
  next : s.next ≤ s'.next
  attempt : p'.attempt = p.attempt ∨ p.attempt = none ∧ ∃ t, p'.attempt = some t ∧ s.next ≤ t.account ∧
    t.account < s'.next
  holds : ∀ r, p'.holds = some r → p.holds = some r ∨ s'.claim = some r ∧ s.Newer r
  claim : s'.claim = s.claim ∨ ∃ c', s'.claim = some c' ∧ s.Newer c' ∧
    (s.vacant = true ∨ ∃ r c, p.holds = some r ∧ s.claim = some c ∧ c.updatedAt = r.updatedAt)
  accounts : ∀ a ∈ s'.accounts, a ∈ s.accounts ∨
    ∃ t, p'.attempt = some t ∧ a.id = t.account ∧ (a.pending = true ∨ p'.past = true)
  kept : ∀ a ∈ s.accounts, a.pending = false → a ∈ s'.accounts ∨
    ∃ t, p.attempt = some t ∧ a.id = t.account ∧ p.past = false
  stays : p.past = true → p'.past = true
  completes : p'.past = true → p.past = true ∨ ∃ t, p.attempt = some t ∧ p'.attempt = some t ∧
    p.holds = some t.record ∧ s.claim = some t.record ∧ s'.claim = s.claim ∧ t.toAccount false ∈ s'.accounts

lemma moved_apply (h : e.fault.apply s s₁ next failing = (s', p'))
    (hnone : e.fault = .none → Moved s s₁ p next) (hbefore : e.fault = .before → Moved s s p failing)
    (hafter : e.fault = .after → Moved s s₁ p failing) : Moved s s' p p' := by
  cases hfault : e.fault with
  | none =>
    rw [hfault] at h
    cases h
    exact hnone hfault
  | before =>
    rw [hfault] at h
    cases h
    exact hbefore hfault
  | after =>
    rw [hfault] at h
    cases h
    exact hafter hfault

lemma Phase.none_of_holds {Q : Versioned Claim → Prop} (hnone : p'.holds = none) :
    ∀ r, p'.holds = some r → Q r := by
  intro r hr
  cases hnone.symm.trans hr

lemma Moved.quiet (hclaim : s'.claim = s.claim) (haccounts : s'.accounts = s.accounts)
    (hnext : s.next ≤ s'.next) (hattempt : p'.attempt = p.attempt)
    (hholds : ∀ r, p'.holds = some r → p.holds = some r) (hpast : p'.past = p.past) : Moved s s' p p' :=
  ⟨hnext, .inl hattempt, fun r hr => .inl (hholds r hr), .inl hclaim, fun a ha => .inl (haccounts ▸ ha),
    fun a ha _ => .inl (haccounts.symm ▸ ha), fun h => hpast.trans h, fun h => .inl (hpast.symm.trans h)⟩

lemma Moved.write (hclaim : s'.claim = s.claim) (hnext : s'.next = s.next) (hattempt : p'.attempt = p.attempt)
    (hholds : ∀ r, p'.holds = some r → p.holds = some r) (hpast : p.past = false) (hpast' : p'.past = false)
    (haccounts : ∀ a ∈ s'.accounts, a ∈ s.accounts ∨ ∃ t, p.attempt = some t ∧ a.id = t.account ∧ a.pending = true)
    (hkept : ∀ a ∈ s.accounts, a.pending = false → a ∈ s'.accounts ∨
      ∃ t, p.attempt = some t ∧ a.id = t.account) : Moved s s' p p' := by
  refine ⟨hnext.symm.le, .inl hattempt, fun r hr => .inl (hholds r hr), .inl hclaim, fun a ha => ?_,
    fun a ha hcompleted => ?_, fun h => ?_, fun h => ?_⟩
  · obtain ha | ⟨t, ht, hid, hpending⟩ := haccounts a ha
    · exact .inl ha
    · exact .inr ⟨t, hattempt.trans ht, hid, .inl hpending⟩
  · obtain ha | ⟨t, ht, hid⟩ := hkept a ha hcompleted
    · exact .inl ha
    · exact .inr ⟨t, ht, hid, hpast⟩
  · rw [hpast] at h
    cases h
  · rw [hpast'] at h
    cases h

lemma Moved.take (hattempt : p.attempt = none) (hpast : p.past = false) (owner : Owner)
    (record : Versioned Claim) (n : ℕ) (hvacant : s.vacant = true) (hnewer : s.Newer record) :
    Moved s (Shared.hold { s with next := s.next + n } owner record).1 p
      (Shared.hold { s with next := s.next + n } owner record).2 ∧
    Moved s (Shared.hold { s with next := s.next + n } owner record).1 p .refused := by
  have hnext : s.next ≤ s.next + n + 2 := by omega
  refine ⟨⟨hnext, .inr ⟨hattempt, _, rfl, Nat.le_add_right _ _, by show s.next + n < s.next + n + 2; omega⟩,
    fun r hr => .inr ⟨hr, ?_⟩, .inr ⟨record, rfl, hnewer, .inl hvacant⟩, fun a ha => .inl ha,
    fun a ha _ => .inl ha, fun h => ?_, fun h => ?_⟩,
    ⟨hnext, .inl hattempt.symm, fun r hr => ?_, .inr ⟨record, rfl, hnewer, .inl hvacant⟩, fun a ha => .inl ha,
    fun a ha _ => .inl ha, fun h => ?_, fun h => ?_⟩⟩
  · cases hr
    exact hnewer
  · rw [hpast] at h
    cases h
  · cases h
  · cases hr
  · rw [hpast] at h
    cases h
  · cases h

lemma setClaim_claim (s : Shared) (storeNow expectedUpdatedAt : ℕ) (claim : Claim) :
    (s.setClaim storeNow expectedUpdatedAt claim).claim = s.claim ∨
    ∃ c c', s.claim = some c ∧ c.updatedAt = expectedUpdatedAt ∧
      (s.setClaim storeNow expectedUpdatedAt claim).claim = some c' ∧ c.updatedAt < c'.updatedAt := by
  unfold Shared.setClaim
  cases hclaim : s.claim with
  | none => exact .inl rfl
  | some c =>
    by_cases hexpected : SystemStore.isExpected (some c) expectedUpdatedAt (none : Option Claim) = true
    · rw [SystemStore.compareAndSetRecord, if_pos hexpected]
      refine .inr ⟨c, _, rfl, ?_, rfl, updatedAt_lt_setRecord⟩
      simpa [SystemStore.isExpected] using hexpected
    · rw [SystemStore.compareAndSetRecord, if_neg hexpected]
      exact .inl rfl

lemma Moved.finish (record : Versioned Claim) (status : Status) (hrecord : p.holds = some record)
    (hattempt : p'.attempt = p.attempt) (hholds : ∀ r, p'.holds = some r → p.holds = some r)
    (hpast : p'.past = p.past) : Moved s (s.finishClaim e record status) p p' := by
  refine ⟨le_rfl, .inl hattempt, fun r hr => .inl (hholds r hr), ?_, fun a ha => .inl ha,
    fun a ha _ => .inl ha, fun h => hpast.trans h, fun h => .inl (hpast.symm.trans h)⟩
  obtain hsame | ⟨c, c', hc, hupdated, hc', hlt⟩ := setClaim_claim s e.storeNow record.updatedAt
    { record.value with status, updatedAt := e.now }
  · exact .inl hsame
  · refine .inr ⟨c', hc', fun c₁ hc₁ => ?_, .inr ⟨record, c, hrecord, hc, hupdated⟩⟩
    cases hc.symm.trans hc₁
    exact hlt

variable {account a : Account}

lemma mem_setAccount (h : a ∈ (s.setAccount account).accounts) : a ∈ s.accounts ∨ a = account := by
  obtain h | h := mem_append.1 h
  · exact .inl (mem_filter.1 h).1
  · exact .inr (mem_singleton.1 h)

lemma mem_setAccount_of_ne (h : a ∈ s.accounts) (hne : a.id ≠ account.id) :
    a ∈ (s.setAccount account).accounts :=
  mem_append_left _ (mem_filter.2 ⟨h, decide_eq_true hne⟩)

lemma mem_deleteAccount {id : ℕ} {a : Account} (h : a ∈ s.accounts) (hne : a.id ≠ id) :
    a ∈ (s.deleteAccount id).accounts :=
  mem_filter.2 ⟨h, decide_eq_true hne⟩

lemma Chore.moved {id : ℕ} {ids : List ℕ} {chore : Chore} {p' : Phase} (hattempt : p'.attempt = some t)
    (hholds : p'.holds = some t.record) (hpast : p'.past = false)
    (hclear : (Phase.cleaning t id ids chore).clear e s = true) (hfault : e.fault ≠ .before) :
    Moved s (chore.next s t id ids).1 (.cleaning t id ids chore) p' := by
  have hquiet : ∀ s' : Shared, s'.claim = s.claim → s'.accounts = s.accounts → s'.next = s.next →
      Moved s s' (.cleaning t id ids chore) p' := fun s' hclaim haccounts hnext =>
    Moved.quiet hclaim haccounts hnext.symm.le hattempt (fun r hr => hholds.symm.trans hr) hpast
  cases chore with
  | listSessions => exact hquiet _ rfl rfl rfl
  | deleteSessions sessions =>
    cases sessions with
    | nil | cons => exact hquiet _ rfl rfl rfl
  | listCredentials => exact hquiet _ rfl rfl rfl
  | deleteCredentials credentials =>
    cases credentials with
    | nil | cons => exact hquiet _ rfl rfl rfl
  | deleteAccount =>
    refine Moved.write rfl rfl hattempt (fun r hr => hholds.symm.trans hr) rfl hpast
      (fun a ha => .inl (mem_filter.1 ha).1) fun a ha hcompleted => .inl (mem_deleteAccount ha ?_)
    simp only [Phase.clear, Bool.or_eq_true, decide_eq_true_eq, hfault, false_or, List.all_eq_true] at hclear
    obtain hne | hpending := hclear a ha
    · exact hne
    · rw [hcompleted] at hpending
      cases hpending

lemma Chore.next_phase (s : Shared) (t : Attempt) (id : ℕ) (ids : List ℕ) (chore : Chore) :
    (chore.next s t id ids).2.attempt = some t ∧ (chore.next s t id ids).2.holds = some t.record ∧
      (chore.next s t id ids).2.past = false := by
  cases chore with
  | listSessions => exact ⟨rfl, rfl, rfl⟩
  | deleteSessions sessions =>
    cases sessions with
    | nil | cons => exact ⟨rfl, rfl, rfl⟩
  | listCredentials => exact ⟨rfl, rfl, rfl⟩
  | deleteCredentials credentials =>
    cases credentials with
    | nil | cons => exact ⟨rfl, rfl, rfl⟩
  | deleteAccount => exact ⟨attempt_clean t ids, holds_clean t ids, past_clean t ids⟩

lemma Undo.moved {undo : Undo} {todo : List Undo} (hattempt : p'.attempt = some t)
    (hholds : ∀ r, p'.holds = some r → r = t.record) (hpast : p'.past = false) :
    Moved s (undo.act e s t) (.undoing t (undo :: todo)) p' := by
  have hsame : ∀ r, p'.holds = some r → (Phase.undoing t (undo :: todo)).holds = some r := fun r hr =>
    congrArg some (hholds r hr).symm
  cases undo with
  | session | credential => exact Moved.quiet rfl rfl le_rfl hattempt hsame hpast
  | account =>
    refine Moved.write rfl rfl hattempt hsame rfl hpast (fun a ha => .inl (mem_filter.1 ha).1)
      fun a ha _ => ?_
    by_cases hid : a.id = t.account
    · exact .inr ⟨t, rfl, hid⟩
    · exact .inl (mem_deleteAccount ha hid)
  | claim => exact Moved.finish t.record .failed rfl hattempt hsame hpast

lemma advance_moved (hclear : p.clear e s = true) (h : advance lower e s p = some (s', p')) :
    Moved s s' p p' := by
  cases p with
  | checking input =>
    refine moved_apply (some.inj h) (fun _ => ?_)
      (fun _ => Moved.quiet rfl rfl le_rfl rfl (Phase.none_of_holds rfl) rfl)
      (fun _ => Moved.quiet rfl rfl le_rfl rfl (Phase.none_of_holds rfl) rfl)
    split_ifs
    · exact Moved.quiet rfl rfl le_rfl rfl (Phase.none_of_holds rfl) rfl
    · exact Moved.quiet rfl rfl le_rfl rfl (Phase.none_of_holds rfl) rfl
  | preparing input =>
    cases h
    split_ifs
    · exact Moved.quiet rfl rfl le_rfl rfl (Phase.none_of_holds rfl) rfl
    · cases e.prepared.bind (identity lower input) with
      | none | some => exact Moved.quiet rfl rfl le_rfl rfl (Phase.none_of_holds rfl) rfl
  | acquiring owner =>
    have h := some.inj h
    cases hset : setIfAbsent e.storeNow s.claim (⟨s.next, .pending, e.now, e.now⟩ : Claim) with
    | none =>
      rw [hset] at h
      refine moved_apply h (fun _ => ?_) (fun _ => Moved.quiet rfl rfl le_rfl rfl (Phase.none_of_holds rfl) rfl)
        (fun _ => Moved.quiet rfl rfl (Nat.le_succ _) rfl (Phase.none_of_holds rfl) rfl)
      cases hclaim : s.claim with
      | none => exact Moved.quiet hclaim.symm rfl (Nat.le_succ _) rfl (Phase.none_of_holds rfl) rfl
      | some existing =>
        dsimp only [elim_some]
        split_ifs
        · exact Moved.quiet hclaim.symm rfl (Nat.le_succ _) rfl (Phase.none_of_holds rfl) rfl
        · exact Moved.quiet hclaim.symm rfl (Nat.le_succ _) rfl (Phase.none_of_holds rfl) rfl
        · exact Moved.quiet hclaim.symm rfl (Nat.le_succ _) rfl (Phase.none_of_holds rfl) rfl
    | some record =>
      rw [hset] at h
      obtain ⟨hnone, -⟩ := setIfAbsent_eq_some hset
      have htake := fun hfault : e.fault ≠ .before =>
        Moved.take (p := .acquiring owner) (s := s) rfl rfl owner record 1
          (by simpa [Phase.clear, hnone, hfault] using hclear) (fun c hc => by cases hnone.symm.trans hc)
      exact moved_apply h (fun hfault => (htake (by rw [hfault]; decide)).1)
        (fun _ => Moved.quiet rfl rfl le_rfl rfl (Phase.none_of_holds rfl) rfl)
        (fun hfault => (htake (by rw [hfault]; decide)).2)
  | taking owner claim expectedUpdatedAt =>
    have h := some.inj h
    by_cases hexpected : SystemStore.isExpected s.claim expectedUpdatedAt (none : Option Claim) = true
    · rw [SystemStore.compareAndSetRecord, if_pos hexpected] at h
      have htake := fun hfault : e.fault ≠ .before =>
        Moved.take (p := .taking owner claim expectedUpdatedAt) (s := s) rfl rfl owner
          (setRecord e.storeNow s.claim claim) 0 (by simpa [Phase.clear, hexpected, hfault] using hclear)
          (fun c hc => by rw [hc]; exact updatedAt_lt_setRecord)
      exact moved_apply h (fun hfault => (htake (by rw [hfault]; decide)).1)
        (fun _ => Moved.quiet rfl rfl le_rfl rfl (Phase.none_of_holds rfl) rfl)
        (fun hfault => (htake (by rw [hfault]; decide)).2)
    · rw [SystemStore.compareAndSetRecord, if_neg hexpected] at h
      cases h
      exact Moved.quiet rfl rfl le_rfl rfl (Phase.none_of_holds rfl) rfl
  | listing t =>
    refine moved_apply (some.inj h)
      (fun _ => Moved.quiet rfl rfl le_rfl (attempt_clean t _) (fun r hr => ?_) (past_clean t _))
      (fun _ => Moved.quiet rfl rfl le_rfl rfl (fun r hr => hr) rfl)
      (fun _ => Moved.quiet rfl rfl le_rfl rfl (fun r hr => hr) rfl)
    rw [holds_clean] at hr
    exact hr
  | cleaning t id ids chore =>
    obtain ⟨hattempt, hholds, hpast⟩ := Chore.next_phase s t id ids chore
    exact moved_apply (some.inj h)
      (fun hfault => Chore.moved hattempt hholds hpast hclear (by rw [hfault]; decide))
      (fun _ => Moved.quiet rfl rfl le_rfl rfl (fun r hr => hr) rfl)
      (fun hfault => Chore.moved rfl rfl rfl hclear (by rw [hfault]; decide))
  | creating t =>
    have hwrite : ∀ p' : Phase, p'.attempt = some t → p'.holds = some t.record → p'.past = false →
        Moved s (s.setAccount (t.toAccount true)) (.creating t) p' := by
      intro p' hattempt hholds hpast
      refine Moved.write rfl rfl hattempt (fun r hr => hholds.symm.trans hr) rfl hpast (fun a ha => ?_) fun a ha _ => ?_
      · obtain ha | rfl := mem_setAccount ha
        · exact .inl ha
        · exact .inr ⟨t, rfl, rfl, rfl⟩
      · by_cases hid : a.id = t.account
        · exact .inr ⟨t, rfl, hid⟩
        · exact .inl (mem_setAccount_of_ne ha hid)
    exact moved_apply (some.inj h) (fun _ => hwrite _ rfl rfl rfl)
      (fun _ => Moved.quiet rfl rfl le_rfl rfl (fun r hr => hr) rfl) (fun _ => hwrite _ rfl rfl rfl)
  | enrolling t =>
    exact moved_apply (some.inj h) (fun _ => Moved.quiet rfl rfl le_rfl rfl (fun r hr => hr) rfl)
      (fun _ => Moved.quiet rfl rfl le_rfl rfl (fun r hr => hr) rfl)
      (fun _ => Moved.quiet rfl rfl le_rfl rfl (fun r hr => hr) rfl)
  | completing t =>
    simp only [Phase.clear, Bool.or_eq_true, Bool.and_eq_true, decide_eq_true_eq] at hclear
    refine moved_apply (some.inj h) (fun hfault => ?_)
      (fun _ => Moved.quiet rfl rfl le_rfl rfl (fun r hr => hr) rfl) (fun hfault => ?_)
    · obtain hbefore | ⟨hown, -⟩ := hclear
      · rw [hfault] at hbefore
        cases hbefore
      · refine ⟨le_rfl, .inl rfl, fun r hr => .inl hr, .inl rfl, fun a ha => ?_, fun a ha _ => ?_,
          (fun h => by cases h), fun _ => .inr ⟨t, rfl, rfl, rfl, hown, rfl, mem_append_right _ (mem_singleton_self _)⟩⟩
        · obtain ha | rfl := mem_setAccount ha
          · exact .inl ha
          · exact .inr ⟨t, rfl, rfl, .inr rfl⟩
        · by_cases hid : a.id = t.account
          · exact .inr ⟨t, rfl, hid, rfl⟩
          · exact .inl (mem_setAccount_of_ne ha hid)
    · rw [hfault] at hclear
      obtain hbefore | ⟨-, hnone⟩ := hclear
      · cases hbefore
      · cases hnone
  | opening t =>
    have hfault : e.fault = .none := of_decide_eq_true hclear
    refine moved_apply (some.inj h) (fun _ => Moved.quiet rfl rfl (Nat.le_succ _) rfl (fun r hr => hr) rfl)
      (fun h => ?_) (fun h => ?_)
    · cases hfault.symm.trans h
    · cases hfault.symm.trans h
  | finishing t session =>
    have hfault : e.fault = .none := of_decide_eq_true hclear
    refine moved_apply (some.inj h)
      (fun _ => Moved.finish t.record .complete rfl rfl (Phase.none_of_holds rfl) rfl)
      (fun h => ?_) (fun h => ?_)
    · cases hfault.symm.trans h
    · cases hfault.symm.trans h
  | undoing t todo =>
    cases todo with
    | nil =>
      cases h
      exact Moved.quiet rfl rfl le_rfl rfl (Phase.none_of_holds rfl) rfl
    | cons undo todo =>
      refine moved_apply (some.inj h) (fun _ => ?_)
        (fun _ => Moved.quiet rfl rfl le_rfl rfl (Phase.none_of_holds rfl) rfl)
        (fun _ => Undo.moved rfl (Phase.none_of_holds rfl) rfl)
      split_ifs
      · exact Undo.moved rfl (Phase.none_of_holds rfl) rfl
      · exact Undo.moved rfl (fun r hr => (some.inj hr).symm) rfl
  | succeeded | failed | refused => cases h
/-! ## One turn -/

/-- What holds of a world. -/
structure Good (w : World Shared Phase) : Prop where
  accounts : ∀ a ∈ w.shared.accounts, a.id < w.shared.next
  drawn : ∀ p ∈ w.parties, ∀ t, p.attempt = some t → t.account < w.shared.next
  apart : ∀ {k k' : ℕ} {p p' : Phase} {t t' : Attempt}, w.parties[k]? = some p → w.parties[k']? = some p' →
    p.attempt = some t → p'.attempt = some t' → t.account = t'.account → k = k'
  held : ∀ p ∈ w.parties, ∀ r, p.holds = some r → ∃ c, w.shared.claim = some c ∧ r.updatedAt ≤ c.updatedAt ∧
    (r.updatedAt = c.updatedAt → c = r)
  claims : ∀ {k k' : ℕ} {p p' : Phase} {r r' : Versioned Claim}, w.parties[k]? = some p →
    w.parties[k']? = some p' → p.holds = some r → p'.holds = some r' → r.updatedAt = r'.updatedAt → k = k'
  pending : ∀ p ∈ w.parties, ∀ t, p.attempt = some t → p.past = false → ∀ a ∈ w.shared.accounts,
    a.id = t.account → a.pending = true

variable {w : World Shared Phase}

lemma Good.older (hw : Good w) {record r : Versioned Claim}
    (hnewer : w.shared.Newer record) (hq : q ∈ w.parties) (hr : q.holds = some r) :
    r.updatedAt < record.updatedAt := by
  obtain ⟨c, hc, hle, -⟩ := hw.held q hq r hr
  exact hle.trans_lt (hnewer c hc)

variable {k : ℕ}

lemma Moved.good (hw : Good w) (hp : w.parties[k]? = some p)
    (h : Moved w.shared s' p p') : Good ⟨s', w.parties.set k p'⟩ := by
  have hmem := mem_of_getElem? hp
  -- what is claimed now is another's only if it was before
  have hclaim : ∀ (j : ℕ) (q : Phase) (r : Versioned Claim), w.parties[j]? = some q → q.holds = some r →
      ∀ r', p'.holds = some r' → r.updatedAt = r'.updatedAt → j = k := by
    intro j q r hq hr r' hr' hsame
    obtain hold | ⟨-, hnewer⟩ := h.holds r' hr'
    · exact hw.claims hq hp hr hold hsame
    · exact absurd hsame (hw.older hnewer (mem_of_getElem? hq) hr).ne
  have hdrawn : ∀ (j : ℕ) (q : Phase) (t : Attempt), w.parties[j]? = some q → q.attempt = some t →
      ∀ t', p'.attempt = some t' → t.account = t'.account → j = k := by
    intro j q t hq ht t' ht' hsame
    obtain heq | ⟨-, t₁, ht₁, hnext, -⟩ := h.attempt
    · exact hw.apart hq hp ht (heq ▸ ht') hsame
    · cases ht₁.symm.trans ht'
      exact absurd (hw.drawn q (mem_of_getElem? hq) t ht) (by rw [hsame]; exact not_lt.2 hnext)
  have hheld : ∀ r : Versioned Claim, (∃ c, w.shared.claim = some c ∧ r.updatedAt ≤ c.updatedAt ∧
      (r.updatedAt = c.updatedAt → c = r)) → ∃ c, s'.claim = some c ∧ r.updatedAt ≤ c.updatedAt ∧
      (r.updatedAt = c.updatedAt → c = r) := by
    intro r hr
    obtain ⟨c, hc, hle, heq⟩ := hr
    obtain hsame | ⟨c', hc', hnewer, -⟩ := h.claim
    · exact ⟨c, hsame.trans hc, hle, heq⟩
    · have hlt := hle.trans_lt (hnewer c hc)
      exact ⟨c', hc', hlt.le, fun hsame => absurd hsame hlt.ne⟩
  have hown : ∀ t, p'.attempt = some t → t.account < s'.next := by
    intro t ht
    obtain heq | ⟨-, t', ht', -, hlt⟩ := h.attempt
    · exact (hw.drawn p hmem t (heq ▸ ht)).trans_le h.next
    · cases ht'.symm.trans ht
      exact hlt
  refine ⟨fun a ha => ?_, fun q hq t ht => ?_, fun {j j' q q' t t'} hj hj' ht ht' hsame => ?_,
    fun q hq r hr => ?_, fun {j j' q q' r r'} hj hj' hr hr' hsame => ?_, fun q hq t ht hpast a ha hid => ?_⟩
  · obtain ha | ⟨t, ht, hid, -⟩ := h.accounts a ha
    · exact (hw.accounts a ha).trans_le h.next
    · rw [hid]
      exact hown t ht
  · obtain ⟨j, hj⟩ := mem_iff_getElem?.1 hq
    obtain ⟨-, rfl⟩ | ⟨-, hold⟩ := getElem?_set_cases hj
    · exact hown t ht
    · exact (hw.drawn q (mem_of_getElem? hold) t ht).trans_le h.next
  · obtain ⟨hjk, rfl⟩ | ⟨-, hold⟩ := getElem?_set_cases hj
    · obtain ⟨hjk', -⟩ | ⟨-, hold'⟩ := getElem?_set_cases hj'
      · exact hjk.trans hjk'.symm
      · exact hjk.trans (hdrawn j' q' t' hold' ht' t ht hsame.symm).symm
    · obtain ⟨hjk', rfl⟩ | ⟨-, hold'⟩ := getElem?_set_cases hj'
      · exact (hdrawn j q t hold ht t' ht' hsame).trans hjk'.symm
      · exact hw.apart hold hold' ht ht' hsame
  · obtain ⟨j, hj⟩ := mem_iff_getElem?.1 hq
    obtain ⟨-, rfl⟩ | ⟨-, hold⟩ := getElem?_set_cases hj
    · obtain hold | ⟨hnew, -⟩ := h.holds r hr
      · exact hheld r (hw.held p hmem r hold)
      · exact ⟨r, hnew, le_rfl, fun _ => rfl⟩
    · exact hheld r (hw.held q (mem_of_getElem? hold) r hr)
  · obtain ⟨hjk, rfl⟩ | ⟨-, hold⟩ := getElem?_set_cases hj
    · obtain ⟨hjk', -⟩ | ⟨-, hold'⟩ := getElem?_set_cases hj'
      · exact hjk.trans hjk'.symm
      · exact hjk.trans (hclaim j' q' r' hold' hr' r hr hsame.symm).symm
    · obtain ⟨hjk', rfl⟩ | ⟨-, hold'⟩ := getElem?_set_cases hj'
      · exact (hclaim j q r hold hr r' hr' hsame).trans hjk'.symm
      · exact hw.claims hold hold' hr hr' hsame
  · obtain ⟨j, hj⟩ := mem_iff_getElem?.1 hq
    obtain ⟨-, rfl⟩ | ⟨hjk, hold⟩ := getElem?_set_cases hj
    · have hnot : p.past = false := by
        by_contra hpast'
        rw [h.stays ((Bool.not_eq_false _).mp hpast')] at hpast
        cases hpast
      obtain ha | ⟨-, -, -, hpending | hpast'⟩ := h.accounts a ha
      · obtain heq | ⟨-, t', ht', hnext, -⟩ := h.attempt
        · exact hw.pending p hmem t (heq ▸ ht) hnot a ha hid
        · cases ht'.symm.trans ht
          exact absurd (hw.accounts a ha) (by rw [hid]; exact not_lt.2 hnext)
      · exact hpending
      · rw [hpast'] at hpast
        cases hpast
    · obtain ha | ⟨t', ht', hid', -⟩ := h.accounts a ha
      · exact hw.pending q (mem_of_getElem? hold) t ht hpast a ha hid
      · exact absurd (hdrawn j q t hold ht t' ht' (hid.symm.trans hid')) hjk

lemma attempt_of_isStart (h : p.isStart = true) : p.attempt = none ∧ p.holds = none ∧ p.past = false := by
  cases p with
  | checking input => exact ⟨rfl, rfl, rfl⟩
  | _ => cases h

lemma Good.begin (hw : Good w) (hb : q.isStart = true) : Good { w with parties := w.parties ++ [q] } := by
  obtain ⟨hattempt, hholds, -⟩ := attempt_of_isStart hb
  have hold : ∀ {j : ℕ} {p : Phase} {t : Attempt}, (w.parties ++ [q])[j]? = some p → p.attempt = some t →
      w.parties[j]? = some p := by
    intro j p t hj ht
    obtain hj | rfl := getElem?_append_cases hj
    · exact hj
    · rw [hattempt] at ht
      cases ht
  have hold' : ∀ {j : ℕ} {p : Phase} {r : Versioned Claim}, (w.parties ++ [q])[j]? = some p →
      p.holds = some r → w.parties[j]? = some p := by
    intro j p r hj hr
    obtain hj | rfl := getElem?_append_cases hj
    · exact hj
    · rw [hholds] at hr
      cases hr
  refine ⟨hw.accounts, fun p hp t ht => ?_, fun hj hj' ht ht' => hw.apart (hold hj ht) (hold hj' ht') ht ht',
    fun p hp r hr => ?_, fun hj hj' hr hr' => hw.claims (hold' hj hr) (hold' hj' hr') hr hr',
    fun p hp t ht => ?_⟩
  · obtain ⟨j, hj⟩ := mem_iff_getElem?.1 hp
    exact hw.drawn p (mem_of_getElem? (hold hj ht)) t ht
  · obtain ⟨j, hj⟩ := mem_iff_getElem?.1 hp
    exact hw.held p (mem_of_getElem? (hold' hj hr)) r hr
  · obtain ⟨j, hj⟩ := mem_iff_getElem?.1 hp
    exact hw.pending p (mem_of_getElem? (hold hj ht)) t ht

lemma good_play {w w' : World Shared Phase} {turn : Turn Phase Event Empty}
    (hplay : (attempts lower).play w turn = some w') (hclear : clear w turn = true) (hw : Good w) : Good w' := by
  obtain ⟨-, rfl⟩ | ⟨party, -, hb, rfl⟩ | ⟨k, e, p, s', p', rfl, hp, hmove, rfl⟩ | ⟨event, -⟩ :=
    Rules.play_cases hplay
  · exact hw
  · exact hw.begin hb
  · rw [clear, hp, all_some] at hclear
    exact (advance_moved hclear hmove).good hw hp
  · exact event.elim

/-! ## One attempt completes its account -/

/-- A completed account is stored that is of no attempt that has not completed its own, and none that has not
holds the claim that is stored. -/
def Gone (w : World Shared Phase) : Prop :=
  (∃ a ∈ w.shared.accounts, a.pending = false ∧
    ∀ p ∈ w.parties, ∀ t, p.attempt = some t → a.id = t.account → p.past = true) ∧
  ∀ p ∈ w.parties, ∀ r, p.holds = some r → w.shared.claim = some r → p.past = true

lemma Moved.gone (hw : Good w) (hp : w.parties[k]? = some p)
    (h : Moved w.shared s' p p') (hgone : Gone w) : Gone ⟨s', w.parties.set k p'⟩ := by
  obtain ⟨⟨a, ha, hcompleted, hof⟩, hholders⟩ := hgone
  have hmem := mem_of_getElem? hp
  refine ⟨⟨a, ?_, hcompleted, fun q hq t ht hid => ?_⟩, fun q hq r hr hc => ?_⟩
  · obtain ha' | ⟨t, ht, hid, hnot⟩ := h.kept a ha hcompleted
    · exact ha'
    · rw [hof p hmem t ht hid] at hnot
      cases hnot
  · obtain ⟨j, hj⟩ := mem_iff_getElem?.1 hq
    obtain ⟨-, rfl⟩ | ⟨-, hold⟩ := getElem?_set_cases hj
    · obtain heq | ⟨-, t', ht', hnext, -⟩ := h.attempt
      · exact h.stays (hof p hmem t (heq ▸ ht) hid)
      · cases ht'.symm.trans ht
        exact absurd (hw.accounts a ha) (by rw [hid]; exact not_lt.2 hnext)
    · exact hof q (mem_of_getElem? hold) t ht hid
  · -- the claim is left, since it is taken only while no completed account is stored
    have hsame : ∀ q ∈ w.parties, q.holds = some r → q.past = true := by
      intro q hq hr
      obtain hsame | ⟨c', hc', hnewer, -⟩ := h.claim
      · exact hholders q hq r hr (hsame.symm.trans hc)
      · cases hc'.symm.trans hc
        exact absurd (hw.older hnewer hq hr) (lt_irrefl _)
    obtain ⟨j, hj⟩ := mem_iff_getElem?.1 hq
    obtain ⟨-, rfl⟩ | ⟨-, hold⟩ := getElem?_set_cases hj
    · obtain hold | ⟨hnew, hnewer⟩ := h.holds r hr
      · exact h.stays (hsame p hmem hold)
      · obtain hsame' | ⟨c', -, -, hvacant | ⟨r', c, hr', hc₁, hupdated⟩⟩ := h.claim
        · exact absurd (hnewer r (hsame'.symm.trans hnew)) (lt_irrefl _)
        · rw [Shared.vacant, List.all_eq_true] at hvacant
          rw [hvacant a ha] at hcompleted
          cases hcompleted
        · obtain ⟨c₂, hc₂, -, heq⟩ := hw.held p hmem r' hr'
          cases hc₁.symm.trans hc₂
          exact h.stays (hholders p hmem r' hr' (heq hupdated.symm ▸ hc₁))
    · exact hsame q (mem_of_getElem? hold) hr

lemma Moved.completed (hw : Good w) (hp : w.parties[k]? = some p)
    (h : Moved w.shared s' p p') (hpast : p.past = false) (hpast' : p'.past = true) :
    ¬Gone w ∧ Gone ⟨s', w.parties.set k p'⟩ := by
  have hw' := h.good hw hp
  have hlt : k < w.parties.length := (List.getElem?_eq_some_iff.1 hp).1
  have hself : (w.parties.set k p')[k]? = some p' := List.getElem?_set_self hlt
  obtain hthis | ⟨t, ht, ht', hholds, hown, hclaim, hmem⟩ := h.completes hpast'
  · rw [hpast] at hthis
    cases hthis
  refine ⟨fun hgone => ?_, ⟨_, hmem, rfl, fun q hq t' hq' hid => ?_⟩, fun q hq r hr hc => ?_⟩
  · rw [hgone.2 p (mem_of_getElem? hp) t.record hholds hown] at hpast
    cases hpast
  · obtain ⟨j, hj⟩ := mem_iff_getElem?.1 hq
    obtain rfl := hw'.apart hj hself hq' ht' hid.symm
    cases hj.symm.trans hself
    exact hpast'
  · obtain ⟨j, hj⟩ := mem_iff_getElem?.1 hq
    obtain ⟨-, rfl⟩ | ⟨hjk, hold⟩ := getElem?_set_cases hj
    · exact hpast'
    · have heq : r = t.record := some.inj (hc.symm.trans (hclaim.trans hown))
      subst heq
      exact absurd (hw.claims hold hp hr hholds rfl) hjk

section

variable (run : Run (attempts lower))

lemma good_of_clear (hstart : (run.world 0).parties = [])
    (haccounts : ∀ a ∈ (run.world 0).shared.accounts, a.id < (run.world 0).shared.next)
    (hclear : ∀ i, clear (run.world i) (run.turn i) = true) (i : ℕ) : Good (run.world i) := by
  have hnone : ∀ p, p ∉ (run.world 0).parties := by
    intro p hp
    rw [hstart] at hp
    cases hp
  exact run.kept (Q := Good) (fun i h => good_play (run.plays i) (hclear i) h)
    ⟨haccounts, fun p hp => absurd hp (hnone p), fun hp => absurd (mem_of_getElem? hp) (hnone _),
      fun p hp => absurd hp (hnone p), fun hp => absurd (mem_of_getElem? hp) (hnone _),
      fun p hp => absurd hp (hnone p)⟩ (Nat.zero_le i)

lemma past_once (hstart : (run.world 0).parties = []) (hgood : ∀ i, Good (run.world i))
    (hclear : ∀ i, clear (run.world i) (run.turn i) = true) {i j k k' : ℕ}
    (hp : (run.world i).parties[k]? = some p) (hq : (run.world j).parties[k']? = some q)
    (hpast : p.past = true) (hpast' : q.past = true) : k = k' := by
  have hmoved : ∀ {i k : ℕ} {e : Event} {p p' : Phase} {s' : Shared}, run.turn i = .move k e →
      (run.world i).parties[k]? = some p → advance lower e (run.world i).shared p = some (s', p') →
      Moved (run.world i).shared s' p p' := by
    intro i k e p p' s' hturn hp hmove
    have hthis := hclear i
    rw [hturn, clear, hp, all_some] at hthis
    exact advance_moved hthis hmove
  have hplayed : ∀ {i k : ℕ} {e : Event} {p p' : Phase} {s' : Shared}, run.turn i = .move k e →
      (run.world i).parties[k]? = some p → advance lower e (run.world i).shared p = some (s', p') →
      run.world (i + 1) = ⟨s', (run.world i).parties.set k p'⟩ := by
    intro i k e p p' s' hturn hp hmove
    have hplay := run.plays i
    rw [hturn, Rules.play, hp, bind_some] at hplay
    obtain ⟨next, hnext, hw⟩ := map_eq_some_iff.1 hplay
    cases hnext.symm.trans hmove
    exact hw.symm
  refine run.passed_once Phase.past (fun w => ¬Gone w) Gone hstart
    (fun q hb => (attempt_of_isStart hb).2.2) (fun i k e p q hturn hp hmove hnot hpassed => ?_)
    (fun i hgone => ?_) (fun w hnot hgone => hnot hgone) hp hpast hq hpast'
  · obtain ⟨hnot', hgone⟩ := (hmoved hturn hp hmove).completed (hgood i) hp hnot hpassed
    rw [hplayed hturn hp hmove]
    exact ⟨hnot', hgone⟩
  · obtain ⟨-, hw⟩ | ⟨party, -, hb, hw⟩ | ⟨k, e, p, s', p', hturn, hp, hmove, hw⟩ | ⟨event, -⟩ :=
      Rules.play_cases (run.plays i)
    · rw [hw]
      exact hgone
    · obtain ⟨hattempt, hholds, -⟩ := attempt_of_isStart hb
      obtain ⟨⟨a, ha, hcompleted, hof⟩, hholders⟩ := hgone
      rw [hw]
      refine ⟨⟨a, ha, hcompleted, fun q hq t ht hid => ?_⟩, fun q hq r hr hc => ?_⟩
      · obtain hq | hq := mem_append.1 hq
        · exact hof q hq t ht hid
        · rw [mem_singleton.1 hq, hattempt] at ht
          cases ht
      · obtain hq | hq := mem_append.1 hq
        · exact hholders q hq r hr hc
        · rw [mem_singleton.1 hq, hholds] at hr
          cases hr
    · rw [hw]
      exact (hmoved hturn hp hmove).gone (hgood i) hp hgone
    · exact event.elim

lemma attempt_kept (hclear : ∀ i, clear (run.world i) (run.turn i) = true) {i j k : ℕ} (hij : i ≤ j)
    (hp : (run.world i).parties[k]? = some p) (ht : p.attempt = some t) :
    ∃ q, (run.world j).parties[k]? = some q ∧ q.attempt = some t := by
  induction j, hij using Nat.le_induction with
  | base => exact ⟨p, hp, ht⟩
  | succ j _ ih =>
    obtain ⟨q, hq, ht⟩ := ih
    obtain hsame | ⟨e, q', hturn, hq', hmove⟩ := Rules.play_stays (run.plays j) hq
    · exact ⟨q, hsame, ht⟩
    · have hthis := hclear j
      rw [hturn, clear, hq, all_some] at hthis
      obtain heq | ⟨hnone, -⟩ := (advance_moved hthis hmove).attempt
      · exact ⟨q', hq', heq.trans ht⟩
      · rw [ht] at hnone
        cases hnone

end
/-! ## There is one first owner -/

/-- What any number of attempts come to, at all moments. -/
structure Once (run : Run (attempts lower)) : Prop where
  succeeded : ∀ {i j k k' : ℕ} {t t' : Attempt} {session session' : ℕ},
    (run.world i).parties[k]? = some (.succeeded t session) →
    (run.world j).parties[k']? = some (.succeeded t' session') → k = k'
  owner : ∀ {i j k k' : ℕ} {p p' : Phase} {t t' : Attempt} {a a' : Account},
    (run.world i).parties[k]? = some p → (run.world j).parties[k']? = some p' → p.attempt = some t →
    p'.attempt = some t' → a ∈ (run.world i).shared.accounts → a' ∈ (run.world j).shared.accounts →
    a.id = t.account → a'.id = t'.account → a.pending = false → a'.pending = false → k = k' ∧ a.id = a'.id

/-- Where a claim is taken only while no completed account is stored, an account is completed only while the
claim that is stored is its own, no completed account is cleaned up, and no call fails once the account is
completed, there is one first owner. -/
theorem bootstrapped_once (run : Run (attempts lower)) (hstart : (run.world 0).parties = [])
    (haccounts : ∀ a ∈ (run.world 0).shared.accounts, a.id < (run.world 0).shared.next)
    (hclear : ∀ i, clear (run.world i) (run.turn i) = true) : Once run := by
  have hgood := good_of_clear run hstart haccounts hclear
  have hpast : ∀ {i k : ℕ} {p : Phase} {t : Attempt} {a : Account}, (run.world i).parties[k]? = some p →
      p.attempt = some t → a ∈ (run.world i).shared.accounts → a.id = t.account → a.pending = false →
      p.past = true := by
    intro i k p t a hp ht ha hid hcompleted
    by_contra hnot
    rw [(hgood i).pending p (List.mem_of_getElem? hp) t ht ((Bool.not_eq_true _).mp hnot) a ha hid] at hcompleted
    cases hcompleted
  have hsame : ∀ {i j k : ℕ} {p p' : Phase} {t t' : Attempt}, i ≤ j → (run.world i).parties[k]? = some p →
      (run.world j).parties[k]? = some p' → p.attempt = some t → p'.attempt = some t' → t = t' := by
    intro i j k p p' t t' hij hp hp' ht ht'
    obtain ⟨q, hq, htq⟩ := attempt_kept run hclear hij hp ht
    cases hq.symm.trans hp'
    exact Option.some.inj (htq.symm.trans ht')
  refine ⟨fun hp hq => past_once run hstart hgood hclear hp hq rfl rfl,
    fun {i j k k' p p' t t' a a'} hp hp' ht ht' ha ha' hid hid' hcompleted hcompleted' => ?_⟩
  obtain rfl := past_once run hstart hgood hclear hp hp' (hpast hp ht ha hid hcompleted)
    (hpast hp' ht' ha' hid' hcompleted')
  refine ⟨rfl, ?_⟩
  obtain hij | hji := Nat.le_total i j
  · rw [hid, hid', hsame hij hp hp' ht ht']
  · rw [hid, hid', hsame hji hp' hp ht' ht]

/-! ## An attempt that outlives its claim -/

/-- An attempt is given a number of turns, at a moment; what the provider has prepared names the owner. -/
def given (k now : ℕ) (email : String) (n : ℕ) : List (Turn Phase Event Empty) :=
  List.replicate n (.move k ⟨.none, now, now, some ⟨utf16 email, some (utf16 email), none⟩⟩)

def attempt : Turn Phase Event Empty := .begin (.checking ⟨utf16 "email-password", none, none⟩)

def nothing : World Shared Phase := ⟨⟨none, [], [], [], 0⟩, []⟩

/-- One attempt crashes with a pending account; another takes over when its claim is no longer honoured, and
succeeds, and a third is refused. -/
def takenOver : List (Turn Phase Event Empty) :=
  [attempt] ++ given 0 0 "a" 6 ++ [attempt] ++ given 1 leaseMs "b" 14 ++ [attempt] ++ given 2 leaseMs "c" 1

def outlived : List (Turn Phase Event Empty) :=
  [attempt] ++ given 0 0 "a" 6 ++ [attempt] ++ given 1 leaseMs "b" 14 ++ given 0 leaseMs "a" 3

def takenOverRun : Run (attempts fun text => text) :=
  (attempts fun text => text).replay nothing takenOver (by decide +kernel)

def outlivedRun : Run (attempts fun text => text) :=
  (attempts fun text => text).replay nothing outlived (by decide +kernel)

theorem bootstrapped_once_takenOver : Once takenOverRun :=
  bootstrapped_once takenOverRun rfl (fun _ ha => by cases ha) (Rules.replay_all (fun _ => rfl) (by decide +kernel))

lemma succeeded_of_any (h : (w.parties[k]?.any fun p => p.past && p.holds.isNone) = true) :
    ∃ t session, w.parties[k]? = some (.succeeded t session) := by
  obtain ⟨p, hp⟩ := isSome_iff_exists.1 (isSome_of_any h)
  rw [hp, any_some, Bool.and_eq_true] at h
  cases p with
  | succeeded t session => exact ⟨t, session, hp⟩
  | opening | finishing => cases h.2
  | _ => cases h.1

/-- Both succeed. -/
theorem not_bootstrapped_once : ¬∀ (lower : Utf16 → Utf16) (run : Run (attempts lower)),
    (run.world 0).parties = [] →
    (∀ a ∈ (run.world 0).shared.accounts, a.id < (run.world 0).shared.next) → Once run := by
  intro h
  obtain ⟨t, session, hone⟩ := @succeeded_of_any (outlivedRun.world 25) 0 (by decide +kernel)
  obtain ⟨t', session', htwo⟩ := @succeeded_of_any (outlivedRun.world 25) 1 (by decide +kernel)
  exact absurd ((h _ outlivedRun rfl (fun _ ha => by cases ha)).succeeded hone htwo) (by decide)

end Zelavis.Platform.Bootstrap
