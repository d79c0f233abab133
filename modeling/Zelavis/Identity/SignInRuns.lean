import Zelavis.Identity.SignIn

/-!
# What signing in leaves

Over every run of `Zelavis.Identity.SignIn` whose turns are clear.
-/

namespace Zelavis.Identity.SignIn

open Lib Turns UniqueClaims List Option

/-! ## The creation and the deletion of a record -/

section

variable {α : Type} {names : Named α} {s s' : Store α} {q q' : UniqueClaims.Phase α} {record : α} {id : ℕ}
  {e : UniqueClaims.Event}

/-- Where the creation of a record is: the record is stored exactly where it is over and was done. -/
def Creating (names : Named α) (s : Store α) (record : α) (q : UniqueClaims.Phase α) : Prop :=
  (s.records (names.id record) = none ∧ ((∃ c, q = .creating record c) ∨ q = .inserting record ∨
    (∃ keys error, q = .releasing (names.id record) keys (.failed error)) ∨
    ∃ error, q = .ended (names.id record) (.failed error))) ∨
  (s.records (names.id record) = some ⟨1, record⟩ ∧ q = .ended (names.id record) .done)

lemma next_records (c : Claiming) (owner now : ℕ) (s : Store α) :
    (c.next owner now s).1.records = s.records := by
  obtain ⟨claimed, todo, stage⟩ := c
  cases todo with
  | nil => rfl
  | cons unique todo =>
    cases stage with
    | claim =>
      simp only [Claiming.next]
      split
      · rfl
      · split_ifs <;> rfl
    | orphan | takeover =>
      simp only [Claiming.next]
      split_ifs <;> rfl

lemma Creating.next (h : Creating names s record q) (hmove : UniqueClaims.advance names e s q = some (s', q')) :
    Creating names s' record q' ∧ (∀ id ≠ names.id record, s'.records id = s.records id) ∧
      (s'.records (names.id record) = s.records (names.id record) ∨
        s.records (names.id record) = none ∧ s'.records (names.id record) = some ⟨1, record⟩) := by
  obtain ⟨hnone, ⟨c, rfl⟩ | rfl | ⟨keys, error, rfl⟩ | ⟨error, rfl⟩⟩ | ⟨hsome, rfl⟩ := h
  · cases hmove
    have hrecords := next_records c (names.id record) e.now s
    refine ⟨.inl ⟨by rw [hrecords, hnone], ?_⟩, fun id _ => congrFun hrecords id, .inl (congrFun hrecords _)⟩
    cases (c.next (names.id record) e.now s).2 with
    | going next => exact .inl ⟨next, rfl⟩
    | all => exact .inr (.inl rfl)
    | refused error => exact .inr (.inr (.inl ⟨c.claimed, error, rfl⟩))
  · simp only [UniqueClaims.advance, hnone, Option.some.injEq, Prod.mk.injEq] at hmove
    obtain ⟨rfl, rfl⟩ := hmove
    have hstored : (s.setRecord (names.id record) (some ⟨1, record⟩)).records (names.id record) =
        some ⟨1, record⟩ := Function.update_self _ _ _
    exact ⟨.inr ⟨hstored, rfl⟩, fun id hid => Function.update_of_ne hid _ _, .inr ⟨hnone, hstored⟩⟩
  · cases keys with
    | nil =>
      cases hmove
      exact ⟨.inl ⟨hnone, .inr (.inr (.inr ⟨error, rfl⟩))⟩, fun _ _ => rfl, .inl rfl⟩
    | cons unique keys =>
      obtain ⟨u, -, heq⟩ := map_eq_some_iff.1 hmove
      cases heq
      have hrecords := records_release s u.key (names.id record)
      exact ⟨.inl ⟨by rw [hrecords, hnone], .inr (.inr (.inl ⟨_, error, rfl⟩))⟩,
        fun id _ => congrFun hrecords id, .inl (congrFun hrecords _)⟩
  · cases hmove
  · cases hmove

lemma Creating.start (hnone : s.records (names.id record) = none) :
    Creating names s record (.creating record (.start (names.keys record))) := .inl ⟨hnone, .inl ⟨_, rfl⟩⟩

lemma Creating.of_eq (h : Creating names s record q)
    (heq : s'.records (names.id record) = s.records (names.id record)) : Creating names s' record q := by
  rw [Creating, heq]
  exact h

/-- Where the deletion of a record is: it is gone before its names are released. -/
def Removing (s : Store α) (id : ℕ) (q : UniqueClaims.Phase α) : Prop :=
  q = .removing id ∨ (∃ before, q = .deleting id before) ∨
    (s.records id = none ∧ ((∃ keys, q = .releasing id keys .done) ∨ q = .ended id .done))

lemma Removing.next (h : Removing s id q) (hmove : UniqueClaims.advance names e s q = some (s', q')) :
    Removing s' id q' ∧ ∀ id' ≠ id, s'.records id' = s.records id' := by
  obtain rfl | ⟨before, rfl⟩ | ⟨hnone, ⟨keys, rfl⟩ | rfl⟩ := h
  · cases hmove
    exact ⟨.inr (.inl ⟨_, rfl⟩), fun _ _ => rfl⟩
  · cases hmove
    exact ⟨.inr (.inr ⟨Function.update_self _ _ _, .inl ⟨_, rfl⟩⟩), fun id' hid =>
      Function.update_of_ne hid _ _⟩
  · cases keys with
    | nil =>
      cases hmove
      exact ⟨.inr (.inr ⟨hnone, .inr rfl⟩), fun _ _ => rfl⟩
    | cons unique keys =>
      obtain ⟨u, -, heq⟩ := map_eq_some_iff.1 hmove
      cases heq
      have hrecords := records_release s u.key id
      exact ⟨.inr (.inr ⟨by rw [hrecords, hnone], .inl ⟨_, rfl⟩⟩), fun id' _ => congrFun hrecords id'⟩
  · cases hmove

lemma Removing.of_eq (h : Removing s id q) (heq : s'.records id = s.records id) : Removing s' id q := by
  rw [Removing, heq]
  exact h

end
/-! ## The consumption of an authorization -/

variable {call : UniqueClaims.Phase Account} {made : Bool}

section

variable {lower : Utf16 → Utf16} {s s' : Shared} {p p' : Phase} {e : Event} {state state' : ℕ}

/-- What is known of a completion, once the provider has said who signs in. -/
def Phase.ticket : Phase → Option Ticket
  | .looking t _ => some t
  | .linking t _ _ => some t
  | .registering t _ => some t
  | .enrolling t _ _ _ => some t
  | .withdrawing t _ _ => some t
  | .adopting t => some t
  | .relinking t _ => some t
  | .finding t _ => some t
  | .opening t _ _ => some t
  | .completed t _ _ => some t
  | .failed t => some t
  | _ => none

def Phase.consumed : Phase → Option ℕ
  | .exchanging _ state _ => some state
  | p => p.ticket.map Ticket.state

variable {t : Ticket}

lemma looking_next {link : Option ℕ} (h : advance lower e s (.looking t link) = some (s', p')) :
    (s' = s ∧ ((∃ account, p' = .linking t account
        (s.findByProviderIdentifier t.provider t.identity.identifier)) ∨
      (∃ credential, s.findByProviderIdentifier t.provider t.identity.identifier = some credential ∧
        p' = .finding t credential) ∨ p' = .failed t)) ∨
    s' = { s with next := s.next + 1 } ∧ p' = .registering { t with account := some s.next }
      (.creating (newAccount lower s.next t.identity e.drawn) (.start
        (accountKeys (newAccount lower s.next t.identity e.drawn)))) := by
  cases link with
  | some account =>
    cases h
    exact .inl ⟨rfl, .inl ⟨account, rfl⟩⟩
  | none =>
    simp only [advance] at h
    cases hfound : s.findByProviderIdentifier t.provider t.identity.identifier with
    | some credential =>
      rw [hfound] at h
      cases h
      exact .inl ⟨rfl, .inr (.inl ⟨credential, rfl, rfl⟩)⟩
    | none =>
      rw [hfound] at h
      split_ifs at h
      · cases h
        exact .inl ⟨rfl, .inr (.inr rfl)⟩
      · cases h
        exact .inr ⟨rfl, rfl⟩

/-- The account that an identity is linked to is looked for, and then a credential of it is created. -/
theorem linking_next {account : ℕ} {registered : Option Credential}
    (h : advance lower e s (.linking t account registered) = some (s', p')) :
    (s' = s ∧ (p' = .failed t ∨ ∃ credential, registered = some credential ∧ credential.rest = account ∧
      p' = .opening t account credential.id)) ∨ (s', p') = enroll lower s t account false := by
  cases hstored : s.accounts.records account with
  | none =>
    simp only [advance, hstored, isNone_none, if_true, Option.some.injEq, Prod.mk.injEq] at h
    exact .inl ⟨h.1.symm, .inl h.2.symm⟩
  | some v =>
    simp only [advance, hstored, isNone_some, Bool.false_eq_true, if_false] at h
    cases registered with
    | some credential =>
      cases h
      split_ifs with hrest
      · exact .inl ⟨rfl, .inl rfl⟩
      · exact .inl ⟨rfl, .inr ⟨credential, rfl, not_not.1 hrest, rfl⟩⟩
    | none =>
      split_ifs at h
      · cases h
        exact .inl ⟨rfl, .inl rfl⟩
      · exact .inr (some.inj h).symm

lemma registering_next (h : advance lower e s (.registering t call) = some (s', p')) :
    (∃ account, call = .ended account .done ∧ some (s', p') =
      if normalIdentifier lower t.provider t.identity.identifier = [] then
        some (s, .withdrawing t false (.removing account)) else some (enroll lower s t account true)) ∨
    (∃ account error, call = .ended account (.failed error) ∧ s' = s ∧
      p' = if isConflict error then .adopting t else .failed t) ∨
    ∃ next, UniqueClaims.advance accountNames e.call s.accounts call = some next ∧
      s' = { s with accounts := next.1 } ∧ p' = .registering t next.2 := by
  have hgoing : (UniqueClaims.advance accountNames e.call s.accounts call).map (fun next =>
      ({ s with accounts := next.1 }, Phase.registering t next.2)) = some (s', p') →
      ∃ next, UniqueClaims.advance accountNames e.call s.accounts call = some next ∧
        s' = { s with accounts := next.1 } ∧ p' = .registering t next.2 := by
    intro h
    obtain ⟨next, hnext, heq⟩ := map_eq_some_iff.1 h
    cases heq
    exact ⟨next, hnext, rfl, rfl⟩
  cases call with
  | ended account outcome =>
    cases outcome with
    | done => exact .inl ⟨account, rfl, h.symm⟩
    | failed error =>
      cases h
      exact .inr (.inl ⟨account, error, rfl, rfl, rfl⟩)
  | _ => exact .inr (.inr (hgoing h))

lemma enrolling_next {account : ℕ} {call : UniqueClaims.Phase Credential}
    (h : advance lower e s (.enrolling t account made call) = some (s', p')) :
    (∃ credential, call = .ended credential .done ∧ s' = s ∧ p' = .opening t account credential) ∨
    (∃ credential error, call = .ended credential (.failed error) ∧ s' = s ∧
      p' = if made then .withdrawing t (isConflict error) (.removing account)
        else if isConflict error then .relinking t account else .failed t) ∨
    ∃ next, UniqueClaims.advance credentialNames e.call s.credentials call = some next ∧
      s' = { s with credentials := next.1 } ∧ p' = .enrolling t account made next.2 := by
  have hgoing : (UniqueClaims.advance credentialNames e.call s.credentials call).map (fun next =>
      ({ s with credentials := next.1 }, Phase.enrolling t account made next.2)) = some (s', p') →
      ∃ next, UniqueClaims.advance credentialNames e.call s.credentials call = some next ∧
        s' = { s with credentials := next.1 } ∧ p' = .enrolling t account made next.2 := by
    intro h
    obtain ⟨next, hnext, heq⟩ := map_eq_some_iff.1 h
    cases heq
    exact ⟨next, hnext, rfl, rfl⟩
  cases call with
  | ended credential outcome =>
    cases outcome with
    | done =>
      cases h
      exact .inl ⟨credential, rfl, rfl, rfl⟩
    | failed error =>
      cases made with
      | true | false =>
        cases h
        exact .inr (.inl ⟨credential, error, rfl, rfl, rfl⟩)
  | _ =>
    cases made with
    | true | false => exact .inr (.inr (hgoing h))

lemma withdrawing_next {adopts : Bool}
    (h : advance lower e s (.withdrawing t adopts call) = some (s', p')) :
    (∃ account outcome, call = .ended account outcome ∧ s' = s ∧
      p' = if adopts then .adopting t else .failed t) ∨
    ∃ next, UniqueClaims.advance accountNames e.call s.accounts call = some next ∧
      s' = { s with accounts := next.1 } ∧ p' = .withdrawing t adopts next.2 := by
  have hgoing : (UniqueClaims.advance accountNames e.call s.accounts call).map (fun next =>
      ({ s with accounts := next.1 }, Phase.withdrawing t adopts next.2)) = some (s', p') →
      ∃ next, UniqueClaims.advance accountNames e.call s.accounts call = some next ∧
        s' = { s with accounts := next.1 } ∧ p' = .withdrawing t adopts next.2 := by
    intro h
    obtain ⟨next, hnext, heq⟩ := map_eq_some_iff.1 h
    cases heq
    exact ⟨next, hnext, rfl, rfl⟩
  cases call with
  | ended account outcome =>
    cases h
    exact .inl ⟨account, outcome, rfl, rfl, rfl⟩
  | _ => exact .inr (hgoing h)

/-- A completion stays with its state, and changes no authorization once it has consumed its own. -/
theorem ticket_next (hticket : p.ticket = some t) (h : advance lower e s p = some (s', p')) :
    s'.flows = s.flows ∧ ∃ t', p'.ticket = some t' ∧ t'.state = t.state := by
  cases p with
  | consuming | exchanging => cases hticket
  | looking t link =>
    cases hticket
    obtain ⟨rfl, ⟨account, rfl⟩ | ⟨credential, -, rfl⟩ | rfl⟩ | ⟨rfl, rfl⟩ := looking_next h
    · exact ⟨rfl, t, rfl, rfl⟩
    · exact ⟨rfl, t, rfl, rfl⟩
    · exact ⟨rfl, t, rfl, rfl⟩
    · exact ⟨rfl, _, rfl, rfl⟩
  | linking t account registered =>
    cases hticket
    obtain ⟨rfl, rfl | ⟨credential, -, -, rfl⟩⟩ | heq := linking_next h
    · exact ⟨rfl, t, rfl, rfl⟩
    · exact ⟨rfl, t, rfl, rfl⟩
    · cases heq
      exact ⟨rfl, _, rfl, rfl⟩
  | registering t call =>
    cases hticket
    obtain ⟨account, -, heq⟩ | ⟨account, error, -, rfl, rfl⟩ | ⟨next, -, rfl, rfl⟩ := registering_next h
    · split_ifs at heq
      · cases heq
        exact ⟨rfl, t, rfl, rfl⟩
      · cases heq
        exact ⟨rfl, _, rfl, rfl⟩
    · refine ⟨rfl, t, ?_, rfl⟩
      split_ifs <;> rfl
    · exact ⟨rfl, t, rfl, rfl⟩
  | enrolling t account made call =>
    cases hticket
    obtain ⟨credential, -, rfl, rfl⟩ | ⟨credential, error, -, rfl, rfl⟩ | ⟨next, -, rfl, rfl⟩ :=
      enrolling_next h
    · exact ⟨rfl, t, rfl, rfl⟩
    · refine ⟨rfl, t, ?_, rfl⟩
      split_ifs <;> rfl
    · exact ⟨rfl, t, rfl, rfl⟩
  | withdrawing t adopts call =>
    cases hticket
    obtain ⟨account, outcome, -, rfl, rfl⟩ | ⟨next, -, rfl, rfl⟩ := withdrawing_next h
    · refine ⟨rfl, t, ?_, rfl⟩
      split_ifs <;> rfl
    · exact ⟨rfl, t, rfl, rfl⟩
  | adopting t =>
    cases hticket
    cases h
    refine ⟨rfl, t, ?_, rfl⟩
    cases s.findByProviderIdentifier t.provider t.identity.identifier <;> rfl
  | relinking t account =>
    cases hticket
    cases h
    refine ⟨rfl, t, ?_, rfl⟩
    cases s.findByProviderIdentifier t.provider t.identity.identifier with
    | none => rfl
    | some credential =>
      dsimp only
      split_ifs <;> rfl
  | finding t | opening t =>
    cases hticket
    cases h
    refine ⟨rfl, t, ?_, rfl⟩
    split_ifs <;> rfl
  | completed | invalid | failed => cases h

lemma consume_none (change : Mutate Flow) : (change.next (fun _ => none) none).1 = none := by
  obtain ⟨retry, read⟩ := change
  cases read with
  | none => rfl
  | some read =>
    cases read with
    | none | some => rfl

lemma consume_through {change : Mutate Flow} {stored : Option (Versioned Flow)} {flow : Flow}
    {next : Option Flow} (h : (change.next (fun _ => none) stored).2 = .through (some flow) next)
    (hclear : (change.read.all fun read => read.isNone || stored.isSome) = true) :
    stored.isSome = true ∧ (change.next (fun _ => none) stored).1 = none := by
  obtain ⟨retry, read⟩ := change
  cases read with
  | none =>
    simp only [Mutate.next, isNone_none, and_true] at h
    split_ifs at h <;> cases h
  | some read =>
    cases read with
    | none =>
      cases stored with
      | none => cases h
      | some v =>
        simp only [Mutate.next, write] at h
        split_ifs at h
    | some v =>
      cases stored with
      | none => cases hclear
      | some w =>
        simp only [Mutate.next, write] at h ⊢
        by_cases hversion : v.version = w.version
        · rw [if_pos hversion]
          exact ⟨rfl, rfl⟩
        · rw [if_neg hversion] at h
          split_ifs at h

lemma flow_set (flows : List (Option (Versioned Flow))) (flow : Option (Versioned Flow)) :
    (flows.set state flow)[state']?.join =
      if state = state' ∧ state' < flows.length then flow else flows[state']?.join := by
  rw [List.getElem?_set]
  by_cases heq : state = state'
  · subst heq
    by_cases hlt : state < flows.length
    · rw [if_pos rfl, if_pos hlt, if_pos ⟨rfl, hlt⟩, join_some]
    · rw [if_pos rfl, if_neg hlt, if_neg (fun h => hlt h.2), List.getElem?_eq_none (not_lt.1 hlt)]
  · rw [if_neg heq, if_neg (fun h => heq h.1)]

section

variable (h : advance lower e s p = some (s', p'))
include h

lemma flows_next : s'.flows = s.flows ∨
    ∃ provider state change, p = .consuming provider state change ∧
      s'.flows = s.flows.set state (change.next (fun _ => none) (s.flow state)).1 := by
  cases p with
  | consuming provider state change =>
    cases h
    exact .inr ⟨provider, state, change, rfl, rfl⟩
  | exchanging provider state flow =>
    cases h
    exact .inl rfl
  | invalid => cases h
  | _ => exact .inl (ticket_next rfl h).1

lemma flow_none (hnone : s.flow state = none) :
    s'.flow state = none := by
  obtain heq | ⟨provider, state', change, rfl, heq⟩ := flows_next h
  · rw [Shared.flow, heq]
    exact hnone
  · rw [Shared.flow, heq, flow_set]
    split_ifs with hboth
    · rw [hboth.1, hnone, consume_none]
    · exact hnone

/-- A completion that has consumed an authorization had done so before, or has deleted what was stored. -/
theorem consumed_next {others : List Phase}
    (hclear : p.clear e s others = true) (hconsumed : p'.consumed = some state) :
    p.consumed = some state ∨ (s.flow state).isSome = true ∧ s'.flow state = none := by
  cases p with
  | consuming provider state' change =>
    cases h
    cases hcame : (change.next (fun _ => none) (s.flow state')).2 with
    | going | failed =>
      rw [hcame] at hconsumed
      cases hconsumed
    | through current next =>
      rw [hcame] at hconsumed
      cases current with
      | none => cases hconsumed
      | some flow =>
        dsimp only at hconsumed
        split_ifs at hconsumed
        · cases hconsumed
        · cases hconsumed
          obtain ⟨hsome, hnone⟩ := consume_through hcame hclear
          refine .inr ⟨hsome, ?_⟩
          rw [Shared.flow, flow_set]
          split_ifs with hboth
          · exact hnone
          · -- the state is one of those there are, as its authorization is stored
            obtain ⟨v, hv⟩ := isSome_iff_exists.1 hsome
            obtain ⟨hlt, -⟩ := List.getElem?_eq_some_iff.1 (join_eq_some_iff.1 hv)
            exact absurd ⟨rfl, hlt⟩ hboth
  | exchanging provider state' flow =>
    cases h
    left
    cases hanswer : e.answer with
    | none =>
      rw [hanswer] at hconsumed
      cases hconsumed
    | some identity =>
      rw [hanswer] at hconsumed
      dsimp only at hconsumed
      split_ifs at hconsumed
      · cases hconsumed
      · exact hconsumed
  | invalid => cases h
  | _ =>
    obtain ⟨-, t', ht', hstate⟩ := ticket_next rfl h
    left
    have : p'.consumed = some t'.state := by
      cases p' with
      | exchanging provider state flow => cases ht'
      | _ => exact congrArg (Option.map Ticket.state) ht'
    rw [← hconsumed, this, hstate]
    rfl

end

end

lemma consumed_unique {lower : Utf16 → Utf16} (run : Run (completions lower))
    (hstart : (run.world 0).parties = []) (hclear : ∀ i, clear (run.world i) (run.turn i) = true)
    {i j k k' state : ℕ} {p q : Phase} (hp : (run.world i).parties[k]? = some p)
    (hq : (run.world j).parties[k']? = some q) (hpassed : p.consumed = some state)
    (hpassed' : q.consumed = some state) : k = k' := by
  refine run.passed_once (fun p => p.consumed = some state)
    (fun w => (w.shared.flow state).isSome = true) (fun w => w.shared.flow state = none) hstart
    (fun q hb => ?_) (fun i k e p q hturn hp hmove hnot hpassed => ?_) (fun i hnone => ?_)
    (fun w hsome hnone => ?_) hp (decide_eq_true hpassed) hq (decide_eq_true hpassed')
  · cases q with
    | consuming provider state change => rfl
    | _ => cases hb
  · have hthis := hclear i
    rw [hturn, clear, hp, all_some] at hthis
    obtain hbefore | hdone := consumed_next hmove hthis (of_decide_eq_true hpassed)
    · exact absurd hbefore (of_decide_eq_false hnot)
    · exact hdone
  · obtain ⟨-, hw⟩ | ⟨party, -, -, hw⟩ | ⟨k, e, p, s', p', -, -, hmove, hw⟩ | ⟨e, -⟩ :=
      Rules.play_cases (run.plays i)
    · rw [hw]
      exact hnone
    · rw [hw]
      exact hnone
    · rw [hw]
      exact flow_none hmove hnone
    · exact e.elim
  · rw [hnone] at hsome
    cases hsome
/-! ## Identifiers -/

/-- What is relied on of `toLowerCase`: it changes nothing twice, and leaves no blank at an end. -/
structure LowerCase (lower : Utf16 → Utf16) : Prop where
  twice : ∀ text, lower (lower text) = lower text
  trimmed : ∀ text, Edge.trim (lower (Edge.trim text)) = lower (Edge.trim text)

lemma trim_trim (text : Utf16) : Edge.trim (Edge.trim text) = Edge.trim text := by
  unfold Edge.trim
  cases hback : (text.dropWhile Edge.isBlank).rdropWhile Edge.isBlank with
  | nil => rfl
  | cons c back =>
    -- what is cut at the end leaves the first letter, which is no blank
    have hhead : Edge.isBlank c = false := by
      obtain ⟨cut, hcut⟩ := List.rdropWhile_prefix Edge.isBlank (text.dropWhile Edge.isBlank)
      rw [hback, cons_append] at hcut
      have hdrop := dropWhile_idempotent Edge.isBlank text
      rw [← hcut, dropWhile_eq_self_iff] at hdrop
      exact (Bool.not_eq_true _).mp (hdrop (Nat.succ_pos _))
    have hfront : (c :: back).dropWhile Edge.isBlank = c :: back := by
      rw [dropWhile_cons_of_neg]
      rw [hhead]
      exact Bool.false_ne_true
    rw [hfront, ← hback]
    exact rdropWhile_idempotent _ _

lemma normalIdentifier_twice {lower : Utf16 → Utf16} (hlower : LowerCase lower) (provider identifier : Utf16) :
    normalIdentifier lower provider (normalIdentifier lower provider identifier) =
      normalIdentifier lower provider identifier := by
  unfold normalIdentifier
  split_ifs
  · rw [hlower.trimmed, hlower.twice]
  · exact trim_trim identifier

/-! ## What a completion has stored -/

section

variable (lower : Utf16 → Utf16)

def Ticket.Enrolled (s : Shared) (t : Ticket) (credential account : ℕ) : Prop :=
  ∃ v, s.credentials.records credential = some v ∧ v.value.provider = t.provider ∧
    v.value.identifier = normalIdentifier lower t.provider t.identity.identifier ∧ v.value.rest = account

/-- The account that was created is deleted, or the credential that was created is of it. -/
def Ticket.Settled (s : Shared) (t : Ticket) : Prop :=
  ∀ account, t.account = some account → s.accounts.records account = none ∨
    ∃ credential, t.credential = some credential ∧ t.Enrolled lower s credential account

def Phase.Tracks (s : Shared) : Phase → Prop
  | .looking t _ => t.account = none ∧ t.credential = none
  | .linking t _ registered => t.account = none ∧
      ∀ credential, registered = some credential → t.Enrolled lower s credential.id credential.rest
  | .registering t call => t.credential = none ∧
      ∃ record : Account, t.account = some record.id ∧ Creating accountNames s.accounts record call
  | .enrolling t account made call => t.account = (if made then some account else none) ∧
      ∃ record : Credential, t.credential = some record.id ∧ record.provider = t.provider ∧
        record.identifier = normalIdentifier lower t.provider t.identity.identifier ∧ record.rest = account ∧
        Creating credentialNames s.credentials record call ∧ call.Sound credentialNames s.credentials
  | .withdrawing t _ call => ∃ account, t.account = some account ∧ Removing s.accounts account call
  | .adopting t => t.Settled lower s
  | .relinking t _ => t.account = none
  | .finding t credential => t.Settled lower s ∧ t.Enrolled lower s credential.id credential.rest
  | .opening t account credential => t.Settled lower s ∧ t.Enrolled lower s credential account
  | .completed t account credential => t.Settled lower s ∧ t.Enrolled lower s credential account
  | .failed t => t.Settled lower s
  | _ => True

def Phase.Draws (p : Phase) (id : ℕ) : Prop :=
  ∃ t, p.ticket = some t ∧ (t.account = some id ∨ t.credential = some id)

/-- What holds of what is stored. -/
structure Shared.Good (s : Shared) : Prop where
  sound : s.credentials.Sound credentialNames
  accounts : ∀ id, s.next ≤ id → s.accounts.records id = none
  credentials : ∀ id, s.next ≤ id → s.credentials.records id = none
  regular : ∀ id v, s.credentials.records id = some v → v.value.id = id ∧
    normalIdentifier lower v.value.provider v.value.identifier = v.value.identifier

/-- What one step of a completion does. -/
structure Moved (others : List Phase) (s s' : Shared) (p p' : Phase) : Prop where
  good : s'.Good lower
  accounts : ∀ id, ¬p'.Draws id → s'.accounts.records id = s.accounts.records id
  credentials : ∀ id, ¬p'.Draws id → s'.credentials.records id = s.credentials.records id
  kept : ∀ id v, s.credentials.records id = some v → s'.credentials.records id = some v
  next : s.next ≤ s'.next
  draws : ∀ id, p'.Draws id → p.Draws id ∨ s.next ≤ id ∧ id < s'.next
  undisturbed : Undisturbed credentialNames (others.filterMap Phase.enrols) s.credentials s'.credentials
  tracks : p'.Tracks lower s'

end

section

variable {lower : Utf16 → Utf16} {s s' : Shared} {p p' : Phase} {e : Event} {others : List Phase} {t : Ticket}

lemma Ticket.settled_of_none (h : t.account = none) : t.Settled lower s := by
  intro account haccount
  rw [h] at haccount
  cases haccount

lemma enrolled_of_found (hgood : s.Good lower) {credential : Credential}
    (h : s.findByProviderIdentifier t.provider t.identity.identifier = some credential) :
    t.Enrolled lower s credential.id credential.rest := by
  obtain ⟨id, -, hid⟩ := exists_of_findSome?_eq_some h
  obtain ⟨v, hv, hfound⟩ := bind_eq_some_iff.1 hid
  split_ifs at hfound with hmatch
  cases hfound
  obtain ⟨hown, hnormal⟩ := hgood.regular id v hv
  refine ⟨v, ?_, hmatch.1, ?_, rfl⟩
  · rw [hown]
    exact hv
  · rw [← hmatch.1, ← hmatch.2]
    exact hnormal.symm

lemma Moved.same (hgood : s.Good lower) (hdraws : ∀ id, p'.Draws id → p.Draws id)
    (htracks : p'.Tracks lower s) : Moved lower others s s p p' :=
  ⟨hgood, fun _ _ => rfl, fun _ _ => rfl, fun _ _ hv => hv, le_rfl, fun id hid => .inl (hdraws id hid),
    Undisturbed.refl _ _, htracks⟩

lemma Moved.stays (hgood : s.Good lower) (hticket : p'.ticket = p.ticket) (htracks : p'.Tracks lower s) :
    Moved lower others s s p p' := by
  refine Moved.same hgood (fun id hid => ?_) htracks
  obtain ⟨t, ht, hid⟩ := hid
  exact ⟨t, hticket ▸ ht, hid⟩

lemma Shared.Good.drawn (h : s.Good lower) : Shared.Good lower { s with next := s.next + 1 } :=
  ⟨h.sound, fun id hid => h.accounts id (Nat.le_of_succ_le hid),
    fun id hid => h.credentials id (Nat.le_of_succ_le hid), h.regular⟩

lemma Moved.draw (hgood : s.Good lower) (hdraws : ∀ id, p'.Draws id → p.Draws id ∨ id = s.next)
    (htracks : p'.Tracks lower { s with next := s.next + 1 }) :
    Moved lower others s { s with next := s.next + 1 } p p' := by
  refine ⟨hgood.drawn, fun _ _ => rfl, fun _ _ => rfl, fun _ _ hv => hv, Nat.le_succ _, fun id hid => ?_,
    Undisturbed.refl _ _, htracks⟩
  obtain hid | rfl := hdraws id hid
  · exact .inl hid
  · exact .inr ⟨le_rfl, Nat.lt_succ_self _⟩

lemma Moved.account (hgood : s.Good lower) {accounts : Store Account} {account : ℕ}
    (hdrawn : account < s.next) (hticket : p'.ticket = p.ticket) (hp : p'.Draws account)
    (helsewhere : ∀ id ≠ account, accounts.records id = s.accounts.records id)
    (htracks : p'.Tracks lower { s with accounts }) : Moved lower others s { s with accounts } p p' := by
  refine ⟨⟨hgood.sound, fun id hid => ?_, hgood.credentials, hgood.regular⟩, fun id hid => ?_,
    fun _ _ => rfl, fun _ _ hv => hv, le_rfl, fun id hid => .inl ?_, Undisturbed.refl _ _, htracks⟩
  · exact (helsewhere id (by dsimp only at hid; omega)).trans (hgood.accounts id hid)
  · refine helsewhere id fun heq => hid ?_
    rw [heq]
    exact hp
  · obtain ⟨t, ht, hid⟩ := hid
    exact ⟨t, hticket ▸ ht, hid⟩

lemma Moved.credential (hgood : s.Good lower) {credentials : Store Credential} {record : Credential}
    {q' : UniqueClaims.Phase Credential} (hdrawn : record.id < s.next) (hticket : p'.ticket = p.ticket)
    (hp : p'.Draws record.id)
    (hnormal : normalIdentifier lower record.provider record.identifier = record.identifier)
    (hsteps : Steps credentialNames (others.filterMap Phase.enrols) s.credentials credentials record.id q')
    (helsewhere : ∀ id ≠ record.id, credentials.records id = s.credentials.records id)
    (hhere : credentials.records record.id = s.credentials.records record.id ∨
      s.credentials.records record.id = none ∧ credentials.records record.id = some ⟨1, record⟩)
    (htracks : p'.Tracks lower { s with credentials }) :
    Moved lower others s { s with credentials } p p' := by
  refine ⟨⟨hsteps.store hgood.sound, hgood.accounts, fun id hid => ?_, fun id v hv => ?_⟩, fun _ _ => rfl,
    fun id hid => ?_, fun id v hv => ?_, le_rfl, fun id hid => .inl ?_, hsteps.undisturbed, htracks⟩
  · exact (helsewhere id (by dsimp only at hid; omega)).trans (hgood.credentials id hid)
  · by_cases heq : id = record.id
    · subst heq
      obtain hsame | ⟨-, hstored⟩ := hhere
      · exact hgood.regular _ v (hsame ▸ hv)
      · cases hstored.symm.trans hv
        exact ⟨rfl, hnormal⟩
    · exact hgood.regular id v (helsewhere id heq ▸ hv)
  · refine helsewhere id fun heq => hid ?_
    rw [heq]
    exact hp
  · by_cases heq : id = record.id
    · subst heq
      obtain hsame | ⟨hnone, -⟩ := hhere
      · exact hsame.trans hv
      · cases hnone.symm.trans hv
    · exact (helsewhere id heq).trans hv
  · obtain ⟨t, ht, hid⟩ := hid
    exact ⟨t, hticket ▸ ht, hid⟩

lemma Moved.enroll (hgood : s.Good lower) {account : ℕ} (hticket : p.ticket = some t)
    (h : (s', p') = enroll lower s t account made)
    (haccount : t.account = if made then some account else none) : Moved lower others s s' p p' := by
  cases h
  refine Moved.draw hgood (fun id hid => ?_) ⟨haccount, ⟨s.next, t.provider,
    normalIdentifier lower t.provider t.identity.identifier, account⟩, rfl, rfl, rfl, rfl, ?_, ?_⟩
  · obtain ⟨t', ht', hid⟩ := hid
    cases ht'
    obtain hid | hid := hid
    · exact .inl ⟨t, hticket, .inl hid⟩
    · cases hid
      exact .inr rfl
  · exact Creating.start (hgood.credentials _ le_rfl)
  · exact Phase.sound_of_isStart (decide_eq_true rfl)

lemma advance_moved (hlower : LowerCase lower) (hgood : s.Good lower) (htracks : p.Tracks lower s)
    (hdrawn : ∀ id, p.Draws id → id < s.next) (hclear : p.clear e s others = true)
    (h : advance lower e s p = some (s', p')) : Moved lower others s s' p p' := by
  cases p with
  | consuming provider state change =>
    cases h
    have hgood' : Shared.Good lower { s with
        flows := s.flows.set state (change.next (fun _ => none) (s.flow state)).1 } :=
      ⟨hgood.sound, hgood.accounts, hgood.credentials, hgood.regular⟩
    have hnone : ∀ p' : Phase, p'.ticket = none → ∀ id, ¬p'.Draws id := by
      rintro p' hticket id ⟨t, ht, -⟩
      rw [hticket] at ht
      cases ht
    refine ⟨hgood', fun _ _ => rfl, fun _ _ => rfl, fun _ _ hv => hv, le_rfl, fun id hid => ?_,
      Undisturbed.refl _ _, ?_⟩
    · refine absurd hid (hnone _ ?_ id)
      split
      · rfl
      · rfl
      · rfl
      · split_ifs <;> rfl
    · split
      · trivial
      · trivial
      · trivial
      · split_ifs <;> trivial
  | exchanging provider state flow =>
    cases h
    refine Moved.same hgood (fun id hid => ?_) ?_
    · obtain ⟨t, ht, hid⟩ := hid
      split at ht
      · cases ht
      · split_ifs at ht
        · cases ht
        · cases ht
          obtain hid | hid := hid
          · cases hid
          · cases hid
    · split
      · trivial
      · split_ifs
        · trivial
        · exact ⟨rfl, rfl⟩
  | looking t link =>
    obtain ⟨haccount, hcredential⟩ := htracks
    obtain ⟨rfl, ⟨account, rfl⟩ | ⟨credential, hfound, rfl⟩ | rfl⟩ | ⟨rfl, rfl⟩ := looking_next h
    · exact Moved.stays hgood rfl ⟨haccount, fun credential hfound => enrolled_of_found hgood hfound⟩
    · exact Moved.stays hgood rfl ⟨Ticket.settled_of_none haccount, enrolled_of_found hgood hfound⟩
    · exact Moved.stays hgood rfl (Ticket.settled_of_none haccount)
    · refine Moved.draw hgood (fun id hid => ?_) ⟨hcredential, _, rfl, Creating.start (hgood.accounts _ le_rfl)⟩
      obtain ⟨t', ht', hid⟩ := hid
      cases ht'
      obtain hid | hid := hid
      · cases hid
        exact .inr rfl
      · rw [hcredential] at hid
        cases hid
  | linking t account registered =>
    obtain ⟨haccount, hregistered⟩ := htracks
    obtain ⟨rfl, rfl | ⟨credential, hfound, rfl, rfl⟩⟩ | heq := linking_next h
    · exact Moved.stays hgood rfl (Ticket.settled_of_none haccount)
    · exact Moved.stays hgood rfl ⟨Ticket.settled_of_none haccount, hregistered credential hfound⟩
    · exact Moved.enroll hgood rfl heq haccount
  | registering t call =>
    obtain ⟨hcredential, record, haccount, hcreating⟩ := htracks
    obtain ⟨account, rfl, heq⟩ | ⟨account, error, rfl, rfl, rfl⟩ | ⟨next, hmove, rfl, rfl⟩ :=
      registering_next h
    · -- it was created with the id that was drawn
      have hid : account = record.id := by
        obtain ⟨-, ⟨c, heq⟩ | heq | ⟨keys, error, heq⟩ | ⟨error, heq⟩⟩ | ⟨-, heq⟩ := hcreating
        · cases heq
        · cases heq
        · cases heq
        · cases heq
        · cases heq
          rfl
      subst hid
      split_ifs at heq
      · cases heq
        exact Moved.stays hgood rfl ⟨record.id, haccount, .inl rfl⟩
      · exact Moved.enroll hgood rfl (some.inj heq) haccount
    · have hsettled : t.Settled lower s' := by
        intro account' haccount'
        rw [haccount] at haccount'
        cases haccount'
        obtain ⟨hnone, -⟩ | ⟨-, heq⟩ := hcreating
        · exact .inl hnone
        · cases heq
      cases isConflict error with
      | true | false => exact Moved.stays hgood rfl hsettled
    · obtain ⟨hcreating', helsewhere, -⟩ := hcreating.next hmove
      exact Moved.account hgood (hdrawn record.id ⟨t, rfl, .inl haccount⟩) rfl ⟨t, rfl, .inl haccount⟩ helsewhere
        ⟨hcredential, record, haccount, hcreating'⟩
  | enrolling t account made call =>
    obtain ⟨haccount, record, hcredential, hprovider, hidentifier, rfl, hcreating, hsound⟩ := htracks
    obtain ⟨credential, rfl, rfl, rfl⟩ | ⟨credential, error, rfl, rfl, rfl⟩ | ⟨next, hmove, rfl, rfl⟩ :=
      enrolling_next h
    · obtain ⟨-, ⟨c, heq⟩ | heq | ⟨keys, error, heq⟩ | ⟨error, heq⟩⟩ | ⟨hstored, heq⟩ := hcreating
      · cases heq
      · cases heq
      · cases heq
      · cases heq
      · cases heq
        have henrolled : t.Enrolled lower s' record.id record.rest :=
          ⟨_, hstored, hprovider, hidentifier, rfl⟩
        refine Moved.stays hgood rfl ⟨fun account haccount' => .inr ⟨record.id, hcredential, ?_⟩, henrolled⟩
        rw [haccount] at haccount'
        split_ifs at haccount'
        cases haccount'
        exact henrolled
    · cases made with
      | true => exact Moved.stays hgood rfl ⟨record.rest, haccount, .inl rfl⟩
      | false =>
        cases isConflict error with
        | true => exact Moved.stays hgood rfl haccount
        | false => exact Moved.stays hgood rfl (Ticket.settled_of_none haccount)
    · obtain ⟨hcreating', helsewhere, hhere⟩ := hcreating.next hmove
      have hid : call.id credentialNames = record.id := by
        obtain ⟨-, ⟨c, rfl⟩ | rfl | ⟨keys, error, rfl⟩ | ⟨error, rfl⟩⟩ | ⟨-, rfl⟩ := hcreating <;> rfl
      have hsteps := advance_steps hgood.sound hsound hclear hmove
      rw [hid] at hsteps
      refine Moved.credential hgood (hdrawn record.id ⟨t, rfl, .inr hcredential⟩) rfl
        ⟨t, rfl, .inr hcredential⟩ ?_ hsteps helsewhere hhere
        ⟨haccount, record, hcredential, hprovider, hidentifier, rfl, hcreating', hsteps.sound⟩
      rw [hidentifier, hprovider, normalIdentifier_twice hlower]
  | withdrawing t adopts call =>
    obtain ⟨account, haccount, hremoving⟩ := htracks
    obtain ⟨id, outcome, rfl, rfl, rfl⟩ | ⟨next, hmove, rfl, rfl⟩ := withdrawing_next h
    · have hsettled : t.Settled lower s' := by
        intro account' haccount'
        rw [haccount] at haccount'
        cases haccount'
        obtain heq | ⟨before, heq⟩ | ⟨hnone, -⟩ := hremoving
        · cases heq
        · cases heq
        · exact .inl hnone
      cases adopts with
      | true | false => exact Moved.stays hgood rfl hsettled
    · obtain ⟨hremoving', helsewhere⟩ := hremoving.next hmove
      exact Moved.account hgood (hdrawn account ⟨t, rfl, .inl haccount⟩) rfl ⟨t, rfl, .inl haccount⟩ helsewhere
        ⟨account, haccount, hremoving'⟩
  | adopting t =>
    cases h
    cases hfound : s.findByProviderIdentifier t.provider t.identity.identifier with
    | none => exact Moved.stays hgood rfl htracks
    | some credential => exact Moved.stays hgood rfl ⟨htracks, enrolled_of_found hgood hfound⟩
  | relinking t account =>
    cases h
    have hsettled : t.Settled lower s := Ticket.settled_of_none htracks
    cases hfound : s.findByProviderIdentifier t.provider t.identity.identifier with
    | none => exact Moved.stays hgood rfl hsettled
    | some credential =>
      dsimp only
      split_ifs with hrest
      · exact Moved.stays hgood rfl hsettled
      · obtain rfl := not_not.1 hrest
        exact Moved.stays hgood rfl ⟨hsettled, enrolled_of_found hgood hfound⟩
  | finding t credential =>
    cases h
    split_ifs
    · exact Moved.stays hgood rfl htracks.1
    · exact Moved.stays hgood rfl htracks
  | opening t account credential =>
    cases h
    split_ifs
    · exact Moved.stays hgood rfl htracks
    · exact Moved.stays hgood rfl htracks.1
  | completed | invalid | failed => cases h

end
/-! ## One turn -/

variable {w : World Shared Phase}

section

variable {lower : Utf16 → Utf16} {s s' : Shared} {p p' q : Phase} {others : List Phase}

variable (lower) in
/-- What holds of a world. -/
structure Good (w : World Shared Phase) : Prop where
  shared : w.shared.Good lower
  drawn : ∀ p ∈ w.parties, ∀ id, p.Draws id → id < w.shared.next
  apart : ∀ {k k' : ℕ} {p p' : Phase} {id : ℕ}, w.parties[k]? = some p → w.parties[k']? = some p' →
    p.Draws id → p'.Draws id → k = k'
  tracks : ∀ p ∈ w.parties, p.Tracks lower w.shared

lemma Ticket.Enrolled.kept {t : Ticket} {credential account : ℕ} (h : t.Enrolled lower s credential account)
    (hkept : ∀ id v, s.credentials.records id = some v → s'.credentials.records id = some v) :
    t.Enrolled lower s' credential account := by
  obtain ⟨v, hv, hrest⟩ := h
  exact ⟨v, hkept credential v hv, hrest⟩

lemma Moved.other (h : Moved lower others s s' p p') (hother : q ∈ others) (hq : q.Tracks lower s)
    (hapart : ∀ id, q.Draws id → ¬p'.Draws id) : q.Tracks lower s' := by
  have hsettled : ∀ t : Ticket, q.ticket = some t → t.Settled lower s → t.Settled lower s' := by
    intro t ht hsettled account haccount
    obtain hnone | ⟨credential, hcredential, henrolled⟩ := hsettled account haccount
    · exact .inl ((h.accounts account (hapart account ⟨t, ht, .inl haccount⟩)).trans hnone)
    · exact .inr ⟨credential, hcredential, henrolled.kept h.kept⟩
  cases q with
  | consuming | exchanging => trivial
  | looking t link => exact hq
  | linking t account registered =>
    exact ⟨hq.1, fun credential hregistered => (hq.2 credential hregistered).kept h.kept⟩
  | registering t call =>
    obtain ⟨hcredential, record, haccount, hcreating⟩ := hq
    exact ⟨hcredential, record, haccount,
      hcreating.of_eq (h.accounts record.id (hapart record.id ⟨t, rfl, .inl haccount⟩))⟩
  | enrolling t account made call =>
    obtain ⟨haccount, record, hcredential, hprovider, hidentifier, hrest, hcreating, hsound⟩ := hq
    exact ⟨haccount, record, hcredential, hprovider, hidentifier, hrest,
      hcreating.of_eq (h.credentials record.id (hapart record.id ⟨t, rfl, .inr hcredential⟩)),
      h.undisturbed.other (mem_filterMap.2 ⟨_, hother, rfl⟩) hsound⟩
  | withdrawing t adopts call =>
    obtain ⟨account, haccount, hremoving⟩ := hq
    exact ⟨account, haccount, hremoving.of_eq (h.accounts account (hapart account ⟨t, rfl, .inl haccount⟩))⟩
  | adopting t => exact hsettled t rfl hq
  | relinking t account => exact hq
  | finding t | opening t | completed t => exact ⟨hsettled t rfl hq.1, hq.2.kept h.kept⟩
  | invalid => trivial
  | failed t => exact hsettled t rfl hq

lemma Moved.good_set {k : ℕ} (hw : Good lower w) (hp : w.parties[k]? = some p)
    (h : Moved lower (w.parties.eraseIdx k) w.shared s' p p') : Good lower ⟨s', w.parties.set k p'⟩ := by
  -- what it draws now no other has drawn
  have hapart : ∀ {j : ℕ} {q : Phase} {id : ℕ}, j ≠ k → w.parties[j]? = some q → q.Draws id → ¬p'.Draws id := by
    intro j q id hjk hq hdraws hp'
    obtain hold | ⟨hnew, -⟩ := h.draws id hp'
    · exact hjk (hw.apart hq hp hdraws hold)
    · exact absurd (hw.drawn q (mem_of_getElem? hq) id hdraws) (not_lt.2 hnew)
  refine ⟨h.good, fun q hq id hdraws => ?_, fun {j j' q q' id} hj hj' hdraws hdraws' => ?_, fun q hq => ?_⟩
  · obtain ⟨j, hj⟩ := mem_iff_getElem?.1 hq
    obtain ⟨rfl, rfl⟩ | ⟨-, hj⟩ := getElem?_set_cases hj
    · obtain hold | ⟨-, hlt⟩ := h.draws id hdraws
      · exact (hw.drawn p (mem_of_getElem? hp) id hold).trans_le h.next
      · exact hlt
    · exact (hw.drawn q (mem_of_getElem? hj) id hdraws).trans_le h.next
  · obtain ⟨rfl, rfl⟩ | ⟨hjk, hold⟩ := getElem?_set_cases hj
    · obtain ⟨rfl, -⟩ | ⟨hjk', hold'⟩ := getElem?_set_cases hj'
      · rfl
      · exact absurd hdraws (hapart hjk' hold' hdraws')
    · obtain ⟨rfl, rfl⟩ | ⟨-, hold'⟩ := getElem?_set_cases hj'
      · exact absurd hdraws' (hapart hjk hold hdraws)
      · exact hw.apart hold hold' hdraws hdraws'
  · obtain ⟨j, hj⟩ := mem_iff_getElem?.1 hq
    obtain ⟨rfl, rfl⟩ | ⟨hjk, hj⟩ := getElem?_set_cases hj
    · exact h.tracks
    · exact h.other (mem_eraseIdx_iff_getElem?.2 ⟨j, hjk, hj⟩)
        (hw.tracks q (mem_of_getElem? hj)) (fun id hdraws => hapart hjk hj hdraws)

lemma draws_of_isStart (h : p.isStart = true) (id : ℕ) : ¬p.Draws id := by
  rintro ⟨t, ht, -⟩
  cases p with
  | consuming provider state change => cases ht
  | _ => cases h

lemma good_play (hlower : LowerCase lower) {w w' : World Shared Phase} {turn : Turn Phase Event Empty}
    (hplay : (completions lower).play w turn = some w') (hclear : clear w turn = true)
    (hw : Good lower w) : Good lower w' := by
  obtain ⟨-, rfl⟩ | ⟨party, -, hb, rfl⟩ | ⟨k, e, p, s', p', rfl, hp, hmove, rfl⟩ | ⟨event, -⟩ :=
    Rules.play_cases hplay
  · exact hw
  · have hget : ∀ {j : ℕ} {q : Phase} {id : ℕ}, (w.parties ++ [party])[j]? = some q → q.Draws id →
        w.parties[j]? = some q := by
      intro j q id hj hdraws
      obtain hj | rfl := getElem?_append_cases hj
      · exact hj
      · exact absurd hdraws (draws_of_isStart hb id)
    refine ⟨hw.shared, fun q hq id hdraws => ?_, fun hj hj' hdraws hdraws' => ?_, fun q hq => ?_⟩
    · obtain ⟨j, hj⟩ := mem_iff_getElem?.1 hq
      exact hw.drawn q (mem_of_getElem? (hget hj hdraws)) id hdraws
    · exact hw.apart (hget hj hdraws) (hget hj' hdraws') hdraws hdraws'
    · obtain hq | hq := mem_append.1 hq
      · exact hw.tracks q hq
      · rw [mem_singleton.1 hq]
        cases party with
        | consuming provider state change => trivial
        | _ => cases hb
  · rw [clear, hp, all_some] at hclear
    have hmem := mem_of_getElem? hp
    exact (advance_moved hlower hw.shared (hw.tracks p hmem) (hw.drawn p hmem) hclear hmove).good_set hw hp
  · exact event.elim

end

/-! ## What signing in leaves -/

section

variable {lower : Utf16 → Utf16}

def Ticket.Same (lower : Utf16 → Utf16) (t t' : Ticket) : Prop :=
  t.provider = t'.provider ∧ normalIdentifier lower t.provider t.identity.identifier =
    normalIdentifier lower t'.provider t'.identity.identifier

def Phase.over : Phase → Option Ticket
  | .completed t _ _ => some t
  | .failed t => some t
  | _ => none

variable (lower) in
/-- What any number of completions leave, at every moment. -/
structure SingleUse (run : Run (completions lower)) : Prop where
  once : ∀ {i j k k' : ℕ} {t t' : Ticket} {account account' credential credential' : ℕ},
    (run.world i).parties[k]? = some (.completed t account credential) →
    (run.world j).parties[k']? = some (.completed t' account' credential') → t.state = t'.state → k = k'
  credentials : ∀ {i id id' : ℕ} {v v' : Versioned Credential},
    (run.world i).shared.credentials.records id = some v →
    (run.world i).shared.credentials.records id' = some v' → v.value.provider = v'.value.provider →
    v.value.identifier = v'.value.identifier → id = id'
  credential : ∀ {i k : ℕ} {t : Ticket} {account credential : ℕ},
    (run.world i).parties[k]? = some (.completed t account credential) →
    t.Enrolled lower (run.world i).shared credential account
  account : ∀ {i k k' : ℕ} {t t' : Ticket} {account account' credential credential' : ℕ},
    (run.world i).parties[k]? = some (.completed t account credential) →
    (run.world i).parties[k']? = some (.completed t' account' credential') → t.Same lower t' →
    account = account'
  accounts : ∀ {i k k' : ℕ} {p p' : Phase} {t t' : Ticket} {account account' : ℕ},
    (run.world i).parties[k]? = some p → (run.world i).parties[k']? = some p' → p.over = some t →
    p'.over = some t' → t.Same lower t' → t.account = some account → t'.account = some account' →
    ((run.world i).shared.accounts.records account).isSome = true →
    ((run.world i).shared.accounts.records account').isSome = true → account = account'

lemma credential_unique {s : Store Credential} (h : s.Sound credentialNames) {id id' : ℕ}
    {v v' : Versioned Credential} (hv : s.records id = some v) (hv' : s.records id' = some v')
    (hprovider : v.value.provider = v'.value.provider) (hidentifier : v.value.identifier = v'.value.identifier) :
    id = id' := by
  have howns := h id v hv _ (mem_singleton_self _)
  have howns' := h id' v' hv' _ (mem_singleton_self _)
  rw [hprovider, hidentifier] at howns
  exact owns_unique howns howns'

variable {s : Shared}

lemma Ticket.Enrolled.unique (hgood : s.Good lower) {t t' : Ticket}
    {credential credential' account account' : ℕ} (h : t.Enrolled lower s credential account)
    (h' : t'.Enrolled lower s credential' account') (hsame : t.Same lower t') :
    credential = credential' ∧ account = account' := by
  obtain ⟨v, hv, hprovider, hidentifier, rfl⟩ := h
  obtain ⟨v', hv', hprovider', hidentifier', rfl⟩ := h'
  have hid : credential = credential' := by
    refine credential_unique hgood.sound hv hv' ?_ ?_
    · rw [hprovider, hprovider', hsame.1]
    · rw [hidentifier, hidentifier', hsame.2]
  subst hid
  cases hv.symm.trans hv'
  exact ⟨rfl, rfl⟩

/-- The account that a completion has created and left is that of the credential that it has created. -/
theorem over_enrolled {p : Phase} {t : Ticket} {account : ℕ} (h : p.Tracks lower s)
    (hover : p.over = some t) (haccount : t.account = some account)
    (hleft : (s.accounts.records account).isSome = true) :
    ∃ credential, t.Enrolled lower s credential account := by
  have hsettled : t.Settled lower s := by
    cases p with
    | completed t' account' credential =>
      cases hover
      exact h.1
    | failed t' =>
      cases hover
      exact h
    | _ => cases hover
  obtain hnone | ⟨credential, -, henrolled⟩ := hsettled account haccount
  · rw [hnone] at hleft
    cases hleft
  · exact ⟨credential, henrolled⟩

/-- Where an authorization is deleted only while it is stored, and no claim on an identity that is in use is
released or taken over, authorizations are used once, and an identity has one credential and one account. -/
theorem signed_in_once (hlower : LowerCase lower) (run : Run (completions lower))
    (hshared : (run.world 0).shared.Good lower) (hstart : (run.world 0).parties = [])
    (hclear : ∀ i, clear (run.world i) (run.turn i) = true) : SingleUse lower run := by
  have hgood : ∀ i, Good lower (run.world i) := by
    intro i
    refine run.kept (Q := Good lower) (fun i h => good_play hlower (run.plays i) (hclear i) h)
      ⟨hshared, fun p hp => ?_, fun hp => ?_, fun p hp => ?_⟩ (Nat.zero_le i)
    · rw [hstart] at hp
      cases hp
    · rw [hstart] at hp
      cases hp
    · rw [hstart] at hp
      cases hp
  have henrolled : ∀ {i k : ℕ} {t : Ticket} {account credential : ℕ},
      (run.world i).parties[k]? = some (.completed t account credential) →
      t.Enrolled lower (run.world i).shared credential account :=
    fun hp => ((hgood _).tracks _ (List.mem_of_getElem? hp)).2
  refine ⟨fun hp hq hstate => consumed_unique run hstart hclear hp hq rfl (congrArg some hstate.symm),
    fun hv hv' => credential_unique (hgood _).shared.sound hv hv', henrolled,
    fun hp hq hsame => ((henrolled hp).unique (hgood _).shared (henrolled hq) hsame).2,
    fun {i k k' p p' t t' account account'} hp hp' hover hover' hsame haccount haccount' hleft hleft' => ?_⟩
  obtain ⟨credential, henrolled⟩ := over_enrolled ((hgood i).tracks p (List.mem_of_getElem? hp)) hover
    haccount hleft
  obtain ⟨credential', henrolled'⟩ := over_enrolled ((hgood i).tracks p' (List.mem_of_getElem? hp')) hover'
    haccount' hleft'
  exact (henrolled.unique (hgood i).shared henrolled' hsame).2

end
/-! ## One authorization, and two -/

/-- A completion is given a number of turns; the provider answers the same each time. -/
def given (k : ℕ) (drawn : String) (n : ℕ) : List (Turn Phase Event Empty) :=
  List.replicate n (.move k ⟨⟨0, 0⟩, some ⟨utf16 "subject", none, none⟩, utf16 drawn, true⟩)

def completion (state : ℕ) : Turn Phase Event Empty := .begin (.consuming (utf16 "oidc") state .start)

def authorized (n : ℕ) : World Shared Phase :=
  ⟨⟨List.replicate n (some ⟨1, ⟨utf16 "oidc", none, 1⟩⟩), ⟨fun _ => none, fun _ => none⟩,
    ⟨fun _ => none, fun _ => none⟩, 0⟩, []⟩

lemma authorized_good (lower : Utf16 → Utf16) (n : ℕ) : (authorized n).shared.Good lower :=
  ⟨nofun, fun _ _ => rfl, fun _ _ => rfl, nofun⟩

/-- Two sign in at once, with two authorizations; the second creates an account and deletes it. -/
def beside : List (Turn Phase Event Empty) :=
  [completion 0, completion 1] ++ given 0 "a" 4 ++ given 1 "b" 4 ++ given 0 "a" 3 ++ given 1 "b" 3 ++ given 0 "a" 6 ++ given 1 "b" 12

def twice : List (Turn Phase Event Empty) :=
  [completion 0, completion 0] ++ given 0 "a" 1 ++ given 1 "b" 1 ++ given 0 "a" 12 ++ given 1 "b" 5

lemma lowerCase_id : LowerCase fun text => text := ⟨fun _ => rfl, trim_trim⟩

def besideRun : Run (completions fun text => text) :=
  (completions fun text => text).replay (authorized 2) beside (by decide +kernel)

def twiceRun : Run (completions fun text => text) :=
  (completions fun text => text).replay (authorized 1) twice (by decide +kernel)

theorem signed_in_once_beside : SingleUse (fun text => text) besideRun :=
  signed_in_once lowerCase_id besideRun (authorized_good _ 2) rfl
    (Rules.replay_all (fun _ => rfl) (by decide +kernel))

/-- Whether a completion has completed, with the authorization of a state. -/
def Phase.signedIn (state : ℕ) : Phase → Bool
  | .completed t _ _ => t.state = state
  | _ => false

lemma completed_of_signedIn {k state : ℕ} (h : w.parties[k]?.any (Phase.signedIn state) = true) :
    ∃ t account credential, w.parties[k]? = some (.completed t account credential) ∧ t.state = state := by
  obtain ⟨p, hp⟩ := isSome_iff_exists.1 (isSome_of_any h)
  rw [hp, any_some] at h
  cases p with
  | completed t account credential => exact ⟨t, account, credential, hp, of_decide_eq_true h⟩
  | _ => cases h

/-- The second deletes an authorization that is not stored any more, and goes on. -/
theorem not_signed_in_once : ¬∀ lower, LowerCase lower → ∀ run : Run (completions lower),
    (run.world 0).shared.Good lower → (run.world 0).parties = [] → SingleUse lower run := by
  intro h
  obtain ⟨t, account, credential, hone, hstate⟩ :=
    @completed_of_signedIn (twiceRun.world 21) 0 0 (by decide +kernel)
  obtain ⟨t', account', credential', htwo, hstate'⟩ :=
    @completed_of_signedIn (twiceRun.world 21) 1 0 (by decide +kernel)
  have hsame := (h _ lowerCase_id twiceRun (authorized_good _ 1) rfl).once hone htwo (hstate.trans hstate'.symm)
  exact absurd hsame (by decide)

end Zelavis.Identity.SignIn
