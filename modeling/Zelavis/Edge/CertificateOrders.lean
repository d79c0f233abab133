import Zelavis.Edge.SystemStore
import Zelavis.Lib.Turns
import Zelavis.Lib.Unicode

/-!
# Orders of a certificate

`edge/certificates.ts` `orderCertificate`, for one hostname: any number of orders, each of which reads the
certificate, reads the lease, writes it where it was free, has a certificate issued, stores it and removes
the lease. Between any two calls of one order the others go on and the clock moves.
-/

namespace Zelavis.Edge.CertificateOrders

open Lib Turns

/-! ## Leases and certificates -/

/-- The lease of a hostname's order. Source: `orderCertificate`, its `lease`. -/
structure OrderLease where
  owner : Utf16
  expiresAt : ℕ
  deriving DecidableEq

/-- Source: `ZelavisEdgeCertificateRecord`, its `status`. -/
inductive CertificateStatus where
  | valid
  | expired
  | revoked
  deriving DecidableEq

/-- What an order reads and writes of a certificate. Source: `ZelavisEdgeCertificateRecord`. -/
structure Certificate where
  version : ℕ
  expiresAt : ℕ
  status : CertificateStatus
  deriving DecidableEq

/-- How long a lease lasts. Source: `orderCertificate`, its `leaseDurationMs`. -/
def leaseDurationMs : ℕ := 300000

def OrderLease.active (lease : OrderLease) (now : ℕ) : Bool := now < lease.expiresAt

/-- A certificate is good for more than thirty days. Source: `orderCertificate`, its
`daysRemaining`. -/
def Certificate.lasts (certificate : Certificate) (now : ℕ) : Bool :=
  now + 30 * 86400000 < certificate.expiresAt && certificate.status = .valid

/-- What is stored of a hostname, and the clock. -/
structure Shared where
  now : ℕ
  lease : Option (Versioned OrderLease)
  certificate : Option Certificate

/-- What an order comes to. -/
inductive Answer where
  | returned (certificate : Certificate)
  /-- `currently in progress by another controller`. -/
  | inProgress
  | failed
  deriving DecidableEq

/-- Where an order is. -/
inductive Phase where
  | asked (forceRenew : Bool)
  | found (forceRenew : Bool) (existing : Option Certificate)
  | asking (existing : Option Certificate)
  | looked (existing : Option Certificate) (observed : Option (Versioned OrderLease))
  | writing (existing : Option Certificate) (lease : OrderLease)
  | holding (existing : Option Certificate) (record : Versioned OrderLease)
  | storing (record : Versioned OrderLease) (certificate : Certificate)
  | releasing (record : Versioned OrderLease) (answer : Answer)
  | answered (record : Option (Versioned OrderLease)) (answer : Answer)
  deriving DecidableEq

def Phase.taken : Phase → Option (Versioned OrderLease)
  | .holding _ record => some record
  | .storing record _ => some record
  | .releasing record _ => some record
  | .answered record _ => record
  | _ => none

def Phase.held : Phase → Option (Versioned OrderLease)
  | .holding _ record => some record
  | .storing record _ => some record
  | .releasing record _ => some record
  | _ => none

/-! ## The steps of an order -/

/-- What an order finds outside. -/
inductive Event where
  | store (reply : Reply)
  | goOn
  | issued (expiresAt : ℕ)
  | threw
  deriving DecidableEq

/-- The next step of an order. Source: `orderCertificate`. -/
def advance : Event → Shared → Phase → Option (Shared × Phase)
  | .store reply, s, .asked forceRenew =>
    some (s, if reply = .done then .found forceRenew s.certificate else .answered none .failed)
  | .goOn, s, .found forceRenew existing =>
    some (s, (existing.filter fun c => !forceRenew && c.lasts s.now).elim (.asking existing) fun c =>
      .answered none (.returned c))
  | .store reply, s, .asking existing =>
    some (s, if reply = .done then .looked existing s.lease else .answered none .failed)
  | .goOn, s, .looked existing observed =>
    some (s,
      if observed.any (·.value.active s.now) then .answered none (existing.elim .inProgress .returned)
      else .writing existing ⟨utf16 "controller", s.now + leaseDurationMs⟩)
  | .store reply, s, .writing existing lease =>
    let record := setRecord s.now s.lease lease
    some (if reply.happens then { s with lease := some record } else s,
      if reply = .done then .holding existing record else .answered none .failed)
  | .issued expiresAt, s, .holding existing record =>
    some (s, .storing record ⟨existing.elim 0 Certificate.version + 1, expiresAt, .valid⟩)
  | .threw, s, .holding _ record => some (s, .releasing record .failed)
  | .store reply, s, .storing record certificate =>
    some (if reply.happens then { s with certificate := some certificate } else s,
      .releasing record (if reply = .done then .returned certificate else .failed))
  | .store reply, s, .releasing record answer =>
    some (if reply.happens then { s with lease := none } else s,
      .answered (some record) (if reply = .done then answer else .failed))
  | _, _, _ => none

/-- Any number of orders begin, each takes its steps, and the clock goes on. -/
def orders : Rules Shared Phase Event ℕ where
  begins
    | .asked _ => true
    | _ => false
  moves := advance
  passes later s := if s.now ≤ later then some { s with now := later } else none

/-! ## What a step does to the lease -/

variable {e : Event} {s s' : Shared} {p p' : Phase}

lemma advance_cases (h : advance e s p = some (s', p')) : s'.now = s.now ∧
    ((s'.lease = s.lease ∧ p'.taken = p.taken ∧ ∀ r, p'.held = some r → p.held = some r) ∨
      (∃ reply existing lease, e = .store reply ∧ p = .writing existing lease ∧ reply.happens = true ∧
        s'.lease = some (setRecord s.now s.lease lease) ∧
          ∀ r, p'.taken = some r → r = setRecord s.now s.lease lease) ∨
      ∃ reply record answer, e = .store reply ∧ p = .releasing record answer ∧
        reply.happens = true ∧ s'.lease = none ∧ p'.taken = some record ∧ p'.held = none) := by
  cases p with
  | asked forceRenew =>
    cases e with
    | store reply => cases h; refine ⟨rfl, .inl ⟨rfl, ?_⟩⟩; split <;> exact ⟨rfl, fun r hr => hr⟩
    | goOn | issued | threw => cases h
  | found forceRenew existing =>
    cases e with
    | goOn =>
      cases h
      refine ⟨rfl, .inl ⟨rfl, ?_⟩⟩
      cases existing.filter fun c => !forceRenew && c.lasts s.now with
      | none | some => exact ⟨rfl, fun r hr => hr⟩
    | store | issued | threw => cases h
  | asking existing =>
    cases e with
    | store reply => cases h; refine ⟨rfl, .inl ⟨rfl, ?_⟩⟩; split <;> exact ⟨rfl, fun r hr => hr⟩
    | goOn | issued | threw => cases h
  | looked existing observed =>
    cases e with
    | goOn => cases h; refine ⟨rfl, .inl ⟨rfl, ?_⟩⟩; split <;> exact ⟨rfl, fun r hr => hr⟩
    | store | issued | threw => cases h
  | writing existing lease =>
    cases e with
    | store reply =>
      cases h
      cases reply with
      | done => exact ⟨rfl, .inr (.inl ⟨.done, _, _, rfl, rfl, rfl, rfl, fun r hr => (Option.some.inj hr).symm⟩)⟩
      | refused => exact ⟨rfl, .inl ⟨rfl, rfl, fun r hr => hr⟩⟩
      | lost => exact ⟨rfl, .inr (.inl ⟨.lost, _, _, rfl, rfl, rfl, rfl, fun r hr => by cases hr⟩)⟩
    | goOn | issued | threw => cases h
  | holding existing record =>
    cases e with
    | issued | threw => cases h; exact ⟨rfl, .inl ⟨rfl, rfl, fun r hr => hr⟩⟩
    | store | goOn => cases h
  | storing record certificate =>
    cases e with
    | store reply =>
      cases h
      cases reply with
      | done | refused | lost => exact ⟨rfl, .inl ⟨rfl, rfl, fun r hr => hr⟩⟩
    | goOn | issued | threw => cases h
  | releasing record answer =>
    cases e with
    | store reply =>
      cases h
      cases reply with
      | done => exact ⟨rfl, .inr (.inr ⟨.done, _, _, rfl, rfl, rfl, rfl, rfl, rfl⟩)⟩
      | refused => exact ⟨rfl, .inl ⟨rfl, rfl, fun r hr => by cases hr⟩⟩
      | lost => exact ⟨rfl, .inr (.inr ⟨.lost, _, _, rfl, rfl, rfl, rfl, rfl, rfl⟩)⟩
    | goOn | issued | threw => cases h
  | answered _ _ => cases e <;> cases h

lemma taken_of_held {r : Versioned OrderLease} (h : p.held = some r) : p.taken = some r := by
  cases p with
  | holding | storing | releasing => exact h
  | _ => cases h

lemma taken_advance {r : Versioned OrderLease} (h : advance e s p = some (s', p'))
    (hr : p.taken = some r) : p'.taken = some r := by
  obtain ⟨-, ⟨-, hsame, -⟩ | ⟨reply, existing, lease, -, rfl, -⟩ |
    ⟨reply, record, answer, -, rfl, -, -, htaken, -⟩⟩ := advance_cases h
  · rw [hsame, hr]
  · cases hr
  · rw [htaken]
    exact hr

/-! ## Undisputed turns -/

def free (s : Shared) : Bool := s.lease.all fun r => !r.value.active s.now

/-- A lease is there to be replaced, or the moment is later than the version of any that was taken. -/
def later (w : World Shared Phase) : Bool :=
  w.shared.lease.isSome || w.parties.all fun p => p.taken.all fun r => r.updatedAt < w.shared.now

/-- A turn that writes the lease finds it free still, and the clock gone on; one that removes it finds its
own, or one that is free. -/
def undisputed (w : World Shared Phase) : Turn Phase Event ℕ → Bool
  | .move k (.store reply) =>
    match w.parties[k]? with
    | some (.writing _ _) => !reply.happens || (free w.shared && later w)
    | some (.releasing record _) => !reply.happens || w.shared.lease = some record || free w.shared
    | _ => true
  | _ => true

variable {w w' : World Shared Phase} {k k' : ℕ} {r r' : Versioned OrderLease}

def Has (w : World Shared Phase) (k : ℕ) (r : Versioned OrderLease) : Prop :=
  ∃ p, w.parties[k]? = some p ∧ p.held = some r ∧ r.value.active w.shared.now = true

def Had (w : World Shared Phase) (k : ℕ) (r : Versioned OrderLease) : Prop :=
  ∃ p, w.parties[k]? = some p ∧ p.taken = some r

/-- What undisputed turns keep. -/
structure Sound (w : World Shared Phase) : Prop where
  one : ∀ k k' r r', Has w k r → Has w k' r' → k = k'
  stored : ∀ k r, Has w k r → w.shared.lease = some r
  version : ∀ k r, Had w k r → ∀ stored, w.shared.lease = some stored → r.updatedAt ≤ stored.updatedAt

lemma Sound.of_fewer (h : Sound w) (hlease : w'.shared.lease = w.shared.lease)
    (hhas : ∀ k r, Has w' k r → Has w k r) (hhad : ∀ k r, Had w' k r → Had w k r) : Sound w' where
  one k k' r r' hr hr' := h.one k k' r r' (hhas k r hr) (hhas k' r' hr')
  stored k r hr := hlease.trans (h.stored k r (hhas k r hr))
  version k r hr stored hs := h.version k r (hhad k r hr) stored (hlease ▸ hs)

lemma not_active_of_free (h : free s = true) (hr : s.lease = some r) : r.value.active s.now = false := by
  unfold free at h
  rw [hr] at h
  exact Bool.not_eq_true' _ |>.mp h

lemma Sound.not_has_of_free (h : Sound w) (hfree : free w.shared = true) : ¬Has w k r := by
  intro hr
  obtain ⟨p, -, -, hactive⟩ := id hr
  rw [not_active_of_free hfree (h.stored k r hr)] at hactive
  exact Bool.noConfusion hactive

lemma Sound.lt_of_later (h : Sound w) (hlater : later w = true) (hr : Had w k r) (lease : OrderLease) :
    r.updatedAt < (setRecord w.shared.now w.shared.lease lease).updatedAt := by
  cases hstored : w.shared.lease with
  | some stored => exact (h.version k r hr stored hstored).trans_lt updatedAt_lt_setRecord
  | none =>
    obtain ⟨p, hp, htaken⟩ := hr
    unfold later at hlater
    rw [hstored, Option.isSome_none, Bool.false_or] at hlater
    have hall := List.all_eq_true.1 hlater p (List.mem_of_getElem? hp)
    rw [htaken, Option.all_some] at hall
    exact of_decide_eq_true hall

variable {parties : List Phase} {q : Phase}

section Moves

variable {s' : Shared} {p p' : Phase}

lemma getElem?_of_ne (hne : k ≠ k') (hq : (parties.set k p')[k']? = some q) : parties[k']? = some q := by
  rwa [List.getElem?_set_ne hne] at hq

lemma eq_of_set (hq : (parties.set k p')[k]? = some q) : q = p' := by
  rw [List.getElem?_set_self'] at hq
  obtain ⟨_, -, heq⟩ := Option.map_eq_some_iff.1 hq
  exact heq.symm

lemma Sound.write (h : Sound w) {lease : OrderLease} (hfree : free w.shared = true)
    (hlater : later w = true) (hnow : s'.now = w.shared.now)
    (hlease : s'.lease = some (setRecord w.shared.now w.shared.lease lease))
    (htaken : ∀ r, p'.taken = some r → r = setRecord w.shared.now w.shared.lease lease) :
    Sound ⟨s', w.parties.set k p'⟩ := by
  have hothers : ∀ k' r, Has ⟨s', w.parties.set k p'⟩ k' r → k' = k := by
    rintro k' r ⟨q, hq, hheld, hactive⟩
    by_contra hne
    refine h.not_has_of_free (k := k') (r := r) hfree ⟨q, getElem?_of_ne (Ne.symm hne) hq, hheld, ?_⟩
    rw [← hnow]
    exact hactive
  have hhad : ∀ k' r, Had ⟨s', w.parties.set k p'⟩ k' r →
      r.updatedAt ≤ (setRecord w.shared.now w.shared.lease lease).updatedAt := by
    rintro k' r ⟨q, hq, hr⟩
    by_cases hkk : k = k'
    · subst hkk
      cases eq_of_set hq
      exact (congrArg Versioned.updatedAt (htaken r hr)).le
    · exact (h.lt_of_later hlater ⟨q, getElem?_of_ne hkk hq, hr⟩ lease).le
  refine ⟨fun k₁ k₂ r r' hr hr' => ?_, fun k' r hr => ?_, fun k' r hr stored hs => ?_⟩
  · exact (hothers k₁ r hr).trans (hothers k₂ r' hr').symm
  · obtain rfl := hothers k' r hr
    obtain ⟨q, hq, hheld, -⟩ := hr
    cases eq_of_set hq
    rw [htaken r (taken_of_held hheld)]
    exact hlease
  · cases hlease.symm.trans hs
    exact hhad k' r hr

lemma Sound.remove (h : Sound w) {record : Versioned OrderLease} {answer : Answer}
    (hp : w.parties[k]? = some (Phase.releasing record answer))
    (hown : w.shared.lease = some record ∨ free w.shared = true) (hnow : s'.now = w.shared.now)
    (hlease : s'.lease = none) (hheld : p'.held = none) : Sound ⟨s', w.parties.set k p'⟩ := by
  have hnone : ∀ k' r, ¬Has ⟨s', w.parties.set k p'⟩ k' r := by
    rintro k' r ⟨q, hq, hr, hactive⟩
    by_cases hkk : k = k'
    · subst hkk
      cases eq_of_set hq
      cases hheld.symm.trans hr
    · have hhas : Has w k' r := ⟨q, getElem?_of_ne hkk hq, hr, by rw [← hnow]; exact hactive⟩
      obtain hown | hfree := hown
      · cases hown.symm.trans (h.stored k' r hhas)
        -- its own lease would be another's too
        exact hkk (h.one k k' record record ⟨_, hp, rfl, by rw [← hnow]; exact hactive⟩ hhas)
      · exact h.not_has_of_free hfree hhas
  refine ⟨fun k₁ _ r _ hr => (hnone k₁ r hr).elim, fun k' r hr => (hnone k' r hr).elim, ?_⟩
  intro k' r _ stored hs
  cases hlease.symm.trans hs

end Moves

lemma Sound.play (h : Sound w) {turn : Turn Phase Event ℕ} (hplay : orders.play w turn = some w')
    (hun : undisputed w turn = true) : Sound w' := by
  obtain ⟨-, rfl⟩ | ⟨party, -, hb, rfl⟩ | ⟨k, e, p, s', p', rfl, hp, hmove, rfl⟩ |
    ⟨later, s', -, hpass, rfl⟩ := Rules.play_cases hplay
  · exact h
  · have hnone : party.taken = none := by
      cases party with
      | asked _ => rfl
      | _ => cases hb
    have hold : ∀ (k : ℕ) q, (w.parties ++ [party])[k]? = some q → q.taken ≠ none →
        w.parties[k]? = some q := by
      intro k q hq htaken
      rw [List.getElem?_append] at hq
      split_ifs at hq with hk
      · exact hq
      · obtain rfl : q = party := List.mem_singleton.1 (List.mem_of_getElem? hq)
        exact absurd hnone htaken
    refine h.of_fewer rfl ?_ ?_
    · rintro k r ⟨q, hq, hheld, hactive⟩
      exact ⟨q, hold k q hq (by rw [taken_of_held hheld]; exact Option.some_ne_none r), hheld, hactive⟩
    · rintro k r ⟨q, hq, htaken⟩
      exact ⟨q, hold k q hq (by rw [htaken]; exact Option.some_ne_none r), htaken⟩
  · have hmove : advance e w.shared p = some (s', p') := hmove
    obtain ⟨hnow, ⟨hlease, htaken, hheld⟩ | ⟨reply, existing, lease, rfl, rfl, hdone, hlease, htaken⟩ |
      ⟨reply, record, answer, rfl, rfl, hdone, hlease, -, hheld⟩⟩ := advance_cases hmove
    · refine h.of_fewer hlease ?_ ?_
      · rintro k' r ⟨q, hq, hr, hactive⟩
        rw [hnow] at hactive
        by_cases hkk : k = k'
        · subst hkk
          cases eq_of_set hq
          exact ⟨p, hp, hheld r hr, hactive⟩
        · exact ⟨q, getElem?_of_ne hkk hq, hr, hactive⟩
      · rintro k' r ⟨q, hq, hr⟩
        by_cases hkk : k = k'
        · subst hkk
          cases eq_of_set hq
          exact ⟨p, hp, htaken ▸ hr⟩
        · exact ⟨q, getElem?_of_ne hkk hq, hr⟩
    · simp only [undisputed, hp, hdone, Bool.not_true, Bool.false_or, Bool.and_eq_true] at hun
      exact h.write hun.1 hun.2 hnow hlease htaken
    · simp only [undisputed, hp, hdone, Bool.not_true, Bool.false_or, Bool.or_eq_true,
        decide_eq_true_eq] at hun
      exact h.remove hp hun hnow hlease hheld
  · simp only [orders] at hpass
    split_ifs at hpass with hlater
    cases hpass
    refine h.of_fewer rfl ?_ fun k r hr => hr
    rintro k r ⟨q, hq, hheld, hactive⟩
    exact ⟨q, hq, hheld, decide_eq_true (hlater.trans_lt (of_decide_eq_true hactive))⟩

/-! ## Runs -/

def Takes (run : Run orders) (i k : ℕ) (r : Versioned OrderLease) : Prop :=
  (∀ r', ¬Had (run.world i) k r') ∧ Had (run.world (i + 1)) k r

/-- What the lease is for. -/
structure Exclusive (run : Run orders) : Prop where
  one : ∀ i k k' r r', Has (run.world i) k r → Has (run.world i) k' r' → k = k'
  stored : ∀ i k r, Has (run.world i) k r → (run.world i).shared.lease = some r
  rises : ∀ i j k k' r r', i < j → Takes run i k r → Takes run j k' r' → r.updatedAt < r'.updatedAt

section

variable (run : Run orders)

lemma sound_at (hstart : (run.world 0).parties = [])
    (hun : ∀ i, undisputed (run.world i) (run.turn i) = true) (i : ℕ) : Sound (run.world i) := by
  have hnone : ∀ (k : ℕ) p, (run.world 0).parties[k]? ≠ some p := fun k p hp => by
    rw [hstart] at hp
    cases hp
  refine run.kept (i := 0) (fun i h => h.play (run.plays i) (hun i)) ⟨?_, ?_, ?_⟩ (Nat.zero_le i)
  · rintro k k' r r' ⟨p, hp, -⟩
    exact (hnone k p hp).elim
  · rintro k r ⟨p, hp, -⟩
    exact (hnone k p hp).elim
  · rintro k r ⟨p, hp, -⟩
    exact (hnone k p hp).elim

lemma had_of_le {i j : ℕ} (h : Had (run.world i) k r) (hij : i ≤ j) : Had (run.world j) k r := by
  refine run.kept (Q := fun w => Had w k r) (fun i h => ?_) h hij
  obtain ⟨p, hp, hr⟩ := h
  obtain hp' | ⟨e, q, -, hq, hmove⟩ := Rules.play_stays (run.plays i) hp
  · exact ⟨p, hp', hr⟩
  · exact ⟨q, hq, taken_advance hmove hr⟩

lemma lt_of_takes {j : ℕ} (h : Sound (run.world j))
    (hun : undisputed (run.world j) (run.turn j) = true) (htakes : Takes run j k' r')
    (hhad : Had (run.world j) k r) : r.updatedAt < r'.updatedAt := by
  obtain ⟨hnew, q, hq, htaken⟩ := htakes
  obtain hsame | ⟨-, hb⟩ | ⟨e, p, hturn, hp, hmove⟩ := run.stays_or_moves hq
  · exact (hnew r' ⟨q, hsame, htaken⟩).elim
  · cases q with
    | asked _ => cases htaken
    | _ => cases hb
  · obtain ⟨-, ⟨-, hsame, -⟩ | ⟨reply, existing, lease, rfl, rfl, hdone, -, hr'⟩ |
      ⟨reply, record, answer, rfl, rfl, -⟩⟩ := advance_cases hmove
    · exact (hnew r' ⟨p, hp, hsame ▸ htaken⟩).elim
    · rw [hturn] at hun
      simp only [undisputed, hp, hdone, Bool.not_true, Bool.false_or, Bool.and_eq_true] at hun
      rw [hr' r' htaken]
      exact h.lt_of_later hun.2 hhad lease
    · exact (hnew record ⟨_, hp, rfl⟩).elim

/-- The lease is exclusive in every run in which no order writes it while another's lasts, none removes
another's that lasts, and the clock goes on between two that are taken. -/
theorem orders_exclusive (hstart : (run.world 0).parties = [])
    (hun : ∀ i, undisputed (run.world i) (run.turn i) = true) : Exclusive run where
  one i := (sound_at run hstart hun i).one
  stored i := (sound_at run hstart hun i).stored
  rises _ j _ _ _ _ hij htakes htakes' :=
    lt_of_takes run (sound_at run hstart hun j) (hun j) htakes'
      (had_of_le run htakes.2 (Nat.succ_le_of_lt hij))

end

/-- The turns of an order that has its certificate issued, from its beginning to its end. -/
def wholeOrder (k : ℕ) : List (Turn Phase Event ℕ) := [
  .begin (.asked true), .move k (.store .done), .move k .goOn, .move k (.store .done), .move k .goOn,
  .move k (.store .done), .move k (.issued 9000000000), .move k (.store .done),
  .move k (.store .done)]

def firstLease : OrderLease := ⟨utf16 "controller", leaseDurationMs⟩

def nothingStored : World Shared Phase := ⟨⟨0, none, none⟩, []⟩

def oneByOne : Run orders :=
  orders.replay nothingStored (wholeOrder 0 ++ [.pass 1] ++ wholeOrder 1) (by decide +kernel)

/-- Two orders, both of which read the lease before either has written it. -/
def bothAtOnce : Run orders :=
  orders.replay nothingStored [
    .begin (.asked true), .begin (.asked true),
    .move 0 (.store .done), .move 0 .goOn, .move 0 (.store .done), .move 0 .goOn,
    .move 1 (.store .done), .move 1 .goOn, .move 1 (.store .done), .move 1 .goOn,
    .move 0 (.store .done), .move 1 (.store .done)] (by decide +kernel)

theorem orders_exclusive_oneByOne :
    Exclusive oneByOne ∧ (oneByOne.world 19).shared.certificate = some ⟨2, 9000000000, .valid⟩ := by
  have hun : ∀ i, undisputed (oneByOne.world i) (oneByOne.turn i) = true :=
    Rules.replay_all (fun _ => rfl) (by decide +kernel)
  exact ⟨orders_exclusive oneByOne rfl hun, by decide +kernel⟩

/-- Two orders have the lease at once. -/
theorem not_orders_exclusive : ¬∀ run : Run orders, (run.world 0).parties = [] → Exclusive run := by
  intro h
  have hfirst : Has (bothAtOnce.world 12) 0 ⟨firstLease, 0⟩ :=
    ⟨.holding none ⟨firstLease, 0⟩, by decide +kernel, rfl, by decide⟩
  have hsecond : Has (bothAtOnce.world 12) 1 ⟨firstLease, 1⟩ :=
    ⟨.holding none ⟨firstLease, 1⟩, by decide +kernel, rfl, by decide⟩
  exact absurd ((h bothAtOnce rfl).one 12 0 1 _ _ hfirst hsecond) (by decide)

end Zelavis.Edge.CertificateOrders
