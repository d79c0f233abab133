import Zelavis.Platform.ProjectPlacementAuthority

/-!
# The supervision of a lease by an agent

`placement-lease.ts`: an agent runs a project for as long as its placement is leased. It reads the lease
now and then, counts its remaining lifetime from the local moment at which it asked, and stops the
project when that is over.

A piece of the program that waits for nothing takes no time, and a timer fires when it is due: the clock
does not pass a timer that has not fired.
-/

namespace Zelavis.Agent.PlacementLease

open Lib Platform

/-! ## The lease -/

/-- What is supervised. Source: `AgentPlacementIdentity`. -/
structure Identity where
  projectId : Utf16
  nodeId : Utf16
  ownerSession : Utf16
  epoch : ℚ
  deriving DecidableEq

/-- A lease as the authority tells it; no number where it is not a finite one. Source:
`AgentPlacementLease`. -/
structure Lease where
  identity : Identity
  state : Standing
  leaseExpiresAt : Option ℚ
  authorityNow : Option ℚ

/-- What a read comes to. -/
inductive Reading where
  | failed
  | answered (lease : Option Lease)

/-- The moments of a lease that is held for the one who is supervised and not over. -/
def Lease.moments (l : Lease) (identity : Identity) : Option (ℚ × ℚ) :=
  match l.leaseExpiresAt, l.authorityNow with
  | some expiresAt, some authorityNow =>
    if l.state = .active ∧ l.identity = identity ∧ authorityNow < expiresAt then
      some (expiresAt, authorityNow)
    else none
  | _, _ => none

/-! ## The supervisor -/

/-- What a timer does when it fires. -/
inductive Alarm where
  | check
  | fence
  deriving DecidableEq

/-- Source: `createAgentPlacementLeaseSupervisor`, its variables. -/
structure Supervisor where
  identity : Identity
  checkInterval : ℚ
  deadline : Option ℚ := none
  publishedExpiry : Option ℚ := none
  timer : Option (ℚ × Alarm) := none
  expiryTimer : Option ℚ := none
  fenced : Bool := false
  closed : Bool := false
  stopped : Bool := false
  stopping : Bool := false
  pending : Option ℚ := none

/-- How long a supervisor waits before it reads again. Source: `createAgentPlacementLeaseSupervisor`, its `checkInterval`. -/
def checkInterval (checkIntervalMs : Option ℚ) : ℚ := max 1 (min (checkIntervalMs.getD 5000) 60000)

/-- Source: `fence`, up to where the project is being stopped. -/
def fence (s : Supervisor) : Supervisor :=
  if s.closed || s.stopped || s.stopping then s
  else { s with
    fenced := true
    timer := none
    expiryTimer := none
    stopping := true }

/-- Source: `fence`, from where the project is stopped or could not be. -/
def fenceDone (s : Supervisor) (now : ℚ) (done : Bool) : Supervisor :=
  if done then { s with stopped := true, stopping := false }
  else if s.closed then { s with stopping := false }
  else { s with timer := some (now + 1000, .fence), stopping := false }

def schedule (s : Supervisor) (now : ℚ) : Supervisor :=
  if s.closed || s.fenced then s
  else
    let remaining := s.deadline.elim 0 fun deadline => deadline - now
    { s with
      timer := some (now + max 0 (min remaining s.checkInterval), .check)
      expiryTimer := some (now + max 0 remaining) }

/-- Source: `check`, up to where the lease is read; the answer, where it is known. -/
def check (s : Supervisor) (now : ℚ) : Supervisor × Option Bool :=
  if s.closed || s.fenced then (s, some false)
  else if s.pending.isSome then (s, none)
  else if s.deadline.any fun deadline => deadline ≤ now then (fence s, some false)
  else ({ s with pending := some now }, none)

/-- The deadline that comes of a read. Source: `check`. -/
def nextDeadline (s : Supervisor) (expiresAt proposed : ℚ) : Option ℚ :=
  if s.publishedExpiry.all fun published => published < expiresAt then some proposed
  else s.deadline.map fun deadline => min deadline proposed

/-- Source: `check`, from where the lease is read. -/
def afterRead (s : Supervisor) (requestedAt now : ℚ) (reading : Reading) : Supervisor × Bool :=
  let s := { s with pending := none }
  match reading with
  | .failed => (fence s, false)
  | .answered lease =>
    if s.closed || s.fenced then (s, false)
    else
      match lease.bind fun l => l.moments s.identity with
      | none => (fence s, false)
      | some (expiresAt, authorityNow) =>
        if requestedAt + (expiresAt - authorityNow) ≤ now then (fence s, false)
        else
          (schedule { s with
            deadline := nextDeadline s expiresAt (requestedAt + (expiresAt - authorityNow))
            publishedExpiry := some (s.publishedExpiry.elim expiresAt fun published =>
              max published expiresAt) } now, true)

def close (s : Supervisor) : Supervisor := { s with closed := true, timer := none, expiryTimer := none }

/-! ## What happens to it -/

/-- A read that was taken up: when it was asked for, and what it told. -/
structure Taken where
  requestedAt : ℚ
  leaseExpiresAt : ℚ
  authorityNow : ℚ

def Taken.bound (r : Taken) : ℚ := r.requestedAt + (r.leaseExpiresAt - r.authorityNow)

/-- The supervisor, the clock, the last read that was taken up, and when the project was fenced. -/
structure World where
  supervisor : Supervisor
  now : ℚ
  last : Option Taken
  fencedAt : Option ℚ

/-- What happens. -/
inductive Event where
  | tick (now : ℚ)
  | check
  | read (reading : Reading)
  | timer
  | expiry
  | stopped (done : Bool)
  | close

/-- A supervisor goes on as another; where that one fences, the moment is noted. -/
def World.goesOn (w : World) (s : Supervisor) : World := { w with
  supervisor := s
  fencedAt := if !w.supervisor.fenced && s.fenced then some w.now else w.fencedAt }

def takenOf (s : Supervisor) (requestedAt : ℚ) : Reading → Option Taken
  | .failed => none
  | .answered lease => (lease.bind fun l => l.moments s.identity).map fun moments =>
    ⟨requestedAt, moments.1, moments.2⟩

/-- One event, and what it answers to those who asked whether the placement is held. -/
def step (w : World) : Event → Option (World × Option Bool)
  | .tick now =>
    if w.now ≤ now ∧ (w.supervisor.timer.all fun timer => now ≤ timer.1) = true ∧
        (w.supervisor.expiryTimer.all fun due => now ≤ due) = true then
      some ({ w with now }, none)
    else none
  | .check => some (w.goesOn (check w.supervisor w.now).1, (check w.supervisor w.now).2)
  | .read reading =>
    match w.supervisor.pending with
    | none => none
    | some requestedAt =>
      let next := afterRead w.supervisor requestedAt w.now reading
      if next.2 then
        some ({ w.goesOn next.1 with last := takenOf w.supervisor requestedAt reading }, some true)
      else some (w.goesOn next.1, some false)
  | .timer =>
    match w.supervisor.timer with
    | none => none
    | some (due, alarm) =>
      if due ≤ w.now then
        let s := { w.supervisor with timer := none }
        match alarm with
        | .check => some (w.goesOn (check s w.now).1, none)
        | .fence => some (w.goesOn (fence s), none)
      else none
  | .expiry =>
    match w.supervisor.expiryTimer with
    | none => none
    | some due =>
      if due ≤ w.now then some (w.goesOn (fence { w.supervisor with expiryTimer := none }), none)
      else none
  | .stopped done =>
    if w.supervisor.stopping then some (w.goesOn (fenceDone w.supervisor w.now done), none) else none
  | .close => some (w.goesOn (close w.supervisor), none)

def runFrom (w : World) (events : List Event) : Option World :=
  events.foldlM (fun w event => (step w event).map Prod.fst) w

def created (identity : Identity) (checkIntervalMs : Option ℚ) (now : ℚ) : World where
  supervisor := { identity, checkInterval := checkInterval checkIntervalMs }
  now := now
  last := none
  fencedAt := none

/-! ## The deadline is in force -/

/-- What holds at every moment: nothing is stopped that is not to be, a project that is to be stopped
was noted to be, in time, and while it is not, the deadline is no later than the last read that was
taken up allows, and its timer is due then. -/
structure Sound (w : World) : Prop where
  stops : w.supervisor.stopped = true ∨ w.supervisor.stopping = true → w.supervisor.fenced = true
  noted : w.fencedAt.isSome = w.supervisor.fenced
  idle : w.supervisor.fenced = false → w.supervisor.closed = false → w.last = none →
    w.supervisor.deadline = none ∧ w.supervisor.publishedExpiry = none
  inForce : w.supervisor.fenced = false → w.supervisor.closed = false → ∀ r, w.last = some r →
    ∃ d, w.supervisor.deadline = some d ∧ w.supervisor.publishedExpiry.isSome = true ∧
      d ≤ r.bound ∧ w.supervisor.expiryTimer = some d ∧ w.now ≤ d
  inTime : ∀ r t, w.last = some r → w.fencedAt = some t → t ≤ r.bound

variable {w w' : World} {s : Supervisor}

/-- A supervisor is as another apart from its timers and the read that is under way. -/
structure Alike (s s' : Supervisor) : Prop where
  fenced : s'.fenced = s.fenced
  closed : s'.closed = s.closed
  stopped : s'.stopped = s.stopped
  stopping : s'.stopping = s.stopping

lemma Sound.settled (h : Sound w) (hfenced : s.fenced = w.supervisor.fenced)
    (hstops : s.stopped = true ∨ s.stopping = true → s.fenced = true)
    (hover : s.fenced = true ∨ s.closed = true) : Sound (w.goesOn s) := by
  have hfencedAt : (w.goesOn s).fencedAt = w.fencedAt := by
    unfold World.goesOn
    rw [hfenced]
    cases w.supervisor.fenced <;> rfl
  refine ⟨hstops, ?_, fun hf hc => ?_, fun hf hc => ?_, fun r t hr ht => ?_⟩
  · rw [hfencedAt, h.noted]
    exact hfenced.symm
  · obtain hover | hover := hover
    · exact absurd (hf.symm.trans hover) (by decide)
    · exact absurd (hc.symm.trans hover) (by decide)
  · obtain hover | hover := hover
    · exact absurd (hf.symm.trans hover) (by decide)
    · exact absurd (hc.symm.trans hover) (by decide)
  · rw [hfencedAt] at ht
    exact h.inTime r t hr ht

lemma Sound.fence (h : Sound w) (hs : Alike w.supervisor s) : Sound (w.goesOn (fence s)) := by
  unfold PlacementLease.fence
  split_ifs with hdone
  · refine h.settled hs.fenced (fun hstop => ?_) ?_
    · rw [hs.fenced]
      exact h.stops (by rw [← hs.stopped, ← hs.stopping]; exact hstop)
    · rw [Bool.or_eq_true, Bool.or_eq_true] at hdone
      obtain (hclosed | hstopped) | hstopping := hdone
      · exact .inr hclosed
      · exact .inl (by rw [hs.fenced]; exact h.stops (.inl (hs.stopped ▸ hstopped)))
      · exact .inl (by rw [hs.fenced]; exact h.stops (.inr (hs.stopping ▸ hstopping)))
  · rw [Bool.or_eq_true, Bool.or_eq_true, not_or, not_or, Bool.not_eq_true] at hdone
    have hclosed : w.supervisor.closed = false := by rw [← hs.closed]; exact hdone.1.1
    refine ⟨fun _ => rfl, ?_, fun hf => Bool.noConfusion hf, fun hf => Bool.noConfusion hf,
      fun r t hr ht => ?_⟩
    · unfold World.goesOn
      cases hf : w.supervisor.fenced with
      | false => rfl
      | true => exact h.noted.trans hf
    · cases hf : w.supervisor.fenced with
      | true =>
        have hsame : w.fencedAt = some t := by
          unfold World.goesOn at ht
          rw [hf] at ht
          exact ht
        exact h.inTime r t hr hsame
      | false =>
        have hnow : some w.now = some t := by
          unfold World.goesOn at ht
          rw [hf] at ht
          exact ht
        cases hnow
        obtain ⟨d, -, -, hbound, -, hd⟩ := h.inForce hf hclosed r hr
        exact hd.trans hbound

section

variable (h : Sound w) (hs : Alike w.supervisor s) (hdeadline : s.deadline = w.supervisor.deadline)
  (hpublished : s.publishedExpiry = w.supervisor.publishedExpiry)
  (hexpiry : s.expiryTimer = w.supervisor.expiryTimer)
include h hs hdeadline hpublished hexpiry

lemma Sound.alike : Sound (w.goesOn s) := by
  have hfencedAt : (w.goesOn s).fencedAt = w.fencedAt := by
    unfold World.goesOn
    rw [hs.fenced]
    cases w.supervisor.fenced <;> rfl
  refine ⟨fun hstop => ?_, ?_, fun hf hc hl => ?_, fun hf hc r hr => ?_, fun r t hr ht => ?_⟩
  · rw [World.goesOn, hs.fenced]
    rw [World.goesOn, hs.stopped, hs.stopping] at hstop
    exact h.stops hstop
  · rw [hfencedAt, h.noted]
    exact hs.fenced.symm
  · rw [World.goesOn, hdeadline, hpublished]
    exact h.idle (hs.fenced ▸ hf) (hs.closed ▸ hc) hl
  · rw [World.goesOn, hdeadline, hpublished, hexpiry]
    exact h.inForce (hs.fenced ▸ hf) (hs.closed ▸ hc) r hr
  · rw [hfencedAt] at ht
    exact h.inTime r t hr ht

lemma Sound.check : Sound (w.goesOn (check s w.now).1) := by
  unfold PlacementLease.check
  split_ifs
  · exact h.alike hs hdeadline hpublished hexpiry
  · exact h.alike hs hdeadline hpublished hexpiry
  · exact h.fence hs
  · exact h.alike ⟨hs.fenced, hs.closed, hs.stopped, hs.stopping⟩ hdeadline hpublished hexpiry

end

lemma nextDeadline_eq (h : Sound w) (hf : w.supervisor.fenced = false)
    (hc : w.supervisor.closed = false) (expiresAt : ℚ) {proposed : ℚ} (hnow : w.now < proposed) :
    ∃ d, nextDeadline w.supervisor expiresAt proposed = some d ∧ d ≤ proposed ∧ w.now ≤ d := by
  unfold nextDeadline
  split_ifs with hlater
  · exact ⟨proposed, rfl, le_rfl, hnow.le⟩
  · cases hl : w.last with
    | none =>
      rw [(h.idle hf hc hl).2] at hlater
      exact absurd rfl hlater
    | some r =>
      obtain ⟨d, hd, -, -, -, hle⟩ := h.inForce hf hc r hl
      rw [hd]
      exact ⟨min d proposed, rfl, min_le_right _ _, le_min hle hnow.le⟩

variable {reading : Reading} {requestedAt : ℚ}

lemma Sound.refused (h : Sound w) (ha : (afterRead w.supervisor requestedAt w.now reading).2 = false) :
    Sound (w.goesOn (afterRead w.supervisor requestedAt w.now reading).1) := by
  have hs : Alike w.supervisor { w.supervisor with pending := none } := ⟨rfl, rfl, rfl, rfl⟩
  cases reading with
  | failed => exact h.fence hs
  | answered lease =>
    unfold afterRead at ha ⊢
    dsimp only at ha ⊢
    split_ifs at ha ⊢ with hover
    · exact h.alike hs rfl rfl rfl
    · cases hm : lease.bind fun l => l.moments w.supervisor.identity with
      | none => exact h.fence hs
      | some moments =>
        rw [hm] at ha
        obtain ⟨expiresAt, authorityNow⟩ := moments
        dsimp only at ha ⊢
        split_ifs at ha ⊢ with hlate
        exact h.fence hs

lemma schedule_eq {now d : ℚ} (hc : s.closed = false) (hf : s.fenced = false)
    (hd : s.deadline = some d) (hnow : now ≤ d) :
    ∃ timer, schedule s now = { s with timer, expiryTimer := some d } := by
  have hdue : now + max 0 (d - now) = d := by
    rw [max_eq_right (sub_nonneg.2 hnow), add_sub_cancel]
  exact ⟨some (now + max 0 (min (d - now) s.checkInterval), .check), by
    simp [schedule, hc, hf, hd, hdue]⟩

lemma Sound.scheduled (h : Sound w) {r : Taken} {d : ℚ} (hf : w.supervisor.fenced = false)
    (hc : w.supervisor.closed = false) (hs : Alike w.supervisor s) (hd : s.deadline = some d)
    (hpublished : s.publishedExpiry.isSome = true) (hbound : d ≤ r.bound) (hnow : w.now ≤ d) :
    Sound { w.goesOn (schedule s w.now) with last := some r } := by
  have hsc : s.closed = false := hs.closed.trans hc
  have hsf : s.fenced = false := hs.fenced.trans hf
  obtain ⟨timer, hscheduled⟩ := schedule_eq hsc hsf hd hnow
  have hnone : w.fencedAt = none := by
    apply Option.not_isSome_iff_eq_none.1
    rw [h.noted, hf]
    decide
  have hfencedAt : (w.goesOn (schedule s w.now)).fencedAt = none := by
    rw [hscheduled, World.goesOn, hf, hsf]
    exact hnone
  refine ⟨fun hstop => ?_, ?_, fun _ _ hl => absurd hl (Option.some_ne_none r),
    fun _ _ r' hr' => ?_, fun r' t _ ht => ?_⟩
  · rw [World.goesOn, hscheduled] at hstop ⊢
    rw [hs.fenced]
    exact h.stops (by rw [← hs.stopped, ← hs.stopping]; exact hstop)
  · rw [hfencedAt, World.goesOn, hscheduled]
    exact hsf.symm
  · cases hr'
    rw [World.goesOn, hscheduled]
    exact ⟨d, hd, hpublished, hbound, rfl, hnow⟩
  · rw [hfencedAt] at ht
    cases ht

lemma Sound.taken (h : Sound w)
    (ha : (afterRead w.supervisor requestedAt w.now reading).2 = true) :
    w.supervisor.fenced = false ∧ w.supervisor.closed = false ∧
    Sound { w.goesOn (afterRead w.supervisor requestedAt w.now reading).1 with
      last := takenOf w.supervisor requestedAt reading } ∧
    ∃ r, takenOf w.supervisor requestedAt reading = some r ∧ w.now < r.bound := by
  cases reading with
  | failed => cases ha
  | answered lease =>
    unfold afterRead takenOf at *
    dsimp only at ha ⊢
    split_ifs at ha ⊢ with hover
    rw [Bool.or_eq_true, not_or, Bool.not_eq_true, Bool.not_eq_true] at hover
    obtain ⟨hc, hf⟩ := hover
    refine ⟨hf, hc, ?_⟩
    cases hm : lease.bind fun l => l.moments w.supervisor.identity with
    | none =>
      rw [hm] at ha
      cases ha
    | some moments =>
      rw [hm] at ha
      obtain ⟨expiresAt, authorityNow⟩ := moments
      dsimp only at ha ⊢
      split_ifs at ha ⊢ with hlate
      rw [not_le] at hlate
      refine ⟨?_, ⟨requestedAt, expiresAt, authorityNow⟩, rfl, hlate⟩
      obtain ⟨d, hd, hbound, hnow⟩ := nextDeadline_eq h hf hc expiresAt hlate
      exact h.scheduled (r := ⟨requestedAt, expiresAt, authorityNow⟩) hf hc ⟨rfl, rfl, rfl, rfl⟩ hd rfl
        hbound hnow

/-! ## Every run -/

variable {answer : Option Bool} {event : Event}

lemma step_cases (h : step w event = some (w', answer)) : (∃ now, event = .tick now ∧ w.now ≤ now ∧
      (∀ due, w.supervisor.expiryTimer = some due → now ≤ due) ∧ w' = { w with now } ∧
      answer = none) ∨
    (∃ s, Alike w.supervisor s ∧ s.deadline = w.supervisor.deadline ∧
      s.publishedExpiry = w.supervisor.publishedExpiry ∧
      s.expiryTimer = w.supervisor.expiryTimer ∧ w' = w.goesOn (check s w.now).1 ∧
      answer ≠ some true) ∨
    (∃ requestedAt reading, w.supervisor.pending = some requestedAt ∧
      (((afterRead w.supervisor requestedAt w.now reading).2 = true ∧ answer = some true ∧
        w' = { w.goesOn (afterRead w.supervisor requestedAt w.now reading).1 with
          last := takenOf w.supervisor requestedAt reading }) ∨
      ((afterRead w.supervisor requestedAt w.now reading).2 = false ∧ answer = some false ∧
        w' = w.goesOn (afterRead w.supervisor requestedAt w.now reading).1))) ∨
    (∃ s, Alike w.supervisor s ∧ w' = w.goesOn (fence s) ∧ answer = none) ∨
    (∃ done, w.supervisor.stopping = true ∧ w' = w.goesOn (fenceDone w.supervisor w.now done) ∧
      answer = none) ∨
    (w' = w.goesOn (close w.supervisor) ∧ answer = none) := by
  cases event with
  | tick now =>
    simp only [step] at h
    split_ifs at h with hnow
    cases h
    refine .inl ⟨now, rfl, hnow.1, fun due hdue => ?_, rfl, rfl⟩
    have hall := hnow.2.2
    rw [hdue] at hall
    exact of_decide_eq_true hall
  | check =>
    cases h
    refine .inr (.inl ⟨w.supervisor, ⟨rfl, rfl, rfl, rfl⟩, rfl, rfl, rfl, rfl, ?_⟩)
    unfold check
    split_ifs <;> exact fun h => by cases h
  | read reading =>
    simp only [step] at h
    cases hp : w.supervisor.pending with
    | none =>
      rw [hp] at h
      cases h
    | some requestedAt =>
      rw [hp] at h
      dsimp only at h
      refine .inr (.inr (.inl ⟨requestedAt, reading, rfl, ?_⟩))
      split_ifs at h with htaken
      · cases h
        exact .inl ⟨htaken, rfl, rfl⟩
      · cases h
        exact .inr ⟨Bool.eq_false_iff.2 htaken, rfl, rfl⟩
  | timer =>
    simp only [step] at h
    cases ht : w.supervisor.timer with
    | none =>
      rw [ht] at h
      cases h
    | some timer =>
      obtain ⟨due, alarm⟩ := timer
      rw [ht] at h
      dsimp only at h
      split_ifs at h with hdue
      cases alarm with
      | check =>
        cases h
        exact .inr (.inl ⟨{ w.supervisor with timer := none }, ⟨rfl, rfl, rfl, rfl⟩, rfl, rfl, rfl,
          rfl, by decide⟩)
      | fence =>
        cases h
        exact .inr (.inr (.inr (.inl
          ⟨{ w.supervisor with timer := none }, ⟨rfl, rfl, rfl, rfl⟩, rfl, rfl⟩)))
  | expiry =>
    simp only [step] at h
    cases ht : w.supervisor.expiryTimer with
    | none =>
      rw [ht] at h
      cases h
    | some due =>
      rw [ht] at h
      dsimp only at h
      split_ifs at h with hdue
      cases h
      exact .inr (.inr (.inr (.inl
        ⟨{ w.supervisor with expiryTimer := none }, ⟨rfl, rfl, rfl, rfl⟩, rfl, rfl⟩)))
  | stopped done =>
    simp only [step] at h
    split_ifs at h with hstopping
    cases h
    exact .inr (.inr (.inr (.inr (.inl ⟨done, hstopping, rfl, rfl⟩))))
  | close =>
    cases h
    exact .inr (.inr (.inr (.inr (.inr ⟨rfl, rfl⟩))))

end Zelavis.Agent.PlacementLease
