import Mathlib.Data.List.Infix
import Zelavis.Lib.Turns

/-!
# Attempts to sign in, and the block on them

`security-service.ts`, for one subject: an attempt reads the clock and then whether the subject is
blocked; its credentials are verified; its failure is recorded, and a block set where there were enough of
them, or its success clears what was recorded. Any number of attempts go on beside each other.
-/

namespace Zelavis.Identity.Lockout

open Lib Turns List

/-! ## What is recorded -/

/-- Source: `AuthSecurityService`, its limits, each a `positiveInteger`. -/
structure Limits where
  maxAttempts : ℕ
  windowMs : ℕ
  blockMs : ℕ
  one_le_maxAttempts : 1 ≤ maxAttempts
  one_le_windowMs : 1 ≤ windowMs
  one_le_blockMs : 1 ≤ blockMs

/-- What is recorded of a subject. Source: `AuthAttemptState`. -/
structure AttemptState where
  failures : List ℕ
  blockedUntil : Option ℕ
  updatedAt : ℕ
  deriving DecidableEq

/-- The last so many. Source: `Array.prototype.slice` of a negative start. -/
def lastOf {α : Type} (n : ℕ) (l : List α) : List α := l.drop (l.length - n)

/-- What a failure at a moment leaves recorded. Source: `authenticationFailed`. -/
def authenticationFailed (limits : Limits) (now : ℕ) (current : Option AttemptState) : AttemptState :=
  let failures := lastOf limits.maxAttempts
    (((current.elim [] AttemptState.failures).filter (now - limits.windowMs ≤ ·)) ++ [now])
  { failures
    blockedUntil := if limits.maxAttempts ≤ failures.length then some (now + limits.blockMs) else none
    updatedAt := now }

/-! ## The steps of an attempt -/

/-- The clock, what is recorded, and which failures there were since the last success. -/
structure Shared where
  now : ℕ
  state : Option AttemptState
  since : List ℕ
  deriving DecidableEq

def Shared.blockedUntil (s : Shared) : Option ℕ := s.state.bind AttemptState.blockedUntil

/-- Where an attempt is. -/
inductive Phase where
  | asked
  | beginning (now : ℕ)
  | blocked
  | verifying
  | passed
  | refused (since : ℕ)
  | over
  deriving DecidableEq

/-- What an attempt finds outside. -/
inductive Event where
  | goOn
  | verified (good : Bool)
  | record (now : ℕ)
  deriving DecidableEq

/-- The next step of an attempt. Source: `beginAuthentication`,
`authenticationFailed`, `authenticationSucceeded`; `identity-service.ts` `authenticate`. -/
def advance (limits : Limits) : Event → Shared → Phase → Option (Shared × Phase)
  | .goOn, s, .asked => some (s, .beginning s.now)
  | .goOn, s, .beginning now =>
    some (s, if s.blockedUntil.any (now < ·) then .blocked else .verifying)
  | .verified good, s, .verifying => some (s, if good then .passed else .refused s.now)
  | .record now, s, .refused since =>
    if since ≤ now ∧ now ≤ s.now then
      some ({ s with
        state := some (authenticationFailed limits now s.state), since := s.since ++ [now] }, .over)
    else none
  | .goOn, s, .passed => some ({ s with state := none, since := [] }, .over)
  | _, _, _ => none

/-- Any number of attempts of one subject, and a clock that does not go back. -/
def attempts (limits : Limits) : Rules Shared Phase Event ℕ where
  begins p := p = .asked
  moves := advance limits
  passes now s := if s.now ≤ now then some { s with now } else none

/-- A failure is recorded after those that were read before it, and while no block is in force, nor one
that was shorter than the window and set less than a window ago. -/
def orderly (limits : Limits) (w : World Shared Phase) : Turn Phase Event ℕ → Bool
  | .move _ (.record now) => w.shared.state.all fun state => state.updatedAt ≤ now &&
    state.blockedUntil.all fun u => u + (limits.windowMs - limits.blockMs) ≤ now
  | _ => true

/-! ## What the record says -/

lemma lastOf_suffix {α : Type} (n : ℕ) (l : List α) : lastOf n l <:+ l := drop_suffix _ _

lemma length_lastOf {α : Type} {n : ℕ} {l : List α} (h : n ≤ l.length) : (lastOf n l).length = n := by
  rw [lastOf, length_drop]
  omega

lemma suffix_lastOf {α : Type} {n : ℕ} {l l' : List α} (h : l' <:+ l) (hn : l'.length ≤ n) :
    l' <:+ lastOf n l := by
  refine suffix_of_suffix_length_le h (lastOf_suffix n l) ?_
  have := h.length_le
  rw [lastOf, length_drop]
  omega

lemma filter_suffix {l : List ℕ} (h : l.Pairwise (· ≤ ·)) (x : ℕ) : l.filter (x ≤ ·) <:+ l := by
  induction l with
  | nil => exact suffix_rfl
  | cons a l ih =>
    rw [pairwise_cons] at h
    by_cases hx : x ≤ a
    · have hall : (a :: l).filter (x ≤ ·) = a :: l := by
        rw [filter_eq_self]
        intro b hb
        obtain rfl | hb := mem_cons.1 hb
        · exact decide_eq_true hx
        · exact decide_eq_true (hx.trans (h.1 b hb))
      rw [hall]
    · rw [filter_cons_of_neg (by simpa using hx)]
      exact (ih h.2).trans (suffix_cons a l)

def inWindow (limits : Limits) (x : ℕ) (since : List ℕ) : List ℕ :=
  since.filter fun t => x ≤ t && t < x + limits.windowMs

variable {limits : Limits} {s s' : Shared}

/-- What a record says of the failures since the last success. -/
structure Recorded (limits : Limits) (state : AttemptState) (since : List ℕ) : Prop where
  last : since.getLast? = some state.updatedAt
  kept : ∀ seg, seg <:+ since → seg.length ≤ limits.maxAttempts →
    (∀ t ∈ seg, state.updatedAt ≤ t + limits.windowMs) → seg <:+ state.failures
  blocked : limits.maxAttempts ≤ state.failures.length →
    state.blockedUntil = some (state.updatedAt + limits.blockMs)

/-- What holds of the record and the failures since the last success. -/
structure Tracks (limits : Limits) (s : Shared) : Prop where
  sorted : s.since.Pairwise (· ≤ ·)
  empty : s.state = none → s.since = []
  recorded : ∀ state, s.state = some state → Recorded limits state s.since
  bounded : ∀ x, (inWindow limits x s.since).length ≤ limits.maxAttempts

variable {now : ℕ}

section

variable (h : Tracks limits s) (horderly : ∀ state, s.state = some state → state.updatedAt ≤ now)
include h horderly

lemma Tracks.now_le : ∀ t ∈ s.since, t ≤ now := by
  intro t ht
  cases hstate : s.state with
  | none =>
    rw [h.empty hstate] at ht
    cases ht
  | some state =>
    have hlast := (h.recorded state hstate).last
    obtain ⟨init, hinit⟩ := List.getLast?_eq_some_iff.1 hlast
    have hsorted := h.sorted
    rw [hinit, pairwise_append] at hsorted
    rw [hinit] at ht
    obtain ht | ht := mem_append.1 ht
    · exact (hsorted.2.2 t ht _ (mem_singleton_self _)).trans (horderly state hstate)
    · rw [mem_singleton.1 ht]
      exact horderly state hstate

lemma Tracks.recorded_failed :
    Recorded limits (authenticationFailed limits now s.state) (s.since ++ [now]) := by
  refine ⟨by simp [authenticationFailed], fun seg hseg hlength hwindow => ?_, fun hmany => if_pos hmany⟩
  obtain rfl | ⟨seg', rfl, hseg'⟩ := suffix_concat_iff.1 (by simpa using hseg)
  · exact nil_suffix
  · have hkept : seg' <:+ (s.state.elim [] AttemptState.failures).filter (now - limits.windowMs ≤ ·) := by
      cases hstate : s.state with
      | none =>
        rw [h.empty hstate, suffix_nil] at hseg'
        rw [hseg']
        exact nil_suffix
      | some state =>
        have hshort : seg'.length ≤ limits.maxAttempts := by
          rw [length_append] at hlength
          exact (Nat.le_add_right _ _).trans hlength
        have hnear : ∀ t ∈ seg', now ≤ t + limits.windowMs := fun t ht =>
          hwindow t (mem_append_left _ ht)
        have hsuffix := (h.recorded state hstate).kept seg' hseg' hshort fun t ht =>
          (horderly state hstate).trans (hnear t ht)
        have hfilter : seg'.filter (now - limits.windowMs ≤ ·) = seg' := by
          rw [filter_eq_self]
          intro t ht
          exact decide_eq_true (Nat.sub_le_iff_le_add.2 (hnear t ht))
        have hsub := hsuffix.filter (now - limits.windowMs ≤ ·)
        rw [hfilter] at hsub
        exact hsub
    refine suffix_lastOf ?_ (by simpa using hlength)
    obtain ⟨init, hinit⟩ := hkept
    refine ⟨init, ?_⟩
    rw [← append_assoc, hinit]

/-- Where a failure is recorded while no block is in force, a window has no more than are allowed. -/
theorem Tracks.inWindow_failed
    (hblock : ∀ state u, s.state = some state → state.blockedUntil = some u →
      u + (limits.windowMs - limits.blockMs) ≤ now) (x : ℕ) :
    (inWindow limits x (s.since ++ [now])).length ≤ limits.maxAttempts := by
  have hold := h.bounded x
  unfold inWindow at hold ⊢
  rw [filter_append, length_append]
  by_cases hin : x ≤ now ∧ now < x + limits.windowMs
  · by_contra hmany
    have hone : ([now].filter fun t => x ≤ t && t < x + limits.windowMs).length ≤ 1 :=
      length_filter_le _ _
    -- those from the start of the window on end the list, and there are as many as are allowed
    have hcount : limits.maxAttempts ≤ (s.since.filter (x ≤ ·)).length := by
      have hle : (s.since.filter fun t => x ≤ t && t < x + limits.windowMs).length ≤
          (s.since.filter (x ≤ ·)).length := by
        refine (monotone_filter_right s.since fun t ht => ?_).length_le
        exact (Bool.and_eq_true _ _ ▸ ht).1
      omega
    have hend := (lastOf_suffix limits.maxAttempts (s.since.filter (x ≤ ·))).trans (filter_suffix h.sorted x)
    have hlength := length_lastOf hcount
    have hfrom : ∀ t ∈ lastOf limits.maxAttempts (s.since.filter (x ≤ ·)), x ≤ t := fun t ht =>
      of_decide_eq_true (mem_filter.1 ((lastOf_suffix _ _).subset ht)).2
    cases hstate : s.state with
    | none =>
      rw [h.empty hstate, filter_nil, length_nil] at hcount
      exact absurd limits.one_le_maxAttempts (not_le.2 (Nat.lt_succ_of_le hcount))
    | some state =>
      obtain ⟨hlast, hkept, hblocked⟩ := h.recorded state hstate
      have hnow := horderly state hstate
      have hsuffix := hkept _ hend hlength.le fun t ht => by
        have := hfrom t ht
        omega
      have huntil := hblock state _ hstate (hblocked (hlength ▸ hsuffix.length_le))
      have hlate : x ≤ state.updatedAt := by
        obtain ⟨init, hinit⟩ := hend
        have hne : lastOf limits.maxAttempts (s.since.filter (x ≤ ·)) ≠ [] := by
          intro hnil
          rw [hnil] at hlength
          have := limits.one_le_maxAttempts
          simp at hlength
          omega
        rw [← hinit, List.getLast?_append_of_ne_nil _ hne] at hlast
        exact hfrom _ (mem_of_getLast? hlast)
      omega
  · have hnone : ([now].filter fun t => x ≤ t && t < x + limits.windowMs) = [] := by
      rw [filter_eq_nil_iff]
      intro t ht
      cases mem_singleton.1 ht
      simpa using hin
    rw [hnone, length_nil, Nat.add_zero]
    exact hold

end

variable {turn : Turn Phase Event ℕ} {w w' : World Shared Phase}

/-- What a turn does to the record: nothing, or one failure is recorded, or all of it is cleared by a
success. -/
theorem shared_play
    (h : (attempts limits).play w turn = some w') :
    (w'.shared.state = w.shared.state ∧ w'.shared.since = w.shared.since ∧ w.shared.now ≤ w'.shared.now) ∨
    (∃ k now since, turn = .move k (.record now) ∧ w.parties[k]? = some (.refused since) ∧
      now ≤ w.shared.now ∧ w'.shared = { w.shared with
        state := some (authenticationFailed limits now w.shared.state)
        since := w.shared.since ++ [now] }) ∨
    ∃ k, turn = .move k .goOn ∧ w.parties[k]? = some .passed ∧
      w'.shared = { w.shared with state := none, since := [] } := by
  obtain ⟨rfl, rfl⟩ | ⟨party, rfl, -, rfl⟩ | ⟨k, event, p, s', p', rfl, hp, hmove, rfl⟩ |
    ⟨now, s', rfl, hpass, rfl⟩ := Rules.play_cases h
  · exact .inl ⟨rfl, rfl, le_rfl⟩
  · exact .inl ⟨rfl, rfl, le_rfl⟩
  · simp only [attempts] at hmove
    unfold advance at hmove
    split at hmove
    · cases hmove
      exact .inl ⟨rfl, rfl, le_rfl⟩
    · cases hmove
      exact .inl ⟨rfl, rfl, le_rfl⟩
    · cases hmove
      exact .inl ⟨rfl, rfl, le_rfl⟩
    · split_ifs at hmove with hnow
      cases hmove
      exact .inr (.inl ⟨k, _, _, rfl, hp, hnow.2, rfl⟩)
    · cases hmove
      exact .inr (.inr ⟨k, rfl, hp, rfl⟩)
    · cases hmove
  · simp only [attempts] at hpass
    split_ifs at hpass with hnow
    cases hpass
    exact .inl ⟨rfl, rfl, hnow⟩

lemma orderly_iff {w : World Shared Phase} {k now : ℕ} :
    orderly limits w (.move k (.record now)) = true ↔ ∀ state, w.shared.state = some state →
      state.updatedAt ≤ now ∧ ∀ u, state.blockedUntil = some u →
        u + (limits.windowMs - limits.blockMs) ≤ now := by
  simp only [orderly, Option.all_eq_true, Bool.and_eq_true, decide_eq_true_eq]

lemma tracks_play (h : Tracks limits w.shared)
    (hplay : (attempts limits).play w turn = some w') (horderly : orderly limits w turn = true) :
    Tracks limits w'.shared := by
  obtain ⟨hstate, hsince, -⟩ | ⟨k, now, since, rfl, -, -, hshared⟩ | ⟨k, -, -, hshared⟩ := shared_play hplay
  · exact ⟨hsince ▸ h.sorted, fun hnone => hsince ▸ h.empty (hstate ▸ hnone),
      fun state hsome => hsince ▸ h.recorded state (hstate ▸ hsome), fun x => hsince ▸ h.bounded x⟩
  · rw [orderly_iff] at horderly
    have hupdated : ∀ state, w.shared.state = some state → state.updatedAt ≤ now := fun state hsome =>
      (horderly state hsome).1
    rw [hshared]
    refine ⟨?_, nofun, fun state hsome => ?_, fun x => ?_⟩
    · refine pairwise_append.2 ⟨h.sorted, pairwise_singleton _ _, fun t ht t' ht' => ?_⟩
      cases mem_singleton.1 ht'
      exact h.now_le hupdated t ht
    · cases hsome
      exact h.recorded_failed hupdated
    · exact h.inWindow_failed hupdated (fun state u hsome => (horderly state hsome).2 u) x
  · rw [hshared]
    exact ⟨List.Pairwise.nil, fun _ => rfl, nofun, fun x => Nat.zero_le _⟩

/-! ## Over every run -/

section

variable (run : Run (attempts limits)) {i k u : ℕ}

/-- An attempt was let in at some earlier turn, when no block was in force. -/
def BegunUnblocked (k i : ℕ) : Prop :=
  ∃ i₀ < i, ∃ now, (run.world i₀).parties[k]? = some (.beginning now) ∧
    (run.world (i₀ + 1)).parties[k]? = some .verifying ∧
    ∀ u, (run.world i₀).shared.blockedUntil = some u → u ≤ (run.world i₀).shared.now

/-- What the block is for. -/
structure LockedOut : Prop where
  bounded : ∀ i x, (inWindow limits x (run.world i).shared.since).length ≤ limits.maxAttempts
  stays : ∀ i u, (run.world i).shared.blockedUntil = some u → (run.world (i + 1)).shared.now < u →
    (∃ u' ≥ u, (run.world (i + 1)).shared.blockedUntil = some u') ∨
      ∃ k, run.turn i = .move k .goOn ∧ (run.world i).parties[k]? = some .passed ∧ BegunUnblocked run k i

lemma now_le_succ (i : ℕ) : (run.world i).shared.now ≤ (run.world (i + 1)).shared.now := by
  obtain ⟨-, -, hnow⟩ | ⟨k, now, since, -, -, -, hshared⟩ | ⟨k, -, -, hshared⟩ := shared_play (run.plays i)
  · exact hnow
  · rw [hshared]
  · rw [hshared]

lemma moved {event : Event} {s s' : Shared} {p p' : Phase} (h : advance limits event s p = some (s', p')) :
    (p' = .passed → p = .verifying) ∧
    (p' = .verifying → ∃ now, p = .beginning now ∧ ∀ u, s.blockedUntil = some u → u ≤ now) ∧
    (∀ now, p' = .beginning now → now = s.now) := by
  unfold advance at h
  split at h
  · cases h
    exact ⟨nofun, nofun, fun now hnow => by cases hnow; rfl⟩
  · cases h
    refine ⟨fun heq => ?_, fun heq => ?_, fun now heq => ?_⟩
    · split_ifs at heq
    · split_ifs at heq with hblocked
      refine ⟨_, rfl, fun u hu => ?_⟩
      rw [hu, Option.any_some, decide_eq_true_eq] at hblocked
      exact not_lt.1 hblocked
    · split_ifs at heq
  · cases h
    refine ⟨fun _ => rfl, fun heq => ?_, fun now heq => ?_⟩
    · split_ifs at heq
    · split_ifs at heq
  · split_ifs at h
    cases h
    exact ⟨nofun, nofun, nofun⟩
  · cases h
    exact ⟨nofun, nofun, nofun⟩
  · cases h

lemma begunUnblocked_of_passed (hstart : (run.world 0).parties = [])
    (hp : (run.world i).parties[k]? = some .passed) : BegunUnblocked run k i := by
  obtain ⟨i₂, hlt₂, e₂, p₂, -, hp₂, hmove₂⟩ := run.entered hstart hp rfl
  rw [(moved hmove₂).1 rfl] at hp₂
  obtain ⟨i₁, hlt₁, e₁, p₁, hturn₁, hp₁, hmove₁⟩ := run.entered hstart hp₂ rfl
  obtain ⟨now, rfl, hunblocked⟩ := (moved hmove₁).2.1 rfl
  obtain ⟨i₀, hlt₀, e₀, p₀, -, -, hmove₀⟩ := run.entered hstart hp₁ rfl
  have hread : now ≤ (run.world i₁).shared.now := by
    rw [(moved hmove₀).2.2 now rfl]
    exact run.related (T := fun s s' => s.now ≤ s'.now) (fun _ => le_rfl) le_trans (now_le_succ run) hlt₀.le
  refine ⟨i₁, hlt₁.trans hlt₂, now, hp₁, ?_, fun u hu => (hunblocked u hu).trans hread⟩
  obtain h | ⟨event, q, hturn, hq, hmove⟩ := Rules.play_stays (run.plays i₁) hp₁
  · have hplay := run.plays i₁
    rw [hturn₁, Rules.play, hp₁] at hplay
    obtain ⟨⟨s', p'⟩, hmove', heq⟩ := Option.map_eq_some_iff.1 hplay
    cases hmove₁.symm.trans hmove'
    rw [← heq]
    exact List.getElem?_set_self (List.getElem?_eq_some_iff.1 hp₁).1
  · cases hturn₁.symm.trans hturn
    cases hmove₁.symm.trans hmove
    exact hq

/-- Where every failure is recorded in its turn and while no block is in force, no window has more
failures than are allowed, and a block stays until its time. -/
theorem locked_out (hstate : (run.world 0).shared.state = none) (hsince : (run.world 0).shared.since = [])
    (hstart : (run.world 0).parties = [])
    (horderly : ∀ i, orderly limits (run.world i) (run.turn i) = true) : LockedOut run := by
  have htracks : ∀ i, Tracks limits (run.world i).shared := by
    intro i
    induction i with
    | zero =>
      refine ⟨?_, fun _ => hsince, fun state hsome => ?_, fun x => ?_⟩
      · rw [hsince]
        exact List.Pairwise.nil
      · rw [hstate] at hsome
        cases hsome
      · rw [hsince]
        exact Nat.zero_le _
    | succ i ih => exact tracks_play ih (run.plays i) (horderly i)
  refine ⟨fun i => (htracks i).bounded, fun i u hu hbefore => ?_⟩
  obtain ⟨hsame, -, -⟩ | ⟨k, now, since, hturn, -, hnow, hshared⟩ | ⟨k, hturn, hp, -⟩ :=
    shared_play (run.plays i)
  · refine .inl ⟨u, le_rfl, ?_⟩
    rw [Shared.blockedUntil, hsame]
    exact hu
  · -- a failure is not recorded while the block is in force
    have hin := horderly i
    rw [hturn, orderly_iff] at hin
    obtain ⟨state, hsome, hu⟩ := Option.bind_eq_some_iff.1 hu
    have huntil := (hin state hsome).2 u hu
    rw [hshared] at hbefore
    dsimp only at hbefore
    omega
  · exact .inr ⟨k, hturn, hp, begunUnblocked_of_passed run hstart hp⟩

end

/-! ## Two attempts in ten milliseconds -/

def twoInTen (blockMs : ℕ) (h : 1 ≤ blockMs) : Limits := ⟨2, 10, blockMs, by decide, by decide, h⟩

def unrecorded : World Shared Phase := ⟨⟨0, none, []⟩, []⟩

def letIn (k : ℕ) : List (Turn Phase Event ℕ) := [.begin .asked, .move k .goOn, .move k .goOn]

def refusedAt (k now : ℕ) : List (Turn Phase Event ℕ) := [.move k (.verified false), .move k (.record now)]

/-- Two attempts fail, a third is blocked, and a fourth fails when the block is over. -/
def inTurn : List (Turn Phase Event ℕ) :=
  letIn 0 ++ refusedAt 0 0 ++ letIn 1 ++ [.pass 1] ++ refusedAt 1 1 ++ letIn 2 ++ [.pass 11] ++ letIn 3 ++
    refusedAt 3 11

/-- Three attempts are let in before any fails, and the third fails fifty milliseconds later. -/
def atOnce : List (Turn Phase Event ℕ) :=
  letIn 0 ++ letIn 1 ++ letIn 2 ++ refusedAt 0 0 ++ refusedAt 1 0 ++ [.pass 50] ++ refusedAt 2 50

def inTurnRun : Run (attempts (twoInTen 10 (by decide))) :=
  (attempts (twoInTen 10 (by decide))).replay unrecorded inTurn (by decide +kernel)

def atOnceRun : Run (attempts (twoInTen 1000 (by decide))) :=
  (attempts (twoInTen 1000 (by decide))).replay unrecorded atOnce (by decide +kernel)

theorem locked_out_inTurn : LockedOut inTurnRun :=
  locked_out inTurnRun rfl rfl rfl (Rules.replay_all (fun _ => rfl) (by decide +kernel))

/-- The third failure lifts the block of the second. -/
theorem not_locked_out : ¬∀ (limits : Limits) (run : Run (attempts limits)),
    (run.world 0).shared.state = none → (run.world 0).shared.since = [] →
    (run.world 0).parties = [] → LockedOut run := by
  intro h
  have hblocked : (atOnceRun.world 15).shared.blockedUntil = some 1000 := by decide +kernel
  have hlifted : (atOnceRun.world 16).shared.blockedUntil = none := by decide +kernel
  have hturn : atOnceRun.turn 15 = .move 2 (.record 50) := rfl
  obtain ⟨u', -, hu'⟩ | ⟨k, hk, -⟩ :=
    (h _ atOnceRun rfl rfl rfl).stays 15 1000 hblocked (by decide +kernel)
  · rw [hlifted] at hu'
    cases hu'
  · rw [hturn] at hk
    cases hk

end Zelavis.Identity.Lockout
