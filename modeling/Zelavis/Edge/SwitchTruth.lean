import Zelavis.Edge.Switches

/-!
# What a new switch starts from

Over `edge/index.ts` `switchAdapter`: the record of a new switch names the adapter that was active when the
request read the policy.
-/

namespace Zelavis.Edge.Switches

open Lib Turns Tasks
open Tasks.Task (uses_bind uses_done uses_fail uses_tryCatch)

/-! ## Calls that make no new switch -/

def Plain (c : EdgeCall) : Prop := ∀ observed operation, c ≠ .createSwitch observed operation

def Records (adapterId : Option Utf16) (c : EdgeCall) : Prop :=
  ∀ observed operation, c = .createSwitch observed operation → operation.previousAdapterId = adapterId

variable {c : EdgeCall}

lemma Plain.records (h : Plain c) (adapterId : Option Utf16) : Records adapterId c :=
  fun observed operation heq => absurd heq (h observed operation)

section Programs

variable {X : Type} {options : Options X} {controller : Controller} {stored : Versioned SwitchRecord}
  {record : SwitchRecord} {target : Registered}

lemma plain_make (h : Plain c) : (make c).Uses Plain := Task.uses_perform.2 h

lemma plain_bind {β : Type} {f : Answer c → Program β} (h : Plain c) (hf : ∀ a, (f a).Uses Plain) :
    ((make c).bind f).Uses Plain :=
  uses_bind (plain_make h) hf

lemma plain_persistSwitch {phase : SwitchPhase} {error : Utf16} :
    (persistSwitch controller stored phase error).Uses Plain := by
  refine plain_bind (fun _ _ => nofun) fun now => ?_
  refine plain_bind (fun _ _ => nofun) fun written => ?_
  cases written with
  | none => exact uses_fail _
  | some stored => exact plain_bind (fun _ _ => nofun) fun _ => uses_done _

lemma plain_writePolicy {targetAdapterId : Utf16} {publication : EdgePublication} {attempts : ℕ} :
    (writePolicy targetAdapterId publication attempts).Uses Plain := by
  induction attempts with
  | zero => exact uses_fail _
  | succ attempts ih =>
    refine plain_bind (fun _ _ => nofun) fun current => ?_
    refine plain_bind (fun _ _ => nofun) fun now => ?_
    refine plain_bind (fun _ _ => nofun) fun written => ?_
    cases written with
    | none => exact ih
    | some _ => exact uses_done _

lemma plain_optionally {has : Bool} {operation : AdapterOperation} {context : AdapterContext} :
    (optionally has operation context).Uses Plain := by
  unfold optionally
  split
  · exact plain_make fun _ _ => nofun
  · exact uses_done _

lemma plain_drainPrevious : (drainPrevious options record).Uses Plain := by
  unfold drainPrevious
  split
  · exact uses_done _
  · exact plain_optionally

lemma plain_preflight : (preflight record target).Uses Plain := by
  refine plain_bind (fun _ _ => nofun) fun _ => ?_
  refine plain_bind (fun _ _ => nofun) fun detection => ?_
  dsimp only
  split
  · exact uses_done _
  · exact uses_fail _

lemma plain_verifyStaged : (verifyStaged record).Uses Plain := by
  refine plain_bind (fun _ _ => nofun) fun verification => ?_
  split
  · exact uses_done _
  · exact uses_fail _

lemma plain_activateRouting : (activateRouting options record).Uses Plain := by
  unfold activateRouting
  split
  · refine plain_bind (fun _ _ => nofun) fun current => ?_
    split
    · exact plain_make fun _ _ => nofun
    · exact uses_fail _
  · exact plain_make fun _ _ => nofun

lemma plain_runPhase : (runPhase options controller stored target).Uses Plain := by
  unfold runPhase
  dsimp only
  split
  · exact uses_bind plain_preflight fun _ => plain_persistSwitch
  · exact plain_bind (fun _ _ => nofun) fun _ => plain_persistSwitch
  · exact plain_bind (fun _ _ => nofun) fun _ => plain_persistSwitch
  · exact uses_bind plain_verifyStaged fun _ => plain_persistSwitch
  · exact plain_bind (fun _ _ => nofun) fun _ => plain_persistSwitch
  · exact uses_bind plain_activateRouting fun _ => plain_persistSwitch
  · exact uses_bind plain_drainPrevious fun _ => plain_persistSwitch
  · exact uses_bind plain_writePolicy fun _ => plain_persistSwitch
  · exact uses_fail _
  · exact uses_fail _
  · exact uses_done _

lemma plain_turnBack {fault : Fault} : (turnBack options controller stored fault).Uses Plain := by
  cases fault with
  | conflict => exact uses_fail _
  | failed cause =>
    refine uses_bind (uses_tryCatch ?_ fun _ => uses_done _) fun back => ?_
    · refine uses_bind plain_persistSwitch fun rollingBack => ?_
      refine uses_tryCatch ?_ fun _ => uses_done _
      refine uses_bind plain_optionally fun _ => ?_
      exact uses_bind plain_optionally fun _ => uses_done _
    · exact uses_bind plain_persistSwitch fun _ => uses_fail _

lemma plain_runPhases {fuel : ℕ} : (runPhases options controller target fuel stored).Uses Plain := by
  induction fuel generalizing stored with
  | zero => exact uses_fail _
  | succ fuel ih =>
    unfold runPhases
    split
    · exact uses_done _
    · exact uses_bind (uses_tryCatch plain_runPhase fun _ => plain_turnBack) fun _ => ih

lemma plain_runLocally : (runLocally options controller stored).Uses Plain := by
  have hrun : (runSwitch options controller stored).Uses Plain := by
    unfold runSwitch
    split
    · exact uses_fail _
    · exact plain_runPhases
  refine plain_bind (fun _ _ => nofun) fun _ => ?_
  refine uses_bind (uses_tryCatch hrun fun fault => ?_) fun record => ?_
  · exact plain_bind (fun _ _ => nofun) fun _ => uses_fail _
  · exact plain_bind (fun _ _ => nofun) fun _ => uses_done _

lemma plain_recoverBack {message : Utf16} : (recoverBack options controller stored message).Uses Plain := by
  refine uses_bind plain_optionally fun _ => ?_
  refine uses_bind plain_optionally fun _ => ?_
  exact uses_bind plain_persistSwitch fun _ => uses_done _

lemma plain_isHealthy : (isHealthy options record).Uses Plain := by
  unfold isHealthy
  split
  · refine uses_tryCatch ?_ fun _ => uses_done _
    exact plain_bind (fun _ _ => nofun) fun _ => uses_done _
  · exact uses_done _

lemma plain_reactivatePrevious : (reactivatePrevious options record).Uses Plain := by
  unfold reactivatePrevious
  split
  · exact uses_done _
  · exact plain_make fun _ _ => nofun

lemma plain_recoverTraffic : (recoverTraffic options controller stored).Uses Plain := by
  refine uses_bind plain_isHealthy fun healthy => ?_
  cases healthy with
  | true =>
    refine uses_bind plain_drainPrevious fun _ => ?_
    refine uses_bind plain_writePolicy fun _ => ?_
    exact uses_bind plain_persistSwitch fun _ => uses_done _
  | false =>
    refine uses_bind plain_optionally fun _ => ?_
    refine uses_bind plain_optionally fun _ => ?_
    refine uses_bind plain_reactivatePrevious fun _ => ?_
    exact uses_bind plain_persistSwitch fun _ => uses_done _

lemma plain_recover : (recover options controller stored).Uses Plain := by
  unfold recover
  split
  any_goals exact plain_recoverBack
  any_goals exact plain_recoverTraffic
  any_goals exact uses_done _

lemma plain_reconcile : (reconcile options controller).Uses Plain := by
  refine plain_bind (fun _ _ => nofun) fun running => ?_
  split
  · exact uses_done _
  · refine plain_bind (fun _ _ => nofun) fun record => ?_
    split
    · exact uses_done _
    · refine plain_bind (fun _ _ => nofun) fun now => ?_
      split
      · exact uses_done _
      · refine plain_bind (fun _ _ => nofun) fun claimed => ?_
        split
        · exact uses_done _
        · exact plain_recover

/-! ## What a request makes -/

variable {policy : Policy} {targetAdapterId : Utf16} {publication : EdgePublication}

lemma Plain.uses {α : Type} {t : Program α} (h : t.Uses Plain) (adapterId : Option Utf16) :
    t.Uses (Records adapterId) :=
  h.mono fun _ hc => Plain.records hc adapterId

lemma records_make {adapterId : Option Utf16} (h : Plain c) : (make c).Uses (Records adapterId) :=
  Plain.uses (plain_make h) adapterId

lemma records_startSwitch : (startSwitch options controller policy targetAdapterId publication).Uses
      (Records policy.activeAdapterId) := by
  refine uses_bind (records_make fun _ _ => nofun) fun now => ?_
  refine uses_bind (records_make fun _ _ => nofun) fun id => ?_
  refine uses_bind (records_make fun _ _ => nofun) fun latest => ?_
  refine uses_bind (Task.uses_perform.2 fun observed operation heq => ?_) fun claimed => ?_
  · cases heq
    rfl
  · cases claimed with
    | none => exact uses_fail _
    | some stored =>
      exact uses_bind (records_make fun _ _ => nofun) fun _ =>
        Plain.uses plain_runLocally _

lemma records_meetSwitch {existing : Versioned SwitchRecord} :
    (meetSwitch options controller policy existing targetAdapterId publication).Uses
      (Records policy.activeAdapterId) := by
  refine uses_bind (records_make fun _ _ => nofun) fun now => ?_
  dsimp only
  split_ifs
  · exact uses_fail _
  · exact uses_fail _
  · refine uses_bind (Plain.uses plain_reconcile _) fun _ => ?_
    refine uses_bind (records_make fun _ _ => nofun) fun refreshed => ?_
    split
    · exact uses_fail _
    · exact records_startSwitch
  · refine uses_bind (records_make fun _ _ => nofun) fun claimed => ?_
    split
    · exact uses_fail _
    · exact Plain.uses plain_runLocally _

/-- Whatever happens after a request has read the policy, the new switch is made with the adapter that was
active in it. -/
theorem records_afterPolicy : (afterPolicy options controller policy targetAdapterId publication).Uses
      (Records policy.activeAdapterId) := by
  refine uses_bind (records_make fun _ _ => nofun) fun current => ?_
  split
  · exact records_startSwitch
  · exact records_meetSwitch

end Programs

/-! ## Runs -/

variable {X : Type} {options : Options X}

def activeAdapter (s : Shared X) : Option Utf16 := s.policy.bind (·.value.activeAdapterId)

def reading (options : Options X) (controller : Controller) (targetAdapterId : Utf16)
    (publication : EdgePublication) : Program Outcome :=
  (fromPolicy options controller targetAdapterId publication).bind fun stored =>
    .done (.switched stored.value)

def Reads (run : Run (manager options)) (i k : ℕ) : Prop :=
  ∃ controller targetAdapterId publication e,
    (run.world i).parties[k]? = some (Job.running (.switchAdapter controller targetAdapterId publication)
      (reading options controller targetAdapterId publication)) ∧
    run.turn i = .move k e

def Creates (run : Run (manager options)) (j k : ℕ) (operation : SwitchRecord) : Prop :=
  ∃ observed e, (run.world j).parties[k]?.bind (Job.nextCall (program options)) =
      some (.createSwitch observed operation) ∧
    run.turn j = .move k e ∧ e.reply.happens = true ∧
    (putAt (run.world j).shared.now (run.world j).shared.switch observed operation).isSome = true

/-- Where a request is: it has not begun, or is about to read the policy, or has nothing left that makes a
switch, or has read the policy. -/
def Reaches (run : Run (manager options)) (m k : ℕ)
    (job : Job Request EdgeCall Answer Fault Outcome) : Prop :=
  (∃ request, job = .asked request) ∨
  (∃ controller targetAdapterId publication,
    job = .running (.switchAdapter controller targetAdapterId publication)
      (reading options controller targetAdapterId publication)) ∨
  (job.rest (program options)).Uses Plain ∨ ∃ i < m, Reads run i k

lemma plain_program_reconcile (controller : Controller) :
    (program options (.reconcile controller)).Uses Plain :=
  uses_bind plain_reconcile fun _ => uses_done _

variable {job' : Job Request EdgeCall Answer Fault Outcome} {e : Event}

lemma rest_of_asked {s s' : Shared X} {request : Request}
    (h : (manager options).moves e s (.asked request) = some (s', job')) :
    (∃ controller targetAdapterId publication,
      job' = .running (.switchAdapter controller targetAdapterId publication)
        (reading options controller targetAdapterId publication)) ∨
    (job'.rest (program options)).Uses Plain := by
  cases request with
  | reconcile controller =>
    exact .inr (uses_of_moves h (plain_program_reconcile controller))
  | switchAdapter controller targetAdapterId publication =>
    obtain ⟨c, next, r, hrest, -, rfl⟩ := moves_eq_some h
    cases hrest
    cases r with
    | error fault => exact .inr (uses_fail _)
    | ok running =>
      cases running with
      | true => exact .inr (uses_fail _)
      | false => exact .inl ⟨controller, targetAdapterId, publication, rfl⟩

/-- After a request has read the policy, it makes a switch only with the adapter that is active in it. -/
theorem records_of_reading {s s' : Shared X} {controller : Controller}
    {targetAdapterId : Utf16} {publication : EdgePublication} (h : (manager options).moves e s
      (.running (.switchAdapter controller targetAdapterId publication)
        (reading options controller targetAdapterId publication)) = some (s', job')) :
    (job'.rest (program options)).Uses (Records (activeAdapter s')) := by
  obtain ⟨c, next, r, hrest, hexec, rfl⟩ := moves_eq_some h
  cases hrest
  obtain ⟨rfl, rfl⟩ := Prod.ext_iff.1 (Option.some.inj hexec)
  unfold Event.answer
  split
  case isTrue hdone =>
    have hactive : activeAdapter { s with
        policy := e.stored (some (s.policy.getD ⟨initialPolicy options s.now, s.now⟩)) s.policy } =
        (s.policy.getD ⟨initialPolicy options s.now, s.now⟩).value.activeAdapterId := by
      unfold activeAdapter Event.stored
      rw [hdone]
      rfl
    rw [hactive]
    exact uses_bind records_afterPolicy fun _ => uses_done _
  case isFalse => exact uses_fail _

section

variable (run : Run (manager options)) {i j k m : ℕ} {operation : SwitchRecord}

lemma reaches_at (hstart : (run.world 0).parties = [])
    {job : Job Request EdgeCall Answer Fault Outcome} (hjob : (run.world m).parties[k]? = some job) :
    Reaches run m k job := by
  induction m generalizing job with
  | zero =>
    rw [hstart] at hjob
    cases hjob
  | succ m ih =>
    have hlater : ∀ job, Reaches run m k job → Reaches run (m + 1) k job := fun job h => by
      obtain h | h | h | ⟨i, hi, h⟩ := h
      · exact .inl h
      · exact .inr (.inl h)
      · exact .inr (.inr (.inl h))
      · exact .inr (.inr (.inr ⟨i, Nat.lt_succ_of_lt hi, h⟩))
    obtain hsame | ⟨-, hb⟩ | ⟨e, was, hturn, hwas, hmove⟩ := run.stays_or_moves hjob
    · exact hlater job (ih hsame)
    · cases job with
      | asked request => exact .inl ⟨request, rfl⟩
      | running request rest => cases hb
    · obtain ⟨request, rfl⟩ | ⟨controller, targetAdapterId, publication, rfl⟩ | h | ⟨i, hi, h⟩ :=
        ih hwas
      · obtain h | h := rest_of_asked hmove
        · exact .inr (.inl h)
        · exact .inr (.inr (.inl h))
      · exact .inr (.inr (.inr ⟨m, Nat.lt_succ_self m, controller, targetAdapterId, publication, e,
          hwas, hturn⟩))
      · exact .inr (.inr (.inl (uses_of_moves hmove h)))
      · exact .inr (.inr (.inr ⟨i, Nat.lt_succ_of_lt hi, h⟩))

lemma records_after (hreads : Reads run i k) (him : i < m) : ∃ job, (run.world m).parties[k]? = some job ∧
      (job.rest (program options)).Uses (Records (activeAdapter (run.world (i + 1)).shared)) := by
  induction m, Nat.succ_le_of_lt him using Nat.le_induction with
  | base =>
    obtain ⟨controller, targetAdapterId, publication, e, hjob, hturn⟩ := hreads
    have hplay := run.plays i
    rw [hturn] at hplay
    obtain ⟨job, hjob', hplay⟩ := Option.bind_eq_some_iff.1 hplay
    cases hjob.symm.trans hjob'
    obtain ⟨⟨s', job'⟩, hmove, heq⟩ := Option.map_eq_some_iff.1 hplay
    refine ⟨job', ?_, ?_⟩
    · rw [← heq]
      exact List.getElem?_set_self (List.getElem?_eq_some_iff.1 hjob).1
    · rw [← heq]
      exact records_of_reading hmove
  | succ m hm ih =>
    obtain ⟨job, hjob, huses⟩ := ih (Nat.lt_of_succ_le hm)
    obtain hsame | ⟨e, job', -, hjob', hmove⟩ := Rules.play_stays (run.plays m) hjob
    · exact ⟨job, hsame, huses⟩
    · exact ⟨job', hjob', uses_of_moves hmove huses⟩

lemma rest_of_creates (hcreates : Creates run j k operation) :
    ∃ job observed next, (run.world j).parties[k]? = some job ∧
      job.rest (program options) = .call (.createSwitch observed operation) next := by
  obtain ⟨observed, e, hcall, -⟩ := hcreates
  obtain ⟨job, hjob, hcall⟩ := Option.bind_eq_some_iff.1 hcall
  obtain ⟨next, hrest⟩ := Task.nextCall_eq_some hcall
  exact ⟨job, observed, next, hjob, hrest⟩

lemma previous_of_reads (hreads : Reads run i k) (hcreates : Creates run j k operation)
    (hij : i < j) : operation.previousAdapterId = activeAdapter (run.world (i + 1)).shared := by
  obtain ⟨job, observed, next, hjob, hrest⟩ := rest_of_creates run hcreates
  obtain ⟨job', hjob', huses⟩ := records_after run hreads hij
  cases hjob.symm.trans hjob'
  rw [hrest] at huses
  exact huses.1 observed operation rfl

lemma reads_before (hstart : (run.world 0).parties = []) (hcreates : Creates run j k operation) :
    ∃ i < j, Reads run i k := by
  obtain ⟨job, observed, next, hjob, hrest⟩ := rest_of_creates run hcreates
  obtain ⟨request, rfl⟩ | ⟨controller, targetAdapterId, publication, rfl⟩ | h | h :=
    reaches_at run hstart hjob
  · cases request with
    | switchAdapter | reconcile => cases hrest
  · cases hrest
  · rw [hrest] at h
    exact absurd rfl (h.1 observed operation)
  · exact h

/-- Every record of a new switch names the adapter that is active when it is made. -/
def Truthful (run : Run (manager options)) : Prop :=
  ∀ j k operation, Creates run j k operation →
    operation.previousAdapterId = activeAdapter (run.world j).shared

def WritesPolicy (run : Run (manager options)) (m : ℕ) : Prop :=
  (run.world (m + 1)).shared.policy ≠ (run.world m).shared.policy

/-- The last time, if any, that the policy is written between a request's reading of it and the record the
request makes, it is written with the adapter that was active at the reading. -/
def Unmoved (run : Run (manager options)) : Prop :=
  ∀ i j k operation, Reads run i k → Creates run j k operation → ∀ m, i < m → m < j → WritesPolicy run m →
      (∀ m', m < m' → m' < j → ¬WritesPolicy run m') →
        activeAdapter (run.world (m + 1)).shared = activeAdapter (run.world (i + 1)).shared

lemma policy_eq_or (hij : i ≤ j) : (run.world i).shared.policy = (run.world j).shared.policy ∨
      ∃ m, i ≤ m ∧ m < j ∧ WritesPolicy run m ∧ (∀ m', m < m' → m' < j → ¬WritesPolicy run m') ∧
        (run.world (m + 1)).shared.policy = (run.world j).shared.policy := by
  induction j, hij using Nat.le_induction with
  | base => exact .inl rfl
  | succ j hij ih =>
    by_cases hwrites : WritesPolicy run j
    · exact .inr ⟨j, hij, Nat.lt_succ_self j, hwrites, fun m' hm hm' => by omega, rfl⟩
    · have hsame : (run.world (j + 1)).shared.policy = (run.world j).shared.policy := not_not.1 hwrites
      rw [hsame]
      obtain h | ⟨m, him, hmj, hm, hlast, h⟩ := ih
      · exact .inl h
      · refine .inr ⟨m, him, Nat.lt_succ_of_lt hmj, hm, fun m' hm hm' => ?_, h⟩
        obtain hm' | rfl := Nat.lt_succ_iff_lt_or_eq.1 hm'
        · exact hlast m' hm hm'
        · exact hwrites

/-- Every record names the adapter that is active when it is made, exactly in the runs in which no other
adapter has come to be active since its request read the policy. -/
theorem truthful_iff (hstart : (run.world 0).parties = []) : Truthful run ↔ Unmoved run := by
  constructor
  · intro h i j k operation hreads hcreates m him hmj _ hlast
    have hpolicy : ∀ n, m + 1 ≤ n → n ≤ j →
        (run.world (m + 1)).shared.policy = (run.world n).shared.policy := by
      intro n hmn hnj
      induction n, hmn using Nat.le_induction with
      | base => rfl
      | succ n hmn ih =>
        rw [ih (Nat.le_of_succ_le hnj)]
        exact (not_not.1 (hlast n hmn (Nat.lt_of_succ_le hnj))).symm
    rw [← previous_of_reads run hreads hcreates (him.trans hmj), h j k operation hcreates]
    unfold activeAdapter
    rw [hpolicy j hmj le_rfl]
  · intro h j k operation hcreates
    obtain ⟨i, hij, hreads⟩ := reads_before run hstart hcreates
    rw [previous_of_reads run hreads hcreates hij]
    obtain hsame | ⟨m, him, hmj, hwrites, hlast, hsame⟩ := policy_eq_or run (Nat.succ_le_of_lt hij)
    · unfold activeAdapter
      rw [hsame]
    · rw [← h i j k operation hreads hcreates m him hmj hwrites hlast]
      unfold activeAdapter
      rw [hsame]

end

/-! ## A stale switch -/

def anyAdapter : Options Unit :=
  { defaultAdapterId := utf16 "traefik"
    adapters := fun _ => some {}
    certificatesRollBack := true
    watches := false
    act := fun _ _ edge => edge }

def routes : EdgePublication := { ref := ⟨utf16 "edge", utf16 "rev-1"⟩ }

def traefikActive : Versioned Policy :=
  ⟨⟨1, utf16 "traefik", some (utf16 "traefik"), some routes.ref, 0⟩, 0⟩

/-- A switch to Caddy that was left when its traffic was being activated, with a lease that is over. -/
def leftSwitch : Versioned SwitchRecord :=
  ⟨{ id := utf16 "left"
     targetAdapterId := utf16 "caddy"
     previousAdapterId := some (utf16 "traefik")
     publication := routes
     phase := .activateRouting
     startedAt := 0
     updatedAt := 0
     fenceToken := some 6
     leaseOwner := some (utf16 "other")
     leaseExpiresAt := some 5 }, 0⟩

/-- A request to switch to a third adapter, and its first calls, all of which go well. -/
def switchToThird (calls : ℕ) :
    List (Turn (Job Request EdgeCall Answer Fault Outcome) Event ℕ) :=
  .begin (.asked (.switchAdapter ⟨0, utf16 "ours", 30000⟩ (utf16 "nginx") routes)) ::
    List.replicate calls (.move 0 { switchId := utf16 "new" })

def freshRun : Run (manager anyAdapter) :=
  (manager anyAdapter).replay ⟨{ now := 10, policy := some traefikActive, edge := () }, []⟩
    (switchToThird 7) (by decide +kernel)

def staleRun : Run (manager anyAdapter) :=
  (manager anyAdapter).replay
    ⟨{ now := 10, policy := some traefikActive, switch := some leftSwitch, edge := () }, []⟩
    (switchToThird 21) (by decide +kernel)

def newSwitch : SwitchRecord :=
  { id := utf16 "new"
    targetAdapterId := utf16 "nginx"
    previousAdapterId := some (utf16 "traefik")
    publication := routes
    phase := .preflight
    startedAt := 10
    updatedAt := 10
    fenceToken := some 1
    leaseOwner := some (utf16 "ours")
    leaseExpiresAt := some 30010 }

def keepsPolicy (w : World (Shared Unit) (Job Request EdgeCall Answer Fault Outcome))
    (turn : Turn (Job Request EdgeCall Answer Fault Outcome) Event ℕ) : Bool :=
  ((manager anyAdapter).play w turn).all fun w' => w'.shared.policy = w.shared.policy

theorem truthful_freshRun : Truthful freshRun ∧ Creates freshRun 7 0 newSwitch := by
  have hkeeps : ∀ m, keepsPolicy (freshRun.world m) (freshRun.turn m) = true :=
    Rules.replay_all (fun _ => decide_eq_true rfl) (by decide +kernel)
  have hquiet : ∀ m, ¬WritesPolicy freshRun m := fun m hwrites => by
    have hsame := hkeeps m
    unfold keepsPolicy at hsame
    rw [freshRun.plays m, Option.all_some, decide_eq_true_eq] at hsame
    exact hwrites hsame
  refine ⟨(truthful_iff freshRun rfl).2 fun i j k operation _ _ m _ _ hwrites => ?_, ?_⟩
  · exact absurd hwrites (hquiet m)
  · exact ⟨none, { switchId := utf16 "new" }, by decide +kernel, rfl, by decide, by decide +kernel⟩

/-- A request that finds a switch that was left is served with the adapter of before, though the switch
has been completed for it. -/
theorem not_truthful : ¬∀ run : Run (manager anyAdapter), (run.world 0).parties = [] → Truthful run := by
  intro h
  have hcreates : Creates staleRun 21 0 newSwitch :=
    ⟨(staleRun.world 21).shared.switch, { switchId := utf16 "new" }, by decide +kernel, rfl, by decide,
      by decide +kernel⟩
  have hprevious := h staleRun rfl 21 0 newSwitch hcreates
  revert hprevious
  decide +kernel

end Zelavis.Edge.Switches
