import Zelavis.Edge.SwitchSafety

/-!
# What a switch has come to

Over the runs of `edge/index.ts` `createZelavisEdgeManager`: when the policy and the adapters are as the
record of a switch that is over says.
-/

namespace Zelavis.Edge.Switching

open Lib Turns Tasks Switches

variable {X : Type} {options : Options X} (B : Behaviour options)

def baseAt (run : Run (manager options)) : ℕ → Named
  | 0 => named (run.world 0).shared.policy
  | m + 1 =>
    match run.turn m with
    | .move k _ =>
      ((run.world m).parties[k]?.bind (Job.nextCall (program options))).elim (baseAt run m) fun c =>
        tracked c (run.world m).shared (run.world (m + 1)).shared (baseAt run m)
    | _ => baseAt run m

def viewAt (run : Run (manager options)) (m : ℕ) : View :=
  viewOf B (run.world m).shared (baseAt run m)

/-- A complete switch has its target active and serving, a failed one its previous adapter. -/
def SwitchSafe (run : Run (manager options)) : Prop :=
  ∀ m r, (run.world m).shared.switch = some r →
    (r.value.phase = .complete → Forward r.value (viewAt B run m)) ∧
    (r.value.phase = .failed → Back r.value (viewAt B run m))

/-- No switch has been made, and the adapter that is active serves. -/
structure Starts (run : Run (manager options)) : Prop where
  parties : (run.world 0).parties = []
  switch : (run.world 0).shared.switch = none
  serves : ∀ a, (named (run.world 0).shared.policy).adapterId = some a →
    B.serving (run.world 0).shared.edge a ≠ none

def Meets (run : Run (manager options)) : Prop :=
  ∀ m k e job c, run.turn m = .move k e → (run.world m).parties[k]? = some job →
    job.nextCall (program options) = some c → Condition options job.request e (viewAt B run m) c

variable {B} {run : Run (manager options)} {c : EdgeCall}

lemma nextCall_of_rest {job : Job Request EdgeCall Answer Fault Outcome}
    {next : Except Fault (Answer c) → Program Outcome} (hrest : job.rest (program options) = .call c next) :
    job.nextCall (program options) = some c := by
  unfold Job.nextCall
  rw [hrest]
  rfl

lemma viewAt_of_quiet {m : ℕ} (h : ∀ k e, run.turn m ≠ .move k e) :
    viewAt B run (m + 1) = viewAt B run m := by
  have hbase : baseAt run (m + 1) = baseAt run m := by
    rw [baseAt]
    split
    case h_1 k e heq => exact absurd heq (h k e)
    case h_2 => rfl
  unfold viewAt
  rw [hbase]
  obtain ⟨-, hw⟩ | ⟨party, -, -, hw⟩ | ⟨k, e, job, s', job', hmove, -⟩ | ⟨later, s', -, hpass, hw⟩ :=
    Rules.play_cases (run.plays m)
  · rw [hw]
  · rw [hw]
  · exact absurd hmove (h k e)
  · rw [hw]
    have hpass : (if (run.world m).shared.now ≤ later then
        some { (run.world m).shared with now := later } else none) = some s' := hpass
    split_ifs at hpass
    cases hpass
    rfl

lemma follows_of_meets (hmeets : Meets B run) :
    Follows run (viewAt B run) fun request c v v' r => Moves B request c v v' r where
  quiet := fun m h => viewAt_of_quiet h
  moves := fun m k e job c next r hmove hjob hrest hexec => by
    have hcall := nextCall_of_rest hrest
    refine ⟨_, _, baseAt run m, e, rfl, hmeets m k e job c hmove hjob hcall, hexec, ?_⟩
    have hbase : baseAt run (m + 1) =
        tracked c (run.world m).shared (run.world (m + 1)).shared (baseAt run m) := by
      rw [baseAt, hmove]
      dsimp only
      rw [hjob, Option.bind_some, hcall, Option.elim_some]
    unfold viewAt
    rw [hbase]

/-- A run of controllers that do not overlap, none of whose calls goes wrong, leaves the policy and the
adapters as its records say, whatever fails and wherever each of them stops. -/
theorem switchSafe_of_meets (run : Run (manager options)) (hstart : Starts B run)
    (hturn : InTurn run) (hmeets : Meets B run) : SwitchSafe B run := by
  have hI : Inv options (viewAt B run 0) := by
    refine ⟨fun r hr => ?_, fun _ => hstart.serves⟩
    exact absurd (hstart.switch.symm.trans hr) (by simp)
  intro m r hr
  have hinv : Inv options (viewAt B run m) :=
    safe_at hstart.parties hturn (follows_of_meets hmeets) (fun request v hv => safe_program request hv)
      hI m
  exact ⟨(hinv.sound r hr).complete, (hinv.sound r hr).failed⟩

/-! ## Calls that cannot go wrong -/

/-- A call that goes right, whatever it is answered: a new switch to an adapter that serves nothing, a
phase that is over, and nothing that is rolled back or recovered. -/
def isRoutine (B : Behaviour options) (s : Shared X) : EdgeCall → Bool
  | .createSwitch _ operation =>
    operation.previousAdapterId = (named s.policy).adapterId &&
      B.serving s.edge operation.targetAdapterId = none &&
        B.before s.edge operation.id operation.targetAdapterId = none
  | .compareAndSetSwitch observed next =>
    next.phase ≠ .rollback && next.phase ≠ observed.value.phase
  | .adapter (.rollback _) _ => false
  | .verify _ _ => s.switch.all fun r => !isTraffic r.value.phase
  | _ => true

lemma condition_of_isRoutine {request : Request} {e : Event} {s : Shared X} {base : Named}
    (h : isRoutine B s c = true) : Condition options request e (viewOf B s base) c where
  creates := fun observed operation heq => by
    subst heq
    simp only [isRoutine, Bool.and_eq_true, decide_eq_true_eq] at h
    exact ⟨h.1.1, fun _ => h.1.2, h.2⟩
  verifies := fun a context r heq hr htraffic => by
    subst heq
    have hr : s.switch = some r := hr
    simp only [isRoutine, hr, Option.all_some, htraffic] at h
    cases h
  resumes := fun observed next heq _ hsame => by
    subst heq
    simp only [isRoutine, hsame, Bool.and_eq_true, decide_eq_true_eq] at h
    exact absurd rfl h.2
  turns := fun observed next heq _ hrollback => by
    subst heq
    simp only [isRoutine, hrollback, Bool.and_eq_true, decide_eq_true_eq] at h
    exact absurd rfl h.1
  rollsBack := fun a context r heq => by
    subst heq
    cases h

/-! ## A switch, and one that is lost -/

/-- What adapters serve, and what they served before. -/
structure Proxies where
  serving : Serving
  before : Remembered

def anyProxy : Options Proxies where
  defaultAdapterId := utf16 "traefik"
  adapters _ := some {}
  certificatesRollBack := true
  watches := false
  act operation context x :=
    ⟨served context x.serving x.before operation, remembered context x.serving x.before operation⟩

def proxies : Behaviour anyProxy where
  serving x := x.serving
  before x := x.before
  serving_act _ _ _ := rfl
  before_act _ _ _ := rfl

def oldRoutes : EdgePublication := { ref := ⟨utf16 "edge", utf16 "rev-1"⟩ }

def newRoutes : EdgePublication := { ref := ⟨utf16 "edge", utf16 "rev-2"⟩ }

def traefikServes : World (Shared Proxies) (Job Request EdgeCall Answer Fault Outcome) where
  shared :=
    { now := 10
      policy := some ⟨⟨1, utf16 "traefik", some (utf16 "traefik"), some oldRoutes.ref, 0⟩, 0⟩
      edge := ⟨fun a => if a = utf16 "traefik" then some oldRoutes.ref else none, fun _ _ => none⟩ }
  parties := []

/-- A request to switch to Caddy, and its first calls, all of which go well. -/
def switchToCaddy (calls : ℕ) : List (Turn (Job Request EdgeCall Answer Fault Outcome) Event ℕ) :=
  .begin (.asked (.switchAdapter ⟨0, utf16 "ours", 30000⟩ (utf16 "caddy") newRoutes)) ::
    List.replicate calls (.move 0 { switchId := utf16 "new" })

def recoverCaddy (calls : ℕ) : List (Turn (Job Request EdgeCall Answer Fault Outcome) Event ℕ) :=
  .pass 100000 :: .begin (.asked (.reconcile ⟨1, utf16 "other", 30000⟩)) ::
    List.replicate calls (.move 1 {})

def wholeRun : Run (manager anyProxy) :=
  (manager anyProxy).replay traefikServes (switchToCaddy 45) (by decide +kernel)

/-- A controller stops when it is about to activate Caddy, and the switch is recovered. -/
def lostRun : Run (manager anyProxy) :=
  (manager anyProxy).replay traefikServes (switchToCaddy 30 ++ recoverCaddy 11) (by decide +kernel)

def isLast (w : World (Shared Proxies) (Job Request EdgeCall Answer Fault Outcome)) :
    Turn (Job Request EdgeCall Answer Fault Outcome) Event ℕ → Bool
  | .move k _ => k + 1 = w.parties.length
  | _ => true

def takesTurn (w : World (Shared Proxies) (Job Request EdgeCall Answer Fault Outcome)) :
    Turn (Job Request EdgeCall Answer Fault Outcome) Event ℕ → Bool
  | .move k _ => k + 1 = w.parties.length &&
      (w.parties[k]?.bind (Job.nextCall (program anyProxy))).all (isRoutine proxies w.shared)
  | _ => true

theorem switchSafe_wholeRun : SwitchSafe proxies wholeRun ∧
    (wholeRun.world 46).shared.switch.any (fun r => r.value.phase = .complete) = true := by
  have htakes : ∀ m, takesTurn (wholeRun.world m) (wholeRun.turn m) = true :=
    Rules.replay_all (fun _ => rfl) (by decide +kernel)
  refine ⟨switchSafe_of_meets wholeRun ⟨rfl, rfl, fun a ha => ?_⟩ (fun m k e hmove => ?_)
    fun m k e job c hmove hjob hcall => ?_, by decide +kernel⟩
  · cases ha
    exact Option.some_ne_none _
  · have h := htakes m
    rw [hmove] at h
    exact of_decide_eq_true (Bool.and_eq_true_iff.1 h).1
  · have h := htakes m
    rw [hmove] at h
    have hall := (Bool.and_eq_true_iff.1 h).2
    rw [hjob, Option.bind_some, hcall, Option.all_some] at hall
    exact condition_of_isRoutine hall

def isLost (s : Shared Proxies) (r : Versioned SwitchRecord) : Bool :=
  r.value.phase = .complete && s.edge.serving r.value.targetAdapterId = none

lemma not_switchSafe_of_isLost {run : Run (manager anyProxy)} {m : ℕ}
    (h : (run.world m).shared.switch.any (isLost (run.world m).shared) = true) : ¬SwitchSafe proxies run := by
  intro hsafe
  obtain ⟨r, hr, hlost⟩ := (Option.any_eq_true _ _).1 h
  obtain ⟨hphase, hnone⟩ := Bool.and_eq_true_iff.1 hlost
  have hserves : (run.world m).shared.edge.serving r.value.targetAdapterId =
      some r.value.publication.ref := ((hsafe m r hr).1 (of_decide_eq_true hphase)).serves
  rw [of_decide_eq_true hnone] at hserves
  cases hserves

/-- Recovery takes a target that verifies for one that serves, and completes a switch whose target has
never been activated. -/
theorem not_switchSafe : ¬∀ run : Run (manager anyProxy), Starts proxies run → InTurn run →
    SwitchSafe proxies run := by
  intro h
  have hlast : ∀ m, isLast (lostRun.world m) (lostRun.turn m) = true :=
    Rules.replay_all (fun _ => rfl) (by decide +kernel)
  have hlost : (lostRun.world 44).shared.switch.any (isLost (lostRun.world 44).shared) = true := by
    decide +kernel
  refine not_switchSafe_of_isLost hlost (h lostRun ⟨rfl, rfl, fun a ha => ?_⟩ fun m k e hmove => ?_)
  · cases ha
    exact Option.some_ne_none _
  · have hm := hlast m
    rw [hmove] at hm
    exact of_decide_eq_true hm

end Zelavis.Edge.Switching
