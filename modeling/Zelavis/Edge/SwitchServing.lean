import Zelavis.Edge.Switches
import Zelavis.Lib.CrashSafety

/-!
# What adapters serve during a switch

What the policy names and what the adapters serve, beside the record of the switch, and what each call
of a controller does to them. An adapter serves the publication it is activated with, nothing once it
is drained, and what it served before a switch once that switch is rolled back.
-/

namespace Zelavis.Edge.Switching

open Lib Turns Tasks Switches

/-! ## What is seen -/

/-- What a policy names. -/
structure Named where
  adapterId : Option Utf16 := none
  publication : Option PublicationRef := none
  deriving DecidableEq

def named (policy : Option (Versioned Policy)) : Named :=
  ⟨policy.bind (·.value.activeAdapterId), policy.bind (·.value.activePublication)⟩

/-- What each adapter serves. -/
abbrev Serving := Utf16 → Option PublicationRef

/-- What each adapter served before a switch activated it, if the switch has. -/
abbrev Remembered := Utf16 → Utf16 → Option (Option PublicationRef)

def served (context : AdapterContext) (serving : Serving) (before : Remembered) :
    AdapterOperation → Serving
  | .activate a => fun b => if b = a then some context.publication.ref else serving b
  | .drain a => fun b => if b = a then none else serving b
  | .rollback a => fun b =>
    if b = a then (before context.switchId a).getD (serving a) else serving b
  | _ => serving

def remembered (context : AdapterContext) (serving : Serving) (before : Remembered) :
    AdapterOperation → Remembered
  | .activate a => fun id b =>
    if id = context.switchId ∧ b = a then some ((before id b).getD (serving b)) else before id b
  | _ => before

/-- What adapters are taken to do: activating one makes it serve, draining it makes it stop, and rolling
it back restores what it served before the switch activated it. -/
structure Behaviour {X : Type} (options : Options X) where
  serving : X → Serving
  before : X → Remembered
  serving_act : ∀ operation context x,
    serving (options.act operation context x) = served context (serving x) (before x) operation
  before_act : ∀ operation context x,
    before (options.act operation context x) = remembered context (serving x) (before x) operation

/-- What is seen of the store and the adapters, and what the policy named when the last switch was
made. -/
structure View where
  switch : Option (Versioned SwitchRecord)
  serving : Serving
  before : Remembered
  named : Named
  base : Named

/-! ## Where a switch leads -/

def ServesTarget (r : SwitchRecord) (v : View) : Prop :=
  v.serving r.targetAdapterId = some r.publication.ref

def PreviousServes (r : SwitchRecord) (v : View) : Prop :=
  ∀ previous, r.previousAdapterId = some previous → v.serving previous ≠ none

def TargetBack (r : SwitchRecord) (v : View) : Prop :=
  r.previousAdapterId ≠ some r.targetAdapterId → v.serving r.targetAdapterId = none

/-- The policy names the target and the publication of the switch, and the target serves it. -/
structure Forward (r : SwitchRecord) (v : View) : Prop where
  named : v.named = ⟨some r.targetAdapterId, some r.publication.ref⟩
  serves : ServesTarget r v

/-- The policy names the previous adapter and the publication it named when the switch was made, and the
previous adapter serves, not the target. -/
structure Back (r : SwitchRecord) (v : View) : Prop where
  named : v.named = ⟨r.previousAdapterId, v.base.publication⟩
  serves : PreviousServes r v
  target : TargetBack r v

/-! ## Calls that do not go wrong -/

def isEarly : SwitchPhase → Bool
  | .preflight | .stageCertificates | .stageRouting | .verify | .activateCertificates => true
  | _ => false

def isTraffic : SwitchPhase → Bool
  | .activateRouting | .drain | .commit => true
  | _ => false

def Own (request : Request) (r : SwitchRecord) : Prop :=
  ∃ controller publication, request = .switchAdapter controller r.targetAdapterId publication ∧
    publication.ref = r.publication.ref

section

variable {X : Type} (options : Options X)

def CanTurn (r : SwitchRecord) (v : View) : Prop :=
  (options.adapters r.targetAdapterId).any (·.rollsBack) = true ∨ TargetBack r v

/-- A call that does not go wrong. -/
structure Condition (request : Request) (e : Event) (v : View) (c : EdgeCall) : Prop where
  /-- A new switch names the adapter that is active, its identifier is new, and its target serves
  nothing unless it is that adapter. -/
  creates : ∀ observed operation, c = .createSwitch observed operation →
    operation.previousAdapterId = v.named.adapterId ∧ TargetBack operation v ∧
      v.before operation.id operation.targetAdapterId = none
  /-- Recovery goes forward only if the target serves, and back only if the policy is what it was and the
  target can be rolled back. -/
  verifies : ∀ a context r, c = .verify a context → v.switch = some r → isTraffic r.value.phase = true →
    if e.reply = .done ∧ e.verification.ready = true then ServesTarget r.value v
    else v.named = v.base ∧ CanTurn options r.value v
  resumes : ∀ observed next, c = .compareAndSetSwitch observed next → v.switch = some observed →
    next.phase = observed.value.phase → Own request observed.value →
    observed.value.phase = .drain ∨ observed.value.phase = .commit → ServesTarget observed.value v
  /-- A switch turns back only if the policy is what it was, the previous adapter serves and the target
  can be rolled back; and it is marked so, unless the target serves nothing. -/
  turns : ∀ observed next, c = .compareAndSetSwitch observed next → v.switch = some observed →
    next.phase = .rollback → observed.value.phase ≠ .rollback →
    v.named = v.base ∧ PreviousServes observed.value v ∧ CanTurn options observed.value v ∧
      (e.reply = .refused → TargetBack observed.value v)
  rollsBack : ∀ a context r, c = .adapter (.rollback a) context → v.switch = some r →
    r.value.phase = .rollback → Own request r.value → e.reply.happens = true ∨ TargetBack r.value v

/-! ## What holds at every call -/

/-- What a switch that is not over keeps: rolling it back leaves its target serving only if that is the
previous adapter, and a previous adapter that does not serve can be activated again. -/
structure Kept (r : SwitchRecord) (v : View) : Prop where
  previous : r.previousAdapterId = v.base.adapterId
  undone : (v.before r.id r.targetAdapterId).getD (v.serving r.targetAdapterId) = none ↔
    r.previousAdapterId ≠ some r.targetAdapterId
  spare : ∀ previous, r.previousAdapterId = some previous →
    v.serving previous ≠ none ∨ (options.adapters previous).isSome = true

/-- What holds of a switch, by its phase. -/
structure Sound (r : SwitchRecord) (v : View) : Prop where
  complete : r.phase = .complete → Forward r v
  failed : r.phase = .failed → Back r v
  kept : r.settled = false → Kept options r v
  early : isEarly r.phase = true → Back r v
  traffic : isTraffic r.phase = true →
    (options.adapters r.targetAdapterId).isSome = true ∧ (v.named = v.base ∨ Forward r v)
  rollback : r.phase = .rollback → v.named = v.base ∧ PreviousServes r v ∧ CanTurn options r v

/-- What holds of the switch there is; before the first one, the active adapter serves. -/
structure Inv (v : View) : Prop where
  sound : ∀ r, v.switch = some r → Sound options r.value v
  none : v.switch = none → ∀ a, v.named.adapterId = some a → v.serving a ≠ none

end

/-! ## What a call does -/

variable {context : AdapterContext}

section

variable {X : Type} {options : Options X} (B : Behaviour options)

def viewOf (s : Shared X) (base : Named) : View where
  switch := s.switch
  serving := B.serving s.edge
  before := B.before s.edge
  named := named s.policy
  base := base

def tracked (c : EdgeCall) (s s' : Shared X) (base : Named) : Named :=
  match c with
  | .createSwitch _ _ => if s'.switch = s.switch then base else named s.policy
  | _ => base

/-- A call that does not go wrong leads from what is seen before to what is seen after. -/
def Moves (request : Request) (c : EdgeCall) (v v' : View) (r : Except Fault (Answer c)) : Prop :=
  ∃ s s' base e, v = viewOf B s base ∧ Condition options request e v c ∧
    exec options e s c = some (s', r) ∧ v' = viewOf B s' (tracked c s s' base)

def isQuiet : EdgeCall → Bool
  | .compareAndSetPolicy _ _ | .createSwitch _ _ | .compareAndSetSwitch _ _ | .adapter _ _ => false
  | _ => true

variable {B} {request : Request} {v v' : View}

lemma quiet_of_moves {c : EdgeCall} {r : Except Fault (Answer c)} (h : Moves B request c v v' r)
    (hc : isQuiet c = true) : v' = v := by
  obtain ⟨s, s', base, e, rfl, -, hexec, rfl⟩ := h
  cases c with
  | policyRecord =>
    obtain ⟨rfl, -⟩ := Prod.ext_iff.1 (Option.some.inj hexec)
    have hnamed : named (e.stored (some (s.policy.getD ⟨initialPolicy options s.now, s.now⟩)) s.policy) =
        named s.policy := by
      unfold Event.stored
      split_ifs
      · cases s.policy <;> rfl
      · rfl
    show viewOf B _ base = viewOf B s base
    unfold viewOf
    rw [hnamed]
  | compareAndSetPolicy | createSwitch | compareAndSetSwitch | adapter => cases hc
  | _ =>
    obtain ⟨rfl, -⟩ := Prod.ext_iff.1 (Option.some.inj hexec)
    rfl

lemma clock_of_moves {r : Except Fault (Answer .clock)} (h : Moves B request .clock v v' r) :
    ∃ now, r = .ok now := by
  obtain ⟨s, s', base, e, -, -, hexec, -⟩ := h
  obtain ⟨-, rfl⟩ := Prod.ext_iff.1 (Option.some.inj hexec)
  exact ⟨s.now, rfl⟩

lemma getSwitch_of_moves {r : Except Fault (Answer .getSwitch)} {x : Option (Versioned SwitchRecord)}
    (h : Moves B request .getSwitch v v' r) (hr : r = .ok x) : x = v.switch := by
  obtain ⟨s, s', base, e, rfl, -, hexec, -⟩ := h
  obtain ⟨-, hanswer⟩ := Prod.ext_iff.1 (Option.some.inj hexec)
  have hanswer : e.answer s.switch = .ok x := hanswer.trans hr
  unfold Event.answer at hanswer
  split_ifs at hanswer
  exact (Except.ok.inj hanswer).symm

lemma verify_of_moves {a : Utf16}
    {r : Except Fault (Answer (.verify a context))} {record : Versioned SwitchRecord}
    (h : Moves B request (.verify a context) v v' r) (hrecord : v.switch = some record)
    (htraffic : isTraffic record.value.phase = true) :
    (∃ verification, r = .ok verification ∧ verification.ready = true ∧ ServesTarget record.value v) ∨
    ((∀ verification, r = .ok verification → verification.ready = false) ∧ v.named = v.base ∧
      CanTurn options record.value v) := by
  obtain ⟨s, s', base, e, -, hcondition, hexec, -⟩ := h
  have hverifies := hcondition.verifies a context record rfl hrecord htraffic
  obtain ⟨-, rfl⟩ := Prod.ext_iff.1 (Option.some.inj hexec)
  by_cases hready : e.reply = .done ∧ e.verification.ready = true
  · rw [if_pos hready] at hverifies
    exact .inl ⟨e.verification, if_pos hready.1, hready.2, hverifies⟩
  · rw [if_neg hready] at hverifies
    refine .inr ⟨fun verification hr => ?_, hverifies⟩
    unfold Event.answer at hr
    split_ifs at hr with hdone
    cases Except.ok.inj hr
    exact Bool.eq_false_iff.2 fun h => hready ⟨hdone, h⟩

lemma policy_of_moves {observed : Versioned Policy} {next : Policy}
    {r : Except Fault (Answer (.compareAndSetPolicy observed next))}
    (h : Moves B request (.compareAndSetPolicy observed next) v v' r) : (v' = v ∧ ∀ w, r ≠ .ok (some w)) ∨
      v' = { v with named := ⟨next.activeAdapterId, next.activePublication⟩ } ∧ r ≠ .ok none := by
  obtain ⟨s, s', base, e, rfl, -, hexec, rfl⟩ := h
  obtain ⟨rfl, rfl⟩ := Prod.ext_iff.1 (Option.some.inj hexec)
  rcases hwritten : compareAndSet s.now s.policy observed next with _ | w
  · refine .inl ⟨?_, fun w => ?_⟩
    · unfold viewOf Event.stored tracked
      simp [hwritten]
    · unfold Event.answer
      split_ifs <;> simp
  · obtain ⟨-, hvalue⟩ := compareAndSet_eq_some hwritten
    by_cases hhappens : e.reply.happens = true
    · refine .inr ⟨?_, ?_⟩
      · unfold viewOf Event.stored tracked named
        simp [hwritten, hhappens, hvalue]
      · unfold Event.answer
        split_ifs <;> simp
    · refine .inl ⟨?_, fun w => ?_⟩
      · unfold viewOf Event.stored tracked
        simp [hhappens]
      · have hdone : e.reply ≠ .done := by
          rintro hdone
          rw [hdone] at hhappens
          exact hhappens rfl
        unfold Event.answer
        simp [hdone]

lemma create_of_moves {observed : Option (Versioned SwitchRecord)} {operation : SwitchRecord}
    {r : Except Fault (Answer (.createSwitch observed operation))}
    (h : Moves B request (.createSwitch observed operation) v v' r) : (v' = v ∧ ∀ w, r ≠ .ok (some w)) ∨
      ∃ w, v.switch = observed ∧ w.value = operation ∧
        v' = { v with switch := some w, base := v.named } ∧ (∀ w', r = .ok w' → w' = some w) ∧
        operation.previousAdapterId = v.named.adapterId ∧ TargetBack operation v ∧
        v.before operation.id operation.targetAdapterId = none := by
  obtain ⟨s, s', base, e, rfl, hcondition, hexec, rfl⟩ := h
  have hcreates := hcondition.creates observed operation rfl
  obtain ⟨rfl, rfl⟩ := Prod.ext_iff.1 (Option.some.inj hexec)
  rcases hwritten : putAt s.now s.switch observed operation with _ | w
  · refine .inl ⟨?_, fun w => ?_⟩
    · unfold viewOf Event.stored tracked
      simp [hwritten]
    · unfold Event.answer
      split_ifs <;> simp
  · obtain ⟨hobserved, hvalue, hlater⟩ := putAt_eq_some hwritten
    by_cases hhappens : e.reply.happens = true
    · have hnew : some w ≠ s.switch := by
        intro heq
        exact absurd (hlater w (hobserved.symm.trans heq.symm)) (lt_irrefl _)
      refine .inr ⟨w, hobserved, hvalue, ?_, ?_, hcreates⟩
      · unfold viewOf Event.stored tracked
        simp [hwritten, hhappens, hnew]
      · unfold Event.answer
        intro w' hw'
        split_ifs at hw'
        exact (Except.ok.inj hw').symm
    · refine .inl ⟨?_, fun w => ?_⟩
      · unfold viewOf Event.stored tracked
        simp [hhappens]
      · have hdone : e.reply ≠ .done := by
          rintro hdone
          rw [hdone] at hhappens
          exact hhappens rfl
        unfold Event.answer
        simp [hdone]

lemma compareAndSet_self {α : Type} [DecidableEq α] {now : ℕ} {r : Versioned α} {value : α} :
    compareAndSet now (some r) r value = some ⟨value, max now (r.updatedAt + 1)⟩ := by
  unfold compareAndSet
  simp

lemma cas_of_moves {observed : Versioned SwitchRecord} {next : SwitchRecord}
    {r : Except Fault (Answer (.compareAndSetSwitch observed next))}
    (h : Moves B request (.compareAndSetSwitch observed next) v v' r) :
    (v' = v ∧ (∀ w, r ≠ .ok (some w)) ∧ (v.switch = some observed → next.phase = .rollback →
        observed.value.phase ≠ .rollback → v.named = v.base ∧ PreviousServes observed.value v ∧
          TargetBack observed.value v)) ∨
      ∃ w, v.switch = some observed ∧ w.value = next ∧ observed.updatedAt < w.updatedAt ∧
        v' = { v with switch := some w } ∧ (∀ w', r = .ok w' → w' = some w) ∧
        (next.phase = observed.value.phase → Own request observed.value →
          observed.value.phase = .drain ∨ observed.value.phase = .commit → ServesTarget observed.value v) ∧
        (next.phase = .rollback → observed.value.phase ≠ .rollback →
          v.named = v.base ∧ PreviousServes observed.value v ∧ CanTurn options observed.value v) := by
  obtain ⟨s, s', base, e, rfl, hcondition, hexec, rfl⟩ := h
  obtain ⟨rfl, rfl⟩ := Prod.ext_iff.1 (Option.some.inj hexec)
  by_cases hhappens : e.reply.happens = true
  · rcases hwritten : compareAndSet s.now s.switch observed next with _ | w
    · refine .inl ⟨?_, fun w => ?_, fun hswitch => ?_⟩
      · unfold viewOf Event.stored tracked
        simp [hwritten]
      · unfold Event.answer
        split_ifs <;> simp
      · have hswitch : s.switch = some observed := hswitch
        rw [hswitch, compareAndSet_self] at hwritten
        cases hwritten
    · obtain ⟨hobserved, hvalue⟩ := compareAndSet_eq_some hwritten
      refine .inr ⟨w, hobserved, hvalue, updatedAt_lt_of_compareAndSet hwritten, ?_, ?_, ?_, ?_⟩
      · unfold viewOf Event.stored tracked
        simp [hwritten, hhappens]
      · unfold Event.answer
        intro w' hw'
        split_ifs at hw'
        exact (Except.ok.inj hw').symm
      · exact hcondition.resumes observed next rfl hobserved
      · intro hnext hphase
        obtain ⟨hnamed, hserves, hturn, -⟩ := hcondition.turns observed next rfl hobserved hnext hphase
        exact ⟨hnamed, hserves, hturn⟩
  · have hrefused : e.reply = .refused := by
      by_contra hne
      exact hhappens (decide_eq_true hne)
    refine .inl ⟨?_, fun w => ?_, fun hswitch hnext hphase => ?_⟩
    · unfold viewOf Event.stored tracked
      simp [hhappens]
    · unfold Event.answer
      simp [hrefused]
    · obtain ⟨hnamed, hserves, -, hback⟩ := hcondition.turns observed next rfl hswitch hnext hphase
      exact ⟨hnamed, hserves, hback hrefused⟩

lemma adapter_of_moves {operation : AdapterOperation}
    {r : Except Fault (Answer (.adapter operation context))}
    (h : Moves B request (.adapter operation context) v v' r) :
    v' = { v with
        serving := served context v.serving v.before operation
        before := remembered context v.serving v.before operation } ∨
      v' = v ∧ (∀ u, r ≠ .ok u) ∧ ∀ a record, operation = .rollback a → v.switch = some record →
        record.value.phase = .rollback → Own request record.value → TargetBack record.value v := by
  obtain ⟨s, s', base, e, rfl, hcondition, hexec, rfl⟩ := h
  obtain ⟨rfl, rfl⟩ := Prod.ext_iff.1 (Option.some.inj hexec)
  by_cases hhappens : e.reply.happens = true
  · left
    unfold viewOf tracked
    simp only [if_pos hhappens, B.serving_act, B.before_act]
  · refine .inr ⟨?_, fun u => ?_, fun a record hoperation hrecord hphase hown => ?_⟩
    · unfold viewOf tracked
      simp only [if_neg hhappens]
    · have hdone : e.reply ≠ .done := by
        rintro hdone
        rw [hdone] at hhappens
        exact hhappens rfl
      unfold Event.answer
      simp [hdone]
    · subst hoperation
      exact (hcondition.rollsBack a context record rfl hrecord hphase hown).resolve_left hhappens

end

end Zelavis.Edge.Switching
