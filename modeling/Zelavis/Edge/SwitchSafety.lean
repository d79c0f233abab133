import Zelavis.Edge.SwitchServing

/-!
# Where switches leave the policy and the adapters

Over `edge/index.ts` `createZelavisEdgeManager`: a switch that is complete, and one that has failed, after
any requests, failures, crashes and reconciliations.
-/

namespace Zelavis.Edge.Switching

open Lib Turns Tasks Switches Option
open Tasks.Task (safe_bind safe_perform safe_tryCatch)

variable {phase : SwitchPhase} {a : Utf16} {r : SwitchRecord}

section

variable {X : Type} {options : Options X}

/-! ## The same switch -/

/-- The same switch, and the same is seen. -/
structure Like (r : SwitchRecord) (v : View) (r' : SwitchRecord) (v' : View) : Prop where
  id : r'.id = r.id
  target : r'.targetAdapterId = r.targetAdapterId
  previous : r'.previousAdapterId = r.previousAdapterId
  publication : r'.publication = r.publication
  serving : v'.serving = v.serving
  before : v'.before = v.before
  named : v'.named = v.named
  base : v'.base = v.base

variable {r r' : SwitchRecord} {v v' : View}

section

variable (h : Like r v r' v')
include h

lemma Like.servesTarget (hserves : ServesTarget r v) : ServesTarget r' v' := by
  unfold ServesTarget
  rw [h.serving, h.target, h.publication]
  exact hserves

lemma Like.previousServes (hserves : PreviousServes r v) : PreviousServes r' v' := by
  unfold PreviousServes
  rw [h.serving, h.previous]
  exact hserves

lemma Like.targetBack (hback : TargetBack r v) : TargetBack r' v' := by
  unfold TargetBack
  rw [h.serving, h.previous, h.target]
  exact hback

lemma Like.canTurn (hturn : CanTurn options r v) : CanTurn options r' v' := by
  unfold CanTurn
  rw [h.target]
  exact hturn.imp_right h.targetBack

lemma Like.forward (hforward : Forward r v) : Forward r' v' where
  named := by
    rw [h.named, h.target, h.publication]
    exact hforward.named
  serves := h.servesTarget hforward.serves

lemma Like.back (hback : Back r v) : Back r' v' where
  named := by
    rw [h.named, h.previous, h.base]
    exact hback.named
  serves := h.previousServes hback.serves
  target := h.targetBack hback.target

lemma Like.kept (hkept : Kept options r v) : Kept options r' v' where
  previous := by
    rw [h.previous, h.base]
    exact hkept.previous
  undone := by
    rw [h.before, h.serving, h.id, h.target, h.previous]
    exact hkept.undone
  spare := by
    rw [h.previous, h.serving]
    exact hkept.spare

lemma Like.based (hnamed : v.named = v.base) : v'.named = v'.base := by
  rw [h.named, h.base, hnamed]

lemma Like.own {request : Request} (hown : Own request r) : Own request r' := by
  unfold Own
  rw [h.target, h.publication]
  exact hown

lemma Like.sound (hphase : r'.phase = r.phase) (hsound : Sound options r v) :
    Sound options r' v' where
  complete := fun heq => h.forward (hsound.complete (hphase ▸ heq))
  failed := fun heq => h.back (hsound.failed (hphase ▸ heq))
  kept := fun hopen => by
    refine h.kept (hsound.kept ?_)
    unfold SwitchRecord.settled at hopen ⊢
    rw [← hphase]
    exact hopen
  early := fun hearly => h.back (hsound.early (hphase ▸ hearly))
  traffic := fun htraffic => by
    obtain ⟨hregistered, hnamed⟩ := hsound.traffic (hphase ▸ htraffic)
    rw [h.target]
    exact ⟨hregistered, hnamed.imp h.based h.forward⟩
  rollback := fun heq => by
    obtain ⟨hnamed, hserves, hturn⟩ := hsound.rollback (hphase ▸ heq)
    exact ⟨h.based hnamed, h.previousServes hserves, h.canTurn hturn⟩

end

/-! ## A switch by its phase -/

lemma isTraffic_of_isEarly (h : isEarly phase = true) : isTraffic phase = false := by
  cases phase <;> first | rfl | cases h

lemma sound_of_complete (hphase : r.phase = .complete) (hforward : Forward r v) : Sound options r v where
  complete := fun _ => hforward
  failed := fun h => by rw [hphase] at h; cases h
  kept := fun h => by
    unfold SwitchRecord.settled at h
    rw [hphase] at h
    cases h
  early := fun h => by rw [hphase] at h; cases h
  traffic := fun h => by rw [hphase] at h; cases h
  rollback := fun h => by rw [hphase] at h; cases h

lemma sound_of_failed (hphase : r.phase = .failed) (hback : Back r v) : Sound options r v where
  complete := fun h => by rw [hphase] at h; cases h
  failed := fun _ => hback
  kept := fun h => by
    unfold SwitchRecord.settled at h
    rw [hphase] at h
    cases h
  early := fun h => by rw [hphase] at h; cases h
  traffic := fun h => by rw [hphase] at h; cases h
  rollback := fun h => by rw [hphase] at h; cases h

lemma sound_of_early (hphase : isEarly r.phase = true) (hkept : Kept options r v)
    (hback : Back r v) : Sound options r v where
  complete := fun h => by rw [h] at hphase; cases hphase
  failed := fun h => by rw [h] at hphase; cases hphase
  kept := fun _ => hkept
  early := fun _ => hback
  traffic := fun h => by rw [isTraffic_of_isEarly hphase] at h; cases h
  rollback := fun h => by rw [h] at hphase; cases hphase

lemma sound_of_traffic (hphase : isTraffic r.phase = true) (hkept : Kept options r v)
    (hregistered : (options.adapters r.targetAdapterId).isSome = true)
    (hnamed : v.named = v.base ∨ Forward r v) : Sound options r v where
  complete := fun h => by rw [h] at hphase; cases hphase
  failed := fun h => by rw [h] at hphase; cases hphase
  kept := fun _ => hkept
  early := fun h => by rw [isTraffic_of_isEarly h] at hphase; cases hphase
  traffic := fun _ => ⟨hregistered, hnamed⟩
  rollback := fun h => by rw [h] at hphase; cases hphase

lemma sound_of_rollback (hphase : r.phase = .rollback) (hkept : Kept options r v)
    (hnamed : v.named = v.base) (hserves : PreviousServes r v) (hturn : CanTurn options r v) :
    Sound options r v where
  complete := fun h => by rw [hphase] at h; cases h
  failed := fun h => by rw [hphase] at h; cases h
  kept := fun _ => hkept
  early := fun h => by rw [hphase] at h; cases h
  traffic := fun h => by rw [hphase] at h; cases h
  rollback := fun _ => ⟨hnamed, hserves, hturn⟩

lemma based_of_back (hkept : Kept options r v) (hback : Back r v) : v.named = v.base := by
  rw [hback.named, hkept.previous]

lemma back_of_based (hkept : Kept options r v) (hnamed : v.named = v.base)
    (hserves : PreviousServes r v) (htarget : TargetBack r v) : Back r v where
  named := by rw [hnamed, hkept.previous]
  serves := hserves
  target := htarget

lemma inv_of_sound {stored : Versioned SwitchRecord} (hswitch : v.switch = some stored)
    (hsound : Sound options stored.value v) : Inv options v where
  sound := fun r hr => by
    cases hswitch.symm.trans hr
    exact hsound
  none := fun hnone => by
    rw [hswitch] at hnone
    cases hnone

/-! ## What operations leave -/

def acted (operation : AdapterOperation) (context : AdapterContext) (v : View) : View :=
  { v with
    serving := served context v.serving v.before operation
    before := remembered context v.serving v.before operation }

lemma serving_rollback (hkept : Kept options r v) :
    (acted (.rollback r.targetAdapterId) r.context v).serving r.targetAdapterId = none ↔
      r.previousAdapterId ≠ some r.targetAdapterId := by
  have hserving : (acted (.rollback r.targetAdapterId) r.context v).serving r.targetAdapterId =
      (v.before r.id r.targetAdapterId).getD (v.serving r.targetAdapterId) := if_pos rfl
  rw [hserving]
  exact hkept.undone

lemma serving_rollback_of_ne (ha : a ≠ r.targetAdapterId) :
    (acted (.rollback r.targetAdapterId) r.context v).serving a = v.serving a := if_neg ha

lemma targetBack_rollback (hkept : Kept options r v) :
    TargetBack r (acted (.rollback r.targetAdapterId) r.context v) :=
  (serving_rollback hkept).2

lemma previousServes_rollback (hkept : Kept options r v) (hserves : PreviousServes r v) :
    PreviousServes r (acted (.rollback r.targetAdapterId) r.context v) := by
  intro previous hprevious
  by_cases hsame : previous = r.targetAdapterId
  · subst hsame
    exact fun hnone => (serving_rollback hkept).1 hnone hprevious
  · rw [serving_rollback_of_ne hsame]
    exact hserves previous hprevious

lemma kept_rollback (hkept : Kept options r v) :
    Kept options r (acted (.rollback r.targetAdapterId) r.context v) where
  previous := hkept.previous
  undone := by
    rw [← serving_rollback hkept]
    have hserving : (acted (.rollback r.targetAdapterId) r.context v).serving r.targetAdapterId =
        (v.before r.id r.targetAdapterId).getD (v.serving r.targetAdapterId) := if_pos rfl
    have hbefore : (acted (.rollback r.targetAdapterId) r.context v).before = v.before := rfl
    rw [hbefore, hserving]
    cases v.before r.id r.targetAdapterId with
    | none | some => rfl
  spare := fun previous hprevious => by
    by_cases hsame : previous = r.targetAdapterId
    · subst hsame
      exact .inl fun hnone => (serving_rollback hkept).1 hnone hprevious
    · rw [serving_rollback_of_ne hsame]
      exact hkept.spare previous hprevious

lemma servesTarget_activate : ServesTarget r (acted (.activate r.targetAdapterId) r.context v) :=
  if_pos rfl

lemma serving_activate_of_ne {a b : Utf16} (hb : b ≠ a) :
    (acted (.activate a) r.context v).serving b = v.serving b := if_neg hb

lemma serving_activate_ne_none : (acted (.activate a) r.context v).serving a ≠ none := by
  have hserving : (acted (.activate a) r.context v).serving a = some r.publication.ref := if_pos rfl
  rw [hserving]
  exact some_ne_none _

lemma undone_activate (a : Utf16) : ((acted (.activate a) r.context v).before r.id r.targetAdapterId).getD
        ((acted (.activate a) r.context v).serving r.targetAdapterId) =
      (v.before r.id r.targetAdapterId).getD (v.serving r.targetAdapterId) := by
  by_cases hsame : r.targetAdapterId = a
  · have hbefore : (acted (.activate a) r.context v).before r.id r.targetAdapterId =
        some ((v.before r.id r.targetAdapterId).getD (v.serving r.targetAdapterId)) :=
      if_pos ⟨rfl, hsame⟩
    rw [hbefore, getD_some]
  · have hbefore : (acted (.activate a) r.context v).before r.id r.targetAdapterId =
        v.before r.id r.targetAdapterId := if_neg fun h => hsame h.2
    rw [hbefore, serving_activate_of_ne hsame]

lemma kept_activate (a : Utf16) (hkept : Kept options r v) :
    Kept options r (acted (.activate a) r.context v) where
  previous := hkept.previous
  undone := by
    rw [undone_activate]
    exact hkept.undone
  spare := fun previous hprevious => by
    by_cases hsame : previous = a
    · subst hsame
      exact .inl serving_activate_ne_none
    · rw [serving_activate_of_ne hsame]
      exact hkept.spare previous hprevious

lemma serving_drain_of_ne {a b : Utf16} (hb : b ≠ a) :
    (acted (.drain a) r.context v).serving b = v.serving b := if_neg hb

lemma kept_drain {previous : Utf16} (hprevious : r.previousAdapterId = some previous)
    (hne : previous ≠ r.targetAdapterId) (hregistered : (options.adapters previous).isSome = true)
    (hkept : Kept options r v) : Kept options r (acted (.drain previous) r.context v) where
  previous := hkept.previous
  undone := by
    rw [serving_drain_of_ne hne.symm]
    exact hkept.undone
  spare := fun a ha => by
    cases hprevious.symm.trans ha
    exact .inr hregistered

end

/-! ## Calls -/

variable {F : Fault → View → Prop} {Q : Unit → View → Prop} {record : SwitchRecord} {error : Utf16}
  {w : Versioned SwitchRecord}
  {operation : AdapterOperation} {context : AdapterContext} {cause aggregate : Utf16}

section

variable {X : Type} {options : Options X} {B : Behaviour options} {request : Request}
  {controller : Controller} {stored : Versioned SwitchRecord} {v : View}

/-- A program of a request keeps the invariant, with what holds where it answers and where it fails. -/
abbrev Keeps (B : Behaviour options) (request : Request) {α : Type} (t : Program α) (Q : α → View → Prop)
    (F : Fault → View → Prop) : View → Prop := t.Safe (Inv options) (Moves B request) Q F

abbrev Steady (B : Behaviour options) (request : Request) {α : Type} (t : Program α) : View → Prop :=
  Keeps B request t (fun _ _ => True) fun _ _ => True

lemma safe_quiet {c : EdgeCall} {Q : Answer c → View → Prop}
    (hc : isQuiet c = true) (hI : Inv options v) (hQ : ∀ a, Q a v) (hF : ∀ e, F e v) :
    Keeps B request (make c) Q F v := by
  refine safe_perform fun v' r hmoves => ?_
  cases quiet_of_moves hmoves hc
  exact ⟨hI, fun a _ => hQ a, fun e _ => hF e⟩

lemma safe_clock {Q : ℕ → View → Prop} (hI : Inv options v)
    (hQ : ∀ now, Q now v) : Keeps B request (make .clock) Q F v := by
  refine safe_perform fun v' r hmoves => ?_
  cases quiet_of_moves hmoves rfl
  obtain ⟨now, rfl⟩ := clock_of_moves hmoves
  exact ⟨hI, fun a _ => hQ a, fun e he => by cases he⟩

lemma safe_getSwitch {Q : Option (Versioned SwitchRecord) → View → Prop}
    (hI : Inv options v) (hQ : Q v.switch v) (hF : ∀ e, F e v) : Keeps B request (make .getSwitch) Q F v := by
  refine safe_perform fun v' r hmoves => ?_
  cases quiet_of_moves hmoves rfl
  refine ⟨hI, fun a ha => ?_, fun e _ => hF e⟩
  cases getSwitch_of_moves hmoves ha
  exact hQ

lemma safe_adapter (hI : Inv options v)
    (hI' : Inv options (acted operation context v)) (hQ : Q () (acted operation context v))
    (hF : ∀ e, F e (acted operation context v))
    (hF' : (∀ a record, operation = .rollback a → v.switch = some record →
      record.value.phase = .rollback → Own request record.value → TargetBack record.value v) → ∀ e, F e v) :
    Keeps B request (make (.adapter operation context)) Q F v := by
  refine safe_perform fun v' r hmoves => ?_
  obtain rfl | ⟨rfl, hfails, hback⟩ := adapter_of_moves hmoves
  · exact ⟨hI', fun _ _ => hQ, fun e _ => hF e⟩
  · exact ⟨hI, fun u hu => absurd hu (hfails u), fun e _ => hF' hback e⟩

lemma safe_harmless
    (hharmless : acted operation context v = v) (hI : Inv options v) (hQ : Q () v) (hF : ∀ e, F e v) :
    Keeps B request (make (.adapter operation context)) Q F v := by
  have hI' : Inv options (acted operation context v) := by
    rw [hharmless]
    exact hI
  refine safe_adapter hI hI' ?_ (fun e => ?_) fun _ => hF
  · rw [hharmless]
    exact hQ
  · rw [hharmless]
    exact hF e

lemma safe_rollbackCertificates (hI : Inv options v) (hQ : Q () v) (hF : ∀ e, F e v) :
    Keeps B request (rollbackCertificates options record) Q F v := by
  unfold rollbackCertificates optionally
  split
  · exact safe_harmless rfl hI hQ hF
  · exact hQ

lemma safe_rollbackTarget (hI : Inv options v)
    (hI' : Inv options (acted (.rollback record.targetAdapterId) record.context v))
    (hQ : Q () (acted (.rollback record.targetAdapterId) record.context v))
    (hQ' : (options.adapters record.targetAdapterId).any (·.rollsBack) = false → Q () v)
    (hF : ∀ e, F e (acted (.rollback record.targetAdapterId) record.context v))
    (hF' : (∀ r, v.switch = some r → r.value.phase = .rollback → Own request r.value →
      TargetBack r.value v) → ∀ e, F e v) : Keeps B request (rollbackTarget options record) Q F v := by
  unfold rollbackTarget optionally
  split
  case isTrue =>
    exact safe_adapter hI hI' hQ hF fun hback =>
      hF' fun r => hback record.targetAdapterId r rfl
  case isFalse h => exact hQ' (Bool.eq_false_iff.2 h)

def Drained (options : Options X) (record : SwitchRecord) (v v' : View) : Prop :=
  v' = v ∨ ∃ previous, record.previousAdapterId = some previous ∧
    previous ≠ record.targetAdapterId ∧ (options.adapters previous).isSome = true ∧
    v' = acted (.drain previous) record.context v

lemma safe_drainPrevious (hI : ∀ v', Drained options record v v' → Inv options v')
    (hQ : ∀ v', Drained options record v v' → Q () v')
    (hF : ∀ v', Drained options record v v' → ∀ e, F e v') :
    Keeps B request (drainPrevious options record) Q F v := by
  have hsame : Drained options record v v := .inl rfl
  unfold drainPrevious
  split
  case h_1 => exact hQ v hsame
  case h_2 previous heq =>
    obtain ⟨hprevious, hregistered⟩ := filter_eq_some_iff.1 heq
    unfold optionally
    split
    case isTrue h =>
      obtain ⟨hne, -⟩ := Bool.and_eq_true_iff.1 h
      have hdrained : Drained options record v (acted (.drain previous) record.context v) :=
        .inr ⟨previous, hprevious, of_decide_eq_true hne, hregistered, rfl⟩
      exact safe_adapter (hI v hsame) (hI _ hdrained) (hQ _ hdrained) (hF _ hdrained) fun _ =>
        hF v hsame
    case isFalse => exact hQ v hsame

lemma safe_writePolicy {targetAdapterId : Utf16} {publication : EdgePublication} {attempts : ℕ}
    (hI : Inv options v) (hI' : Inv options { v with named := ⟨some targetAdapterId, some publication.ref⟩ })
    (hQ : Q () { v with named := ⟨some targetAdapterId, some publication.ref⟩ }) (hF : ∀ e, F e v)
    (hF' : ∀ e, F e { v with named := ⟨some targetAdapterId, some publication.ref⟩ }) :
    Keeps B request (writePolicy targetAdapterId publication attempts) Q F v := by
  induction attempts with
  | zero => exact hF _
  | succ attempts ih =>
    refine safe_bind (safe_quiet rfl hI (fun current => ?_) hF)
    refine safe_bind (safe_clock hI fun now => ?_)
    refine safe_bind (safe_perform fun v' r hmoves => ?_)
    obtain ⟨rfl, hnot⟩ | ⟨rfl, hnot⟩ := policy_of_moves hmoves
    · refine ⟨hI, fun written hwritten => ?_, fun e _ => hF e⟩
      cases written with
      | none => exact ih
      | some w => exact absurd hwritten (hnot w)
    · refine ⟨hI', fun written hwritten => ?_, fun e _ => hF' e⟩
      cases written with
      | none => exact absurd hwritten hnot
      | some w => exact hQ

/-- The record of a switch has been written with another phase. -/
structure Marked (options : Options X) (stored : Versioned SwitchRecord) (phase : SwitchPhase)
    (v : View) (w : Versioned SwitchRecord) : Prop where
  like : Like stored.value v w.value { v with switch := some w }
  there : w.value.phase = phase
  later : stored.updatedAt < w.updatedAt
  turns : phase = .rollback → stored.value.phase ≠ .rollback →
    v.named = v.base ∧ PreviousServes stored.value v ∧ CanTurn options stored.value v

def Stale (stored : Versioned SwitchRecord) (v : View) : Prop :=
  ∃ w, v.switch = some w ∧ stored.updatedAt < w.updatedAt

lemma Marked.stale (h : Marked options stored phase v w) : Stale stored { v with switch := some w } :=
  ⟨w, rfl, h.later⟩

lemma safe_persistSwitch {Q : Versioned SwitchRecord → View → Prop} (hI : Inv options v)
    (hsound : ∀ w, Marked options stored phase v w → Sound options w.value { v with switch := some w })
    (hQ : ∀ w, Marked options stored phase v w → Q w { v with switch := some w })
    (hF : ∀ w, Marked options stored phase v w → ∀ e, F e { v with switch := some w })
    (hF' : (v.switch = some stored → phase = .rollback → stored.value.phase ≠ .rollback →
      v.named = v.base ∧ PreviousServes stored.value v ∧ TargetBack stored.value v) → ∀ e, F e v) :
    Keeps B request (persistSwitch controller stored phase error) Q F v := by
  refine safe_bind (safe_clock hI fun now => ?_)
  refine safe_bind (safe_perform fun v' r hmoves => ?_)
  obtain ⟨rfl, hnot, hrefused⟩ | ⟨w, -, hvalue, hlater, rfl, hanswer, -, hturns⟩ := cas_of_moves hmoves
  · refine ⟨hI, fun written hwritten => ?_, fun e _ => hF' hrefused e⟩
    cases written with
    | none => exact hF' hrefused _
    | some w => exact absurd hwritten (hnot w)
  · have hmarked : Marked options stored phase v w := by
      refine ⟨⟨?_, ?_, ?_, ?_, rfl, rfl, rfl, rfl⟩, ?_, hlater, hturns⟩ <;> rw [hvalue]
    have hI' : Inv options { v with switch := some w } := inv_of_sound rfl (hsound w hmarked)
    refine ⟨hI', fun written hwritten => ?_, fun e _ => hF w hmarked e⟩
    cases hanswer written hwritten
    exact safe_bind (safe_quiet rfl hI' (fun _ => hQ w hmarked) (hF w hmarked))

lemma safe_persistSwitch_of_stale {Q : Versioned SwitchRecord → View → Prop} (hI : Inv options v)
    (hstale : Stale stored v) (hF : ∀ e, F e v) :
    Keeps B request (persistSwitch controller stored phase error) Q F v := by
  refine safe_bind (safe_clock hI fun now => ?_)
  refine safe_bind (safe_perform fun v' r hmoves => ?_)
  obtain ⟨rfl, hnot, -⟩ | ⟨w, hswitch, -⟩ := cas_of_moves hmoves
  · refine ⟨hI, fun written hwritten => ?_, fun e _ => hF e⟩
    cases written with
    | none => exact hF _
    | some w => exact absurd hwritten (hnot w)
  · obtain ⟨w', hw', hlater⟩ := hstale
    cases hswitch.symm.trans hw'
    exact absurd hlater (lt_irrefl _)

/-! ## Turning back -/

/-- A phase has failed: the record is still what it was, or it is not the last one any more. -/
def Left (stored : Versioned SwitchRecord) (v : View) : Prop :=
  (v.switch = some stored ∧ (isEarly stored.value.phase = true ∨ isTraffic stored.value.phase = true)) ∨
    Stale stored v

lemma settled_of_running
    (h : isEarly r.phase = true ∨ isTraffic r.phase = true) : r.settled = false := by
  unfold SwitchRecord.settled
  cases hphase : r.phase <;> rw [hphase] at h <;> first | rfl | simp [isEarly, isTraffic] at h

lemma ne_rollback_of_running
    (h : isEarly r.phase = true ∨ isTraffic r.phase = true) : r.phase ≠ .rollback := by
  intro hphase
  rw [hphase] at h
  simp [isEarly, isTraffic] at h

lemma kept_of_running (hI : Inv options v) (hswitch : v.switch = some stored)
    (h : isEarly stored.value.phase = true ∨ isTraffic stored.value.phase = true) :
    Kept options stored.value v :=
  (hI.sound stored hswitch).kept (settled_of_running h)

def Ready (record : Versioned SwitchRecord) (v : View) : Prop :=
  (v.switch = some record ∧ Back record.value v) ∨ Stale record v

lemma safe_persistSwitch_failed {Q : Versioned SwitchRecord → View → Prop}
    (hI : Inv options v) (hready : Ready stored v) (hQ : ∀ w v', Q w v') (hF : ∀ e v', F e v') :
    Keeps B request (persistSwitch controller stored .failed error) Q F v := by
  obtain ⟨-, hback⟩ | hstale := hready
  · exact safe_persistSwitch hI (fun w hw => sound_of_failed hw.there (hw.like.back hback))
      (fun _ _ => hQ _ _) (fun _ _ _ => hF _ _) fun _ _ => hF _ _
  · exact safe_persistSwitch_of_stale hI hstale fun _ => hF _ _

lemma safe_turning (hI : Inv options v)
    (hswitch : v.switch = some stored) (hphase : stored.value.phase = .rollback)
    (hown : Own request stored.value) :
    Keeps B request (Task.tryCatch
      (do
        rollbackTarget options stored.value
        rollbackCertificates options stored.value
        pure (stored, cause) : Program (Versioned SwitchRecord × Utf16))
      fun _ => pure (stored, aggregate))
        (fun back v' => Ready back.1 v') (fun _ _ => False) v := by
  have hsound := hI.sound stored hswitch
  obtain ⟨hnamed, hserves, hturn⟩ := hsound.rollback hphase
  have hkept : Kept options stored.value v := hsound.kept (by
    unfold SwitchRecord.settled
    rw [hphase]
    rfl)
  have hrolled : Back stored.value
      (acted (.rollback stored.value.targetAdapterId) stored.value.context v) :=
    back_of_based (kept_rollback hkept) hnamed (previousServes_rollback hkept hserves)
      (targetBack_rollback hkept)
  have hI' : Inv options (acted (.rollback stored.value.targetAdapterId) stored.value.context v) :=
    inv_of_sound hswitch (sound_of_rollback hphase (kept_rollback hkept) hnamed hrolled.serves
      (.inr hrolled.target))
  have hback : TargetBack stored.value v → Back stored.value v := back_of_based hkept hnamed hserves
  refine safe_tryCatch (safe_bind (safe_rollbackTarget hI hI' ?_ (fun hnone => ?_)
    (fun _ => .inl ⟨hswitch, hrolled⟩) fun hrefused _ => ?_))
  · exact safe_bind (safe_rollbackCertificates hI' (.inl ⟨hswitch, hrolled⟩) fun _ =>
      .inl ⟨hswitch, hrolled⟩)
  · have hready : Ready stored v := by
      refine .inl ⟨hswitch, hback (hturn.resolve_left ?_)⟩
      rw [hnone]
      exact Bool.false_ne_true
    exact safe_bind (safe_rollbackCertificates hI hready fun _ => hready)
  · exact .inl ⟨hswitch, hback (hrefused stored hswitch hphase hown)⟩

lemma safe_marking (hI : Inv options v) (hown : Own request stored.value)
    (hleft : Left stored v) :
    (Task.tryCatch
      (do
        let rollingBack ← persistSwitch controller stored .rollback cause
        Task.tryCatch
          (do
            rollbackTarget options rollingBack.value
            rollbackCertificates options rollingBack.value
            pure (rollingBack, cause))
          fun _ => pure (rollingBack, aggregate) : Program (Versioned SwitchRecord × Utf16))
      fun _ => pure (stored, aggregate)).Safe (Inv options) (Moves B request)
        (fun back v' => Ready back.1 v') (fun _ _ => False) v := by
  refine safe_tryCatch (safe_bind ?_)
  obtain ⟨hswitch, hrunning⟩ | hstale := hleft
  · have hkept := kept_of_running hI hswitch hrunning
    have hne := ne_rollback_of_running hrunning
    have hsound : ∀ w, Marked options stored .rollback v w →
        Sound options w.value { v with switch := some w } := fun w hw => by
      obtain ⟨hnamed, hserves, hturn⟩ := hw.turns rfl hne
      exact sound_of_rollback hw.there (hw.like.kept hkept) (hw.like.based hnamed)
        (hw.like.previousServes hserves) (hw.like.canTurn hturn)
    refine safe_persistSwitch hI hsound (fun w hw => ?_) (fun w hw _ => .inr hw.stale)
      fun hrefused _ => ?_
    · exact Task.Safe.mono
        (safe_turning (inv_of_sound rfl (hsound w hw)) rfl hw.there (hw.like.own hown))
        (fun _ _ h => h) fun _ _ h => h.elim
    · obtain ⟨hnamed, hserves, htarget⟩ := hrefused hswitch rfl hne
      exact .inl ⟨hswitch, back_of_based hkept hnamed hserves htarget⟩
  · exact safe_persistSwitch_of_stale hI hstale fun _ => .inr hstale

lemma safe_turnBack {fault : Fault} (hI : Inv options v) (hown : Own request stored.value)
    (hleft : Left stored v) : Keeps B request (turnBack options controller stored fault)
      (fun _ _ => False) (fun _ _ => True) v := by
  cases fault with
  | conflict => exact trivial
  | failed cause =>
    refine safe_bind (Task.Safe.mono (Task.Safe.inv hI (safe_marking hI hown hleft))
      (fun back v' hback => ?_) fun _ _ _ => trivial)
    obtain ⟨record, message⟩ := back
    obtain ⟨hI', hready⟩ := hback
    exact safe_bind (safe_persistSwitch_failed hI' hready (fun _ _ => trivial) fun _ _ => trivial)

/-! ## The phases -/

/-- A switch goes on: its record is what is stored, and after the activation its target serves. -/
structure Goes (request : Request) (record : Versioned SwitchRecord) (v : View) : Prop where
  switch : v.switch = some record
  own : Own request record.value
  serves : record.value.phase = .drain ∨ record.value.phase = .commit → ServesTarget record.value v

section

variable (hI : Inv options v)
include hI

lemma safe_advance (hswitch : v.switch = some stored) (hown : Own request stored.value)
    (hrunning : isEarly stored.value.phase = true ∨ isTraffic stored.value.phase = true)
    (hsound : ∀ w, Marked options stored phase v w → Sound options w.value { v with switch := some w })
    (hserves : phase = .drain ∨ phase = .commit → ServesTarget stored.value v) :
    Keeps B request (persistSwitch controller stored phase []) (Goes request) (fun _ => Left stored) v := by
  refine safe_persistSwitch hI hsound (fun w hw => ?_) (fun w hw _ => .inr hw.stale) fun _ _ =>
    .inl ⟨hswitch, hrunning⟩
  refine ⟨rfl, hw.like.own hown, fun h => ?_⟩
  rw [hw.there] at h
  exact hw.like.servesTarget (hserves h)

lemma safe_advance_of_early
    (hswitch : v.switch = some stored) (hown : Own request stored.value)
    (hearly : isEarly stored.value.phase = true) (hphase : isEarly phase = true) :
    Keeps B request (persistSwitch controller stored phase []) (Goes request) (fun _ => Left stored) v := by
  have hkept := kept_of_running hI hswitch (.inl hearly)
  have hback := (hI.sound stored hswitch).early hearly
  refine safe_advance hI hswitch hown (.inl hearly) (fun w hw => ?_) fun h => ?_
  · exact sound_of_early (hw.there ▸ hphase) (hw.like.kept hkept) (hw.like.back hback)
  · obtain rfl | rfl := h <;> cases hphase

lemma safe_preflight {target : Registered} (hQ : Q () v) (hF : ∀ e, F e v) :
    Keeps B request (preflight record target) Q F v := by
  refine safe_bind (safe_quiet rfl hI (fun _ => ?_) hF)
  refine safe_bind (safe_quiet rfl hI (fun detection => ?_) hF)
  dsimp only
  split
  · exact hQ
  · exact hF _

lemma safe_verifyStaged (hQ : Q () v) (hF : ∀ e, F e v) :
    Keeps B request (verifyStaged record) Q F v := by
  refine safe_bind (safe_quiet rfl hI (fun verification => ?_) hF)
  split
  · exact hQ
  · exact hF _

lemma safe_activateRouting
    (hI' : Inv options (acted (.activate record.targetAdapterId) record.context v))
    (hQ : Q () (acted (.activate record.targetAdapterId) record.context v)) (hF : ∀ e, F e v)
    (hF' : ∀ e, F e (acted (.activate record.targetAdapterId) record.context v)) :
    Keeps B request (activateRouting options record) Q F v := by
  unfold activateRouting
  split
  · refine safe_bind (safe_quiet rfl hI (fun current => ?_) hF)
    split
    · exact safe_adapter hI hI' hQ hF' fun _ => hF
    · exact hF _
  · exact safe_adapter hI hI' hQ hF' fun _ => hF

end

/-- The policy that names what it did, or the target and its publication, after the target has come to
serve. -/
theorem named_activate (h : v.named = v.base ∨ Forward r v) :
    v.named = v.base ∨ Forward r (acted (.activate r.targetAdapterId) r.context v) :=
  h.imp_right fun hforward => ⟨hforward.named, servesTarget_activate⟩

section Drained

variable {r : SwitchRecord} {v' : View}

section

variable (h : Drained options r v v')
include h

lemma Drained.switch : v'.switch = v.switch := by
  obtain rfl | ⟨previous, -, -, -, rfl⟩ := h <;> rfl

lemma Drained.servesTarget (hserves : ServesTarget r v) :
    ServesTarget r v' := by
  obtain rfl | ⟨previous, -, hne, -, rfl⟩ := h
  · exact hserves
  · exact (serving_drain_of_ne hne.symm).trans hserves

lemma Drained.kept (hkept : Kept options r v) : Kept options r v' := by
  obtain rfl | ⟨previous, hprevious, hne, hregistered, rfl⟩ := h
  · exact hkept
  · exact kept_drain hprevious hne hregistered hkept

lemma Drained.traffic (hnamed : v.named = v.base ∨ Forward r v) :
    v'.named = v'.base ∨ Forward r v' := by
  obtain rfl | ⟨previous, -, hne, -, rfl⟩ := h
  · exact hnamed
  · exact hnamed.imp_right fun hforward =>
      ⟨hforward.named, (serving_drain_of_ne hne.symm).trans hforward.serves⟩

lemma Drained.sound (hphase : isTraffic r.phase = true)
    (hkept : Kept options r v) (hsound : Sound options r v) : Sound options r v' := by
  obtain ⟨hregistered, hnamed⟩ := hsound.traffic hphase
  exact sound_of_traffic hphase (h.kept hkept) hregistered (h.traffic hnamed)

end

end Drained

lemma kept_naming {named : Named} (hkept : Kept options r v) :
    Kept options r { v with named := named } :=
  ⟨hkept.previous, hkept.undone, hkept.spare⟩

section

variable (hI : Inv options v) (hswitch : v.switch = some stored) (hown : Own request stored.value)
include hI hswitch hown

lemma safe_advance_activateRouting (hearly : isEarly stored.value.phase = true)
    (htarget : (options.adapters stored.value.targetAdapterId).isSome = true) :
    Keeps B request (persistSwitch controller stored .activateRouting [])
      (Goes request) (fun _ => Left stored) v := by
  have hkept := kept_of_running hI hswitch (.inl hearly)
  have hback := (hI.sound stored hswitch).early hearly
  refine safe_advance hI hswitch hown (.inl hearly) (fun w hw => ?_) fun h => by
    obtain h | h := h <;> cases h
  refine sound_of_traffic (by rw [hw.there]; rfl) (hw.like.kept hkept) ?_
    (.inl (hw.like.based (based_of_back hkept hback)))
  rw [hw.like.target]
  exact htarget

lemma safe_advance_of_traffic
    (htraffic : isTraffic stored.value.phase = true) (hphase : isTraffic phase = true)
    (hserves : ServesTarget stored.value v) :
    Keeps B request (persistSwitch controller stored phase []) (Goes request) (fun _ => Left stored) v := by
  have hkept := kept_of_running hI hswitch (.inr htraffic)
  obtain ⟨hregistered, hnamed⟩ := (hI.sound stored hswitch).traffic htraffic
  refine safe_advance hI hswitch hown (.inr htraffic) (fun w hw => ?_) fun _ => hserves
  refine sound_of_traffic (by rw [hw.there]; exact hphase) (hw.like.kept hkept) ?_
    (hnamed.imp hw.like.based hw.like.forward)
  rw [hw.like.target]
  exact hregistered

end

lemma safe_persistSwitch_complete {Q : Versioned SwitchRecord → View → Prop}
    (hI : Inv options v) (hforward : Forward stored.value v)
    (hQ : ∀ w, Marked options stored .complete v w → Q w { v with switch := some w })
    (hF : ∀ w, Marked options stored .complete v w → ∀ e, F e { v with switch := some w })
    (hF' : ∀ e, F e v) : Keeps B request (persistSwitch controller stored .complete []) Q F v :=
  safe_persistSwitch hI (fun _ hw => sound_of_complete hw.there (hw.like.forward hforward)) hQ hF
    fun _ => hF'

lemma sound_naming (hsound : Sound options stored.value v)
    (htraffic : isTraffic stored.value.phase = true) (hserves : ServesTarget stored.value v) :
    Sound options stored.value { v with
      named := ⟨some stored.value.targetAdapterId, some stored.value.publication.ref⟩ } := by
  refine sound_of_traffic htraffic (kept_naming (hsound.kept (settled_of_running (.inr htraffic))))
    (hsound.traffic htraffic).1 (.inr ⟨rfl, hserves⟩)

section

variable (hI : Inv options v) (hgoes : Goes request stored v)
include hI hgoes

lemma safe_runPhase_of_traffic {target : Registered} (htraffic : isTraffic stored.value.phase = true) :
    Keeps B request (runPhase options controller stored target) (Goes request) (fun _ => Left stored) v := by
  obtain ⟨hswitch, hown, hserves⟩ := hgoes
  have hsound := hI.sound stored hswitch
  have hkept := kept_of_running hI hswitch (.inr htraffic)
  obtain ⟨hregistered, hnamed⟩ := hsound.traffic htraffic
  unfold runPhase
  dsimp only
  cases hphase : stored.value.phase with
  | activateRouting =>
    have hI' : Inv options
        (acted (.activate stored.value.targetAdapterId) stored.value.context v) :=
      inv_of_sound hswitch (sound_of_traffic htraffic (kept_activate _ hkept) hregistered
        (named_activate hnamed))
    refine safe_bind (safe_activateRouting hI hI' ?_ (fun _ => .inl ⟨hswitch, .inr htraffic⟩)
      fun _ => .inl ⟨hswitch, .inr htraffic⟩)
    exact safe_advance_of_traffic hI' hswitch hown htraffic rfl servesTarget_activate
  | drain =>
    have hI' : ∀ v', Drained options stored.value v v' → Inv options v' := fun v' h =>
      inv_of_sound (h.switch.trans hswitch) (h.sound htraffic hkept hsound)
    refine safe_bind (safe_drainPrevious hI' (fun v' h => ?_) fun v' h _ =>
      .inl ⟨h.switch.trans hswitch, .inr htraffic⟩)
    exact safe_advance_of_traffic (hI' v' h) (h.switch.trans hswitch) hown htraffic rfl
      (h.servesTarget (hserves (.inl hphase)))
  | commit =>
    have hforward := hserves (.inr hphase)
    have hI' := inv_of_sound (v := { v with named := ⟨some stored.value.targetAdapterId,
      some stored.value.publication.ref⟩ }) hswitch (sound_naming hsound htraffic hforward)
    refine safe_bind (safe_writePolicy hI hI' ?_ (fun _ => .inl ⟨hswitch, .inr htraffic⟩)
      fun _ => .inl ⟨hswitch, .inr htraffic⟩)
    refine safe_persistSwitch_complete hI' ⟨rfl, hforward⟩ (fun w hw => ?_)
      (fun w hw _ => .inr hw.stale) fun _ => .inl ⟨hswitch, .inr htraffic⟩
    refine ⟨rfl, hw.like.own hown, fun h => ?_⟩
    rw [hw.there] at h
    obtain h | h := h <;> cases h
  | _ => rw [hphase] at htraffic; cases htraffic

lemma safe_runPhase_of_early {target : Registered} (hearly : isEarly stored.value.phase = true)
    (htarget : (options.adapters stored.value.targetAdapterId).isSome = true) :
    Keeps B request (runPhase options controller stored target) (Goes request) (fun _ => Left stored) v := by
  obtain ⟨hswitch, hown, -⟩ := hgoes
  have hleft : Fault → Left stored v := fun _ => .inl ⟨hswitch, .inl hearly⟩
  have hadvance : ∀ phase, isEarly phase = true → (persistSwitch controller stored phase []).Safe
      (Inv options) (Moves B request) (Goes request) (fun _ => Left stored) v := fun phase hphase =>
    safe_advance_of_early hI hswitch hown hearly hphase
  unfold runPhase
  dsimp only
  cases hphase : stored.value.phase with
  | preflight => exact safe_bind (safe_preflight hI (hadvance .stageCertificates rfl) hleft)
  | stageCertificates =>
    exact safe_bind (safe_harmless rfl hI (hadvance .stageRouting rfl) hleft)
  | stageRouting => exact safe_bind (safe_harmless rfl hI (hadvance .verify rfl) hleft)
  | verify =>
    exact safe_bind (safe_verifyStaged hI (hadvance .activateCertificates rfl) hleft)
  | activateCertificates =>
    exact safe_bind (safe_harmless rfl hI
      (safe_advance_activateRouting hI hswitch hown hearly htarget) hleft)
  | _ => rw [hphase] at hearly; cases hearly

lemma safe_runPhase {target : Registered}
    (htarget : (options.adapters stored.value.targetAdapterId).isSome = true) :
    Keeps B request (runPhase options controller stored target) (Goes request)
      (fun e v' => e = .conflict ∨ Left stored v') v := by
  by_cases hearly : isEarly stored.value.phase = true
  · exact (safe_runPhase_of_early hI hgoes hearly htarget).mono (fun _ _ h => h) fun _ _ h => .inr h
  · by_cases htraffic : isTraffic stored.value.phase = true
    · exact (safe_runPhase_of_traffic hI hgoes htraffic).mono (fun _ _ h => h) fun _ _ h => .inr h
    · unfold runPhase
      dsimp only
      cases hphase : stored.value.phase with
      | rollback | failed => exact .inl rfl
      | complete => exact hgoes
      | _ => rw [hphase] at hearly htraffic; simp [isEarly, isTraffic] at hearly htraffic

end

lemma Own.target {r' : SwitchRecord} (h : Own request r) (h' : Own request r') :
    r'.targetAdapterId = r.targetAdapterId := by
  obtain ⟨controller, publication, rfl, -⟩ := h
  obtain ⟨controller', publication', heq, -⟩ := h'
  injection heq with _ htarget
  exact htarget.symm

lemma safe_runPhases {fuel : ℕ} {target : Registered} (hI : Inv options v) (hgoes : Goes request stored v)
    (htarget : (options.adapters stored.value.targetAdapterId).isSome = true) :
    Steady B request (runPhases options controller target fuel stored) v := by
  induction fuel generalizing stored v with
  | zero => exact trivial
  | succ fuel ih =>
    unfold runPhases
    split
    · exact trivial
    · refine safe_bind (safe_tryCatch (Task.Safe.mono
        (Task.Safe.inv hI (safe_runPhase hI hgoes htarget)) (fun w v' h => ?_) fun fault v' h => ?_))
      · obtain ⟨hI', hgoes'⟩ := h
        refine ih hI' hgoes' ?_
        rw [Own.target hgoes.own hgoes'.own]
        exact htarget
      · obtain ⟨hI', rfl | hleft⟩ := h
        · exact trivial
        · exact (safe_turnBack hI' hgoes.own hleft).mono (fun _ _ h => h.elim) fun _ _ h => h

lemma safe_runLocally (hI : Inv options v) (hgoes : Goes request stored v) :
    Steady B request (runLocally options controller stored) v := by
  have hrun : Steady B request (runSwitch options controller stored) v := by
    unfold runSwitch
    split
    case h_1 => exact trivial
    case h_2 target htarget =>
      exact safe_runPhases hI hgoes (by rw [htarget]; rfl)
  refine safe_bind (safe_quiet rfl hI (fun _ => ?_) fun _ => trivial)
  refine safe_bind (safe_tryCatch (Task.Safe.mono (Task.Safe.inv hI hrun)
    (fun record v' h => ?_) fun fault v' h => ?_))
  · exact safe_bind (safe_quiet rfl h.1 (fun _ => trivial) fun _ => trivial)
  · exact safe_bind (safe_quiet rfl h.1 (fun _ => trivial) fun _ => trivial)

/-! ## Recovery -/

section

variable (hI : Inv options v)
include hI

lemma safe_finish {result : Recovery} (hready : Ready stored v) : Steady B request (do
      rollbackCertificates options stored.value
      let _ ← persistSwitch controller stored .failed error
      pure result : Program Recovery) v := by
  refine safe_bind (safe_rollbackCertificates hI ?_ fun _ => trivial)
  exact safe_bind (safe_persistSwitch_failed hI hready (fun _ _ => trivial) fun _ _ => trivial)

lemma safe_recoverBack {message : Utf16} (hswitch : v.switch = some stored)
    (hphase : isEarly stored.value.phase = true ∨ stored.value.phase = .rollback) :
    Steady B request (recoverBack options controller stored message) v := by
  have hsound := hI.sound stored hswitch
  have hkept : Kept options stored.value v := hsound.kept (by
    obtain h | h := hphase
    · exact settled_of_running (.inl h)
    · unfold SwitchRecord.settled
      rw [h]
      rfl)
  have hbased : v.named = v.base ∧ PreviousServes stored.value v ∧ CanTurn options stored.value v := by
    obtain h | h := hphase
    · have hback := hsound.early h
      exact ⟨based_of_back hkept hback, hback.serves, .inr hback.target⟩
    · exact hsound.rollback h
  obtain ⟨hnamed, hserves, hturn⟩ := hbased
  have hrolled : Back stored.value
      (acted (.rollback stored.value.targetAdapterId) stored.value.context v) :=
    back_of_based (kept_rollback hkept) hnamed (previousServes_rollback hkept hserves)
      (targetBack_rollback hkept)
  have hI' : Inv options (acted (.rollback stored.value.targetAdapterId) stored.value.context v) := by
    refine inv_of_sound hswitch ?_
    obtain h | h := hphase
    · exact sound_of_early h (kept_rollback hkept) hrolled
    · exact sound_of_rollback h (kept_rollback hkept) hnamed hrolled.serves (.inr hrolled.target)
  refine safe_bind (safe_rollbackTarget hI hI' ?_ (fun hnone => ?_) (fun _ => trivial) fun _ _ =>
    trivial)
  · exact safe_finish hI' (.inl ⟨hswitch, hrolled⟩)
  · refine safe_finish hI (.inl ⟨hswitch, back_of_based hkept hnamed hserves (hturn.resolve_left ?_)⟩)
    rw [hnone]
    exact Bool.false_ne_true

lemma safe_isHealthy {Q : Bool → View → Prop}
    (hswitch : v.switch = some stored) (htraffic : isTraffic stored.value.phase = true)
    (hQ : ServesTarget stored.value v → Q true v)
    (hQ' : v.named = v.base → CanTurn options stored.value v → Q false v) :
    Keeps B request (isHealthy options stored.value) Q F v := by
  unfold isHealthy
  rw [if_pos ((hI.sound stored hswitch).traffic htraffic).1]
  refine safe_tryCatch (safe_bind (safe_perform fun v' r hmoves => ?_))
  cases quiet_of_moves hmoves rfl
  obtain ⟨verification, rfl, hready, hserves⟩ | ⟨hready, hnamed, hturn⟩ :=
    verify_of_moves hmoves hswitch htraffic
  · refine ⟨hI, fun a ha => ?_, fun e he => by cases he⟩
    cases ha
    have hQ : Q verification.ready v := hready.symm ▸ hQ hserves
    exact hQ
  · refine ⟨hI, fun a ha => ?_, fun e _ => hQ' hnamed hturn⟩
    have hQ : Q a.ready v := (hready a ha).symm ▸ hQ' hnamed hturn
    exact hQ

lemma safe_reactivatePrevious (hswitch : v.switch = some stored)
    (htraffic : isTraffic stored.value.phase = true) (hnamed : v.named = v.base)
    (htarget : TargetBack stored.value v) : Keeps B request (reactivatePrevious options stored.value)
      (fun _ v' => Ready stored v') (fun _ _ => True) v := by
  have hkept := kept_of_running hI hswitch (.inr htraffic)
  have hregistered := ((hI.sound stored hswitch).traffic htraffic).1
  unfold reactivatePrevious
  split
  case h_1 hnone =>
    refine .inl ⟨hswitch, back_of_based hkept hnamed (fun previous hprevious => ?_) htarget⟩
    refine (hkept.spare previous hprevious).resolve_right fun hsome => ?_
    unfold previousOf at hnone
    rw [hprevious, filter_some, if_pos hsome] at hnone
    cases hnone
  case h_2 previous heq =>
    obtain ⟨hprevious, -⟩ := filter_eq_some_iff.1 heq
    have hI' : Inv options (acted (.activate previous) stored.value.context v) :=
      inv_of_sound hswitch (sound_of_traffic htraffic (kept_activate previous hkept) hregistered
        (.inl hnamed))
    refine safe_adapter hI hI' (.inl ⟨hswitch, ?_⟩) (fun _ => trivial) fun _ _ => trivial
    refine back_of_based (kept_activate previous hkept) hnamed (fun a ha => ?_) fun hne => ?_
    · cases hprevious.symm.trans ha
      exact serving_activate_ne_none
    · have hother : stored.value.targetAdapterId ≠ previous := by
        rintro rfl
        exact hne hprevious
      rw [serving_activate_of_ne hother]
      exact htarget hne

lemma safe_back (hswitch : v.switch = some stored)
    (htraffic : isTraffic stored.value.phase = true) (hnamed : v.named = v.base)
    (htarget : TargetBack stored.value v) :
    Steady B request (do
      rollbackCertificates options stored.value
      reactivatePrevious options stored.value
      let _ ← persistSwitch controller stored .failed error
      pure .rolledBack : Program Recovery) v := by
  refine safe_bind (safe_rollbackCertificates hI ?_ fun _ => trivial)
  refine safe_bind (Task.Safe.mono (Task.Safe.inv hI
    (safe_reactivatePrevious hI hswitch htraffic hnamed htarget)) (fun _ v' h => ?_)
      fun _ _ _ => trivial)
  exact safe_bind (safe_persistSwitch_failed h.1 h.2 (fun _ _ => trivial) fun _ _ => trivial)

lemma safe_recoverTraffic (hswitch : v.switch = some stored)
    (htraffic : isTraffic stored.value.phase = true) :
    Steady B request (recoverTraffic options controller stored) v := by
  have hsound := hI.sound stored hswitch
  have hkept := kept_of_running hI hswitch (.inr htraffic)
  refine safe_bind (safe_isHealthy hI hswitch htraffic (fun hserves => ?_) fun hnamed hturn => ?_)
  · have hI' : ∀ v', Drained options stored.value v v' → Inv options v' := fun v' h =>
      inv_of_sound (h.switch.trans hswitch) (h.sound htraffic hkept hsound)
    refine safe_bind (safe_drainPrevious hI' (fun v' h => ?_) fun _ _ _ => trivial)
    have hserves' := h.servesTarget hserves
    have hnaming := inv_of_sound (v := { v' with named := ⟨some stored.value.targetAdapterId,
      some stored.value.publication.ref⟩ }) (h.switch.trans hswitch)
        (sound_naming (h.sound htraffic hkept hsound) htraffic hserves')
    refine safe_bind (safe_writePolicy (hI' v' h) hnaming ?_ (fun _ => trivial) fun _ => trivial)
    exact safe_bind (safe_persistSwitch_complete hnaming ⟨rfl, hserves'⟩ (fun _ _ => trivial)
      (fun _ _ _ => trivial) fun _ => trivial)
  · have hI' : Inv options (acted (.rollback stored.value.targetAdapterId) stored.value.context v) :=
      inv_of_sound hswitch (sound_of_traffic htraffic (kept_rollback hkept)
        (hsound.traffic htraffic).1 (.inl hnamed))
    refine safe_bind (safe_rollbackTarget hI hI' ?_ (fun hnone => ?_) (fun _ => trivial)
      fun _ _ => trivial)
    · exact safe_back hI' hswitch htraffic hnamed (targetBack_rollback hkept)
    · refine safe_back hI hswitch htraffic hnamed (hturn.resolve_left ?_)
      rw [hnone]
      exact Bool.false_ne_true

lemma safe_recover (hswitch : v.switch = some stored) :
    Steady B request (recover options controller stored) v := by
  by_cases hearly : isEarly stored.value.phase = true
  · unfold recover
    cases hphase : stored.value.phase with
    | preflight | stageCertificates | stageRouting | verify | activateCertificates =>
      exact safe_recoverBack hI hswitch (.inl hearly)
    | _ => rw [hphase] at hearly; cases hearly
  · by_cases htraffic : isTraffic stored.value.phase = true
    · unfold recover
      cases hphase : stored.value.phase with
      | activateRouting | drain | commit => exact safe_recoverTraffic hI hswitch htraffic
      | _ => rw [hphase] at htraffic; cases htraffic
    · unfold recover
      cases hphase : stored.value.phase with
      | rollback => exact safe_recoverBack hI hswitch (.inr hphase)
      | complete | failed => exact trivial
      | _ => rw [hphase] at hearly htraffic; simp [isEarly, isTraffic] at hearly htraffic

end

/-- The lease of a switch has been claimed. -/
structure Claimed (request : Request) (stored : Versioned SwitchRecord) (v : View)
    (w : Versioned SwitchRecord) : Prop where
  switch : v.switch = some stored
  like : Like stored.value v w.value { v with switch := some w }
  there : w.value.phase = stored.value.phase
  serves : Own request stored.value → stored.value.phase = .drain ∨ stored.value.phase = .commit →
    ServesTarget stored.value v

lemma Claimed.inv (h : Claimed request stored v w)
    (hI : Inv options v) : Inv options { v with switch := some w } :=
  inv_of_sound rfl (h.like.sound h.there (hI.sound stored h.switch))

lemma safe_claim {now : ℕ} {Q : Option (Versioned SwitchRecord) → View → Prop}
    (hI : Inv options v) (hQ : Q none v)
    (hQ' : ∀ w, Claimed request stored v w → Q (some w) { v with switch := some w }) (hF : ∀ e v', F e v') :
    Keeps B request (make (.compareAndSetSwitch stored (claim controller stored.value now))) Q F v := by
  refine safe_perform fun v' r hmoves => ?_
  obtain ⟨rfl, hnot, -⟩ | ⟨w, hswitch, hvalue, -, rfl, hanswer, hserves, -⟩ := cas_of_moves hmoves
  · refine ⟨hI, fun written hwritten => ?_, fun e _ => hF e _⟩
    cases written with
    | none => exact hQ
    | some w => exact absurd hwritten (hnot w)
  · have hclaimed : Claimed request stored v w := by
      refine ⟨hswitch, ⟨?_, ?_, ?_, ?_, rfl, rfl, rfl, rfl⟩, ?_, hserves rfl⟩ <;> rw [hvalue] <;> rfl
    refine ⟨hclaimed.inv hI, fun written hwritten => ?_, fun e _ => hF e _⟩
    cases hanswer written hwritten
    exact hQ' w hclaimed

lemma safe_reconcile (hI : Inv options v) : Steady B request (reconcile options controller) v := by
  refine safe_bind (safe_quiet rfl hI (fun running => ?_) fun _ => trivial)
  split
  · exact trivial
  · refine safe_bind (safe_quiet rfl hI (fun record => ?_) fun _ => trivial)
    split
    · exact trivial
    · refine safe_bind (safe_clock hI fun now => ?_)
      split
      · exact trivial
      · refine safe_bind (safe_claim hI trivial (fun w hw => ?_) fun _ _ => trivial)
        exact safe_recover (hw.inv hI) rfl

/-! ## Requests -/

variable {policy : Policy} {targetAdapterId : Utf16} {publication : EdgePublication}

section

variable (hI : Inv options v) (hsettled : ∀ r, v.switch = some r → r.value.settled = true)
include hI hsettled

lemma previousServes_of_settled
    (ha : v.named.adapterId = some a) : v.serving a ≠ none := by
  rcases hswitch : v.switch with _ | r
  · exact hI.none hswitch a ha
  · have hsound := hI.sound r hswitch
    have hover := hsettled r hswitch
    unfold SwitchRecord.settled at hover
    rw [Bool.or_eq_true, decide_eq_true_eq, decide_eq_true_eq] at hover
    obtain hphase | hphase := hover
    · have hforward := hsound.complete hphase
      rw [hforward.named] at ha
      cases ha
      rw [hforward.serves]
      exact some_ne_none _
    · have hback := hsound.failed hphase
      rw [hback.named] at ha
      exact hback.serves a ha

lemma sound_create {operation : SwitchRecord} (hvalue : w.value = operation)
    (hphase : operation.phase = .preflight) (hprevious : operation.previousAdapterId = v.named.adapterId)
    (htarget : TargetBack operation v) (hbefore : v.before operation.id operation.targetAdapterId = none) :
    Inv options { v with switch := some w, base := v.named } := by
  subst hvalue
  have hserves : PreviousServes w.value v := fun previous hp =>
    previousServes_of_settled hI hsettled (hprevious.symm.trans hp)
  refine inv_of_sound rfl (sound_of_early (by rw [hphase]; rfl) ⟨hprevious, ?_, ?_⟩ ⟨?_, hserves, htarget⟩)
  · show (v.before w.value.id w.value.targetAdapterId).getD (v.serving w.value.targetAdapterId) = none ↔ _
    rw [hbefore, getD_none]
    exact ⟨fun hnone hp => hserves _ hp hnone, htarget⟩
  · exact fun previous hp => .inl (hserves previous hp)
  · show v.named = ⟨w.value.previousAdapterId, v.named.publication⟩
    rw [hprevious]

end

section

variable (hI : Inv options v) (hrequest : ∃ c, request = .switchAdapter c targetAdapterId publication)
include hI hrequest

lemma safe_startSwitch
    (hsettled : ∀ r, v.switch = some r → r.value.settled = true) :
    Steady B request (startSwitch options controller policy targetAdapterId publication) v := by
  obtain ⟨c, rfl⟩ := hrequest
  refine safe_bind (safe_clock hI fun now => ?_)
  refine safe_bind (safe_quiet rfl hI (fun id => ?_) fun _ => trivial)
  refine safe_bind (safe_quiet rfl hI (fun latest => ?_) fun _ => trivial)
  refine safe_bind (safe_perform fun v' r hmoves => ?_)
  obtain ⟨rfl, hnot⟩ | ⟨w, -, hvalue, rfl, hanswer, hprevious, htarget, hbefore⟩ :=
    create_of_moves hmoves
  · refine ⟨hI, fun written hwritten => ?_, fun _ _ => trivial⟩
    cases written with
    | none => exact trivial
    | some w => exact absurd hwritten (hnot w)
  · have hI' := sound_create hI hsettled hvalue rfl hprevious htarget hbefore
    refine ⟨hI', fun written hwritten => ?_, fun _ _ => trivial⟩
    cases hanswer written hwritten
    refine safe_bind (safe_quiet rfl hI' (fun _ => ?_) fun _ => trivial)
    refine safe_runLocally hI' ⟨rfl, ⟨c, publication, ?_, ?_⟩, fun h => ?_⟩
    · rw [hvalue]
    · rw [hvalue]
    · rw [hvalue] at h
      obtain h | h := h <;> cases h

lemma safe_meetSwitch :
    Steady B request (meetSwitch options controller policy stored targetAdapterId publication) v := by
  refine safe_bind (safe_clock hI fun now => ?_)
  dsimp only
  split_ifs with hleased hother hactive
  · exact trivial
  · exact trivial
  · refine safe_bind (Task.Safe.mono (Task.Safe.inv hI (safe_reconcile hI)) (fun _ v' h => ?_)
      fun _ _ _ => trivial)
    refine safe_bind (safe_getSwitch h.1 ?_ fun _ => trivial)
    split
    case isTrue => exact trivial
    case isFalse hover =>
      refine safe_startSwitch h.1 hrequest fun r hr => ?_
      rw [hr, any_some, Bool.not_eq_true', Bool.not_eq_false] at hover
      exact hover
  · refine safe_bind (safe_claim hI trivial (fun w hw => ?_) fun _ _ => trivial)
    obtain ⟨c, rfl⟩ := hrequest
    obtain ⟨htarget, hpublication⟩ := not_or.1 hother
    have hown : Own (.switchAdapter c targetAdapterId publication) stored.value :=
      ⟨c, publication, by rw [not_not.1 htarget], (not_not.1 hpublication).symm⟩
    refine safe_runLocally (hw.inv hI) ⟨rfl, hw.like.own hown, fun h => ?_⟩
    rw [hw.there] at h
    exact hw.like.servesTarget (hw.serves hown h)

lemma safe_switchAdapter :
    Steady B request (switchAdapter options controller targetAdapterId publication) v := by
  refine safe_bind (safe_quiet rfl hI (fun running => ?_) fun _ => trivial)
  split
  · exact trivial
  · refine safe_bind (safe_quiet rfl hI (fun policy => ?_) fun _ => trivial)
    refine safe_bind (safe_getSwitch hI ?_ fun _ => trivial)
    split
    case h_1 hnone =>
      refine safe_startSwitch hI hrequest fun r hr => ?_
      rw [hr, filter_eq_none_iff] at hnone
      simpa using hnone r rfl
    case h_2 => exact safe_meetSwitch hI hrequest

end

lemma safe_program (request : Request) (hI : Inv options v) :
    Steady B request (program options request) v := by
  cases request with
  | switchAdapter c targetAdapterId publication =>
    refine safe_bind ((safe_switchAdapter hI ⟨c, rfl⟩).mono (fun _ _ _ => ?_) fun _ _ _ => trivial)
    exact trivial
  | reconcile c =>
    refine safe_bind ((safe_reconcile hI).mono (fun _ _ _ => ?_) fun _ _ _ => trivial)
    exact trivial

end

end Zelavis.Edge.Switching
