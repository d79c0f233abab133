import Zelavis.Runtime.Handover

/-!
# What a handover leaves

Over `handover.ts` `createRuntimeHandover`: the calls of the host, whatever fails and whoever leaves, in the
order they are made.
-/

namespace Zelavis.Runtime

open Lib Tasks Fibers List Option

variable {C O X : Type}

/-! ## What has happened -/

namespace Entry

def isAsked : Entry C O X → Bool
  | .asked _ _ => true
  | _ => false

def asked? : Entry C O X → Option (Release × Standing O)
  | .asked target current => some (target, current)
  | _ => none

/-- The generation under which ownership is asked for, and what comes of it. -/
def taken? : Entry C O X → Option (Reply C O X × ℕ)
  | .called (.activate _ generation) reply => some (reply, generation)
  | .called (.restore _ generation) reply => some (reply, generation)
  | _ => none

def committed? : Entry C O X → Option Release
  | .called (.commit release _ _) .done => some release
  | _ => none

/-- The release that is committed, or nothing where an owner is adopted or a replacement asked for. -/
def committing? : Entry C O X → Option (Option Release)
  | .called (.commit release _ _) .done => some (some release)
  | .adopted _ => some none
  | .asked _ _ => some none
  | _ => none

end Entry

def episode (log : List (Entry C O X)) : List (Entry C O X) := log.takeWhile fun e => !e.isAsked

def lastAsked (log : List (Entry C O X)) : Option (Release × Standing O) := log.findSome? Entry.asked?

def generations (log : List (Entry C O X)) : List ℕ := (log.filterMap Entry.taken?).map Prod.snd

def taken (log : List (Entry C O X)) : Option (Reply C O X × ℕ) := log.findSome? Entry.taken?

def committed (start : Standing O) (log : List (Entry C O X)) : Release :=
  (log.findSome? Entry.committed?).getD start.release

def Pending (log : List (Entry C O X)) : Prop :=
  ∃ target current, lastAsked log = some (target, current) ∧
    log.findSome? Entry.committing? = some (some target)

def Released (log : List (Entry C O X)) : Prop :=
  ∃ owner reply, Entry.called (.deactivate owner) reply ∈ log

def Probed (log : List (Entry C O X)) : Prop :=
  ∃ owner, (∃ candidate generation, [Entry.called (.probe owner) .done,
      .called (.activate candidate generation) (.owner owner)].Sublist log) ∨
    ∃ release generation, [Entry.called (.probe owner) .done,
      .called (.restore release generation) (.owner owner)].Sublist log

/-- A rollback has failed after the owner had been told to release what it owns. -/
def Unproven (log : List (Entry C O X)) : Prop :=
  ∃ newer older, log = newer ++ .rollbackFailed :: older ∧ Released (episode older)

/-- Admission is not resumed, and no replacement that is asked for calls the host. -/
def Quiet (log : List (Entry C O X)) : Prop :=
  .resumed ∉ log ∧ ∀ newer older target current, log = newer ++ .asked target current :: older →
    ∀ call reply, Entry.called call reply ∉ newer

def Allowed (older : List (Entry C O X)) : Entry C O X → Prop
  | .called (.activate candidate _) _ =>
    ∃ target current, lastAsked older = some (target, current) ∧
      Entry.called (.prepare target) (.candidate candidate) ∈ episode older ∧
      Entry.called (.deactivate current.owner) .done ∈ episode older
  | .called (.restore release _) _ =>
    ∃ target current candidate, lastAsked older = some (target, current) ∧ release = current.release ∧
      Entry.called (.prepare target) (.candidate candidate) ∈ episode older ∧
      Entry.called (.discard candidate) .done ∈ episode older
  | .called (.commit _ owner generation) _ => taken older = some (.owner owner, generation)
  | .resumed => ¬Released (episode older) ∨ Probed (episode older)
  | _ => True

/-! ## What always holds -/

/-- What others leave as it is while a fiber has the permit. -/
structure View (C O X : Type) where
  current : Standing O
  generationCounter : ℕ
  poisoned : Bool
  released : Bool
  candidateDisposed : Bool
  log : List (Entry C O X)

def Controller.view (s : Controller C O X) : View C O X :=
  ⟨s.current, s.generationCounter, s.poisoned, s.released, s.candidateDisposed, s.log⟩

def View.logged (v : View C O X) (e : Entry C O X) : View C O X := { v with log := e :: v.log }

/-- What always holds of what is seen. -/
structure Sound (start : Standing O) (v : View C O X) : Prop where
  allowed : ∀ {e older}, (e :: older) <:+ v.log → Allowed older e
  increasing : (generations v.log ++ [start.generation]).Pairwise (· > ·)
  counted : ∀ g ∈ generations v.log ++ [start.generation],
    g ≤ v.generationCounter ∨ Doubles.exactBound ≤ v.generationCounter
  fenced : ∀ {newer older}, v.log = newer ++ .rollbackFailed :: older → Released (episode older) →
    v.poisoned = true ∧ Quiet newer
  shown : v.poisoned = false → v.current.release = committed start v.log ∨ Pending v.log

/-- The invariant of a controller. -/
structure Inv (start : Standing O) (s : Controller C O X) : Prop where
  sound : Sound start s.view
  paused : Unproven s.log → s.admission.paused = true
  settled : s.poisoned = false → s.permit = none → s.current.release = committed start s.log

/-- What a fiber relies on: while it has the permit only the gate changes, and what is paused stays so. -/
def rely (k : ℕ) (s s' : Controller C O X) : Prop :=
  (s.permit = some k → ∃ gate, s' = { s with admission := gate } ∧
    (s.admission.paused = true → gate.paused = true)) ∧
  (s.permit ≠ some k → s'.permit ≠ some k)

/-- A fiber has the permit, sees this, and knows admission to be paused if it says so. -/
structure Mine (k : ℕ) (paused : Bool) (v : View C O X) (s : Controller C O X) : Prop where
  permit : s.permit = some k
  view : s.view = v
  paused : paused = true → s.admission.paused = true

/-- What a program of a fiber keeps to. -/
abbrev Keeps (start : Standing O) (q : Bool) (k : ℕ) {α : Type} (Q : α → Controller C O X → Prop)
    (R : Cause X → Controller C O X → Prop) (t : Program C O X α) (s : Controller C O X) : Prop :=
  Guarded (Inv start) (rely k) ((handover C O X q).Makes (fun _ _ _ => True) k)
    (Owes rely (fun _ _ => True) k) Q R t s


variable {start : Standing O} {q : Bool} {k : ℕ} {p : Bool} {v : View C O X} {s s' : Controller C O X}
  {log older : List (Entry C O X)} {e : Entry C O X}

lemma rely_refl (k : ℕ) (s : Controller C O X) : rely k s s :=
  ⟨fun _ => ⟨s.admission, rfl, id⟩, id⟩

lemma rely_trans {a b c : Controller C O X} (h : rely k a b) (h' : rely k b c) : rely k a c := by
  refine ⟨fun hk => ?_, fun hk => h'.2 (h.2 hk)⟩
  obtain ⟨gate, rfl, hpaused⟩ := h.1 hk
  obtain ⟨gate', rfl, hpaused'⟩ := h'.1 hk
  exact ⟨gate', rfl, fun hp => hpaused' (hpaused hp)⟩

lemma Mine.of_rely (h : Mine k p v s) (hrely : rely k s s') : Mine k p v s' := by
  obtain ⟨gate, rfl, hpaused⟩ := hrely.1 h.permit
  exact ⟨h.permit, h.view, fun hp => hpaused (h.paused hp)⟩

lemma rely_of_mine (h : s.permit = some k) (h' : s'.permit = some k ∨ s'.permit = none) :
    ∀ j, j ≠ k → rely j s s' := by
  intro j hj
  refine ⟨fun hs => ?_, fun _ hs => ?_⟩
  · rw [h] at hs
    exact absurd (some.inj hs).symm hj
  · obtain h' | h' := h'
    · rw [h'] at hs
      exact hj (some.inj hs).symm
    · rw [h'] at hs
      cases hs

/-! ## Calls under the permit -/

variable {R : Cause X → Controller C O X → Prop} {c : Call C O X}

lemma keeps_make {Q : Answer c → Controller C O X → Prop} (hmine : Mine k p v s)
    (hcall : ∀ s₁ reply s' r, Mine k p v s₁ → Inv start s₁ → exec k reply s₁ c = some (s', r) →
      Inv start s' ∧ (s'.permit = some k ∨ s'.permit = none) ∧ (∀ a, r = .ok a → Q a s') ∧
        ∀ e, r = .error e → R e s') : Keeps start q k Q R (make c) s := by
  refine guarded_perform fun s₁ s' r hinv hrely hmakes => ?_
  obtain ⟨-, reply, hexec⟩ := hmakes
  have hmine' := hmine.of_rely hrely
  obtain ⟨hinv', hpermit, hok, herror⟩ := hcall s₁ reply s' r hmine' hinv hexec
  exact ⟨hinv', ⟨trivial, rely_of_mine hmine'.permit hpermit⟩, hok, herror⟩

lemma unproven_cons (he : e ≠ .rollbackFailed) : Unproven (e :: log) ↔ Unproven log := by
  constructor
  · rintro ⟨newer, older, hlog, hreleased⟩
    cases newer with
    | nil => exact absurd (List.cons.inj hlog).1 he
    | cons e' newer => exact ⟨newer, older, (List.cons.inj hlog).2, hreleased⟩
  · rintro ⟨newer, older, rfl, hreleased⟩
    exact ⟨e :: newer, older, rfl, hreleased⟩

variable {call : HostCall C O}

lemma keeps_host {Q : HostAnswer call → Controller C O X → Prop} (hmine : Mine k p v s)
    (hsound : ∀ reply, (reply.answer call).isSome = true → Sound start v →
      Sound start (v.logged (.called call reply)))
    (hok : ∀ reply a s', reply.answer call = some (.ok a) → Mine k p (v.logged (.called call reply)) s' →
      Q a s') (herror : ∀ cause s', Mine k p (v.logged (.called call (.fails cause))) s' → R cause s') :
    Keeps start q k Q R (make (.host call)) s := by
  refine keeps_make hmine fun s₁ reply s' r hmine' hinv hexec => ?_
  obtain ⟨r', hr, heq⟩ := map_eq_some_iff.1 hexec
  cases heq
  have hview : Controller.view { s₁ with log := .called call reply :: s₁.log } =
      v.logged (.called call reply) := by
    rw [← hmine'.view]
    rfl
  have hmine'' : Mine k p (v.logged (.called call reply))
      { s₁ with log := .called call reply :: s₁.log } := ⟨hmine'.permit, hview, hmine'.paused⟩
  refine ⟨⟨?_, fun hunproven => ?_, fun _ hnone => ?_⟩, .inl hmine'.permit, ?_, ?_⟩
  · rw [hview]
    have hv := hinv.sound
    rw [hmine'.view] at hv
    exact hsound reply (by rw [hr]; rfl) hv
  · exact hinv.paused ((unproven_cons (by intro h; cases h)).1 hunproven)
  · exact absurd (hmine'.permit.symm.trans hnone) (some_ne_none _)
  · rintro a rfl
    exact hok reply a _ hr hmine''
  · rintro cause rfl
    have hreply : reply = .fails cause := Reply.eq_fails_of_answer hr
    rw [hreply] at hmine''
    rw [hreply]
    exact herror cause _ hmine''

lemma keeps_change {Q : Answer c → Controller C O X → Prop} (hmine : Mine k p v s)
    (hcall : ∀ s₁ reply s' r, Mine k p v s₁ → exec k reply s₁ c = some (s', r) →
      s'.permit = some k ∧ s'.log = s₁.log ∧ s'.admission.paused = s₁.admission.paused ∧
      (Sound start v → Sound start s'.view) ∧ (∀ a, r = .ok a → Q a s') ∧ ∀ e, r = .error e → R e s') :
    Keeps start q k Q R (make c) s := by
  refine keeps_make hmine fun s₁ reply s' r hmine' hinv hexec => ?_
  obtain ⟨hpermit, hlog, hgate, hsound, hok, herror⟩ := hcall s₁ reply s' r hmine' hexec
  refine ⟨⟨hsound (hmine'.view ▸ hinv.sound), fun hunproven => ?_, fun _ hnone => ?_⟩, .inl hpermit, hok,
    herror⟩
  · rw [hgate]
    exact hinv.paused (hlog ▸ hunproven)
  · exact absurd (hpermit.symm.trans hnone) (some_ne_none _)

lemma keeps_look {Q : Locals O → Controller C O X → Prop} (hmine : Mine k p v s)
    (hQ : ∀ s', Mine k p v s' → Sound start v →
      Q ⟨v.released, v.candidateDisposed, v.poisoned, v.current⟩ s') :
    Keeps start q k Q R (make .look) s := by
  refine keeps_make hmine fun s₁ reply s' r hmine' hinv hexec => ?_
  cases hexec
  refine ⟨hinv, .inl hmine'.permit, ?_, fun e he => by cases he⟩
  rintro a ha
  cases ha
  have hQ' := hQ _ hmine' (hmine'.view ▸ hinv.sound)
  rw [← hmine'.view] at hQ'
  exact hQ'

variable {Q : Unit → Controller C O X → Prop}

lemma keeps_moment (hmine : Mine k p v s) (hQ : ∀ s', Mine k p v s' → Q () s')
    (hR : ∀ cause s', Mine k p v s' → R cause s') : Keeps start q k Q R (make .moment) s := by
  refine keeps_change hmine fun s₁ reply s' r hmine' hexec => ?_
  obtain ⟨r', -, heq⟩ := map_eq_some_iff.1 hexec
  cases heq
  exact ⟨hmine'.permit, rfl, rfl, fun h => hmine'.view ▸ h, fun _ _ => hQ _ hmine',
    fun cause _ => hR cause _ hmine'⟩

/-! ## What an entry changes -/

lemma generations_cons_none (he : e.taken? = none) : generations (e :: log) = generations log := by
  unfold generations
  rw [filterMap_cons_none he]

variable {reply : Reply C O X} {g : ℕ}

lemma generations_cons_some (he : e.taken? = some (reply, g)) :
    generations (e :: log) = g :: generations log := by
  unfold generations
  rw [filterMap_cons_some he]
  rfl

lemma generations_append {l l' : List (Entry C O X)} :
    generations (l ++ l') = generations l ++ generations l' := by
  unfold generations
  rw [filterMap_append, map_append]

lemma committed_cons_none (he : e.committed? = none) :
    committed start (e :: log) = committed start log := by
  unfold committed
  rw [List.findSome?_cons, he]

lemma committed_cons_some {release : Release} (he : e.committed? = some release) :
    committed start (e :: log) = release := by
  unfold committed
  rw [List.findSome?_cons, he]
  rfl

lemma lastAsked_cons_none (he : e.asked? = none) : lastAsked (e :: log) = lastAsked log := by
  unfold lastAsked
  rw [List.findSome?_cons, he]

lemma pending_cons_none (he : e.asked? = none) (he' : e.committing? = none) :
    Pending (e :: log) ↔ Pending log := by
  unfold Pending
  rw [lastAsked_cons_none he, List.findSome?_cons, he']

lemma shown_cons {current : Standing O} (he : e.asked? = none) (he' : e.committing? = none)
    (hc : e.committed? = none) (h : current.release = committed start log ∨ Pending log) :
    current.release = committed start (e :: log) ∨ Pending (e :: log) := by
  rw [committed_cons_none hc, pending_cons_none he he']
  exact h

/-- What there is since a replacement was asked for, and that nothing failed for good before. -/
structure Under (target : Release) (previous : Standing O) (old es : List (Entry C O X)) (v : View C O X) :
    Prop where
  log : v.log = es ++ .asked target previous :: old
  mine : ∀ e ∈ es, e.isAsked = false
  clean : ¬Unproven old

variable {r : Replacement C O} {target : Release} {previous : Standing O} {old es : List (Entry C O X)}

lemma Under.cons (h : Under target previous old es v) (he : e.isAsked = false) : Under target previous old (e :: es) (v.logged e) where
  log := by
    show e :: v.log = _
    rw [h.log]
    rfl
  mine e' he' := by
    obtain rfl | he' := mem_cons.1 he'
    · exact he
    · exact h.mine e' he'
  clean := h.clean

variable {v' : View C O X}

lemma Under.same (h : Under target previous old es v) (hlog : v'.log = v.log) :
    Under target previous old es v' :=
  ⟨hlog.trans h.log, h.mine, h.clean⟩

lemma Under.episode (h : Under target previous old es v) : episode v.log = es := by
  rw [h.log]
  unfold Runtime.episode
  rw [takeWhile_append_of_pos fun e he => by rw [h.mine e he]; rfl]
  exact append_nil es

lemma findSome?_asked_eq_none {l : List (Entry C O X)} (hl : ∀ e ∈ l, e.isAsked = false) :
    l.findSome? Entry.asked? = none := by
  rw [List.findSome?_eq_none_iff]
  intro e he
  have := hl e he
  cases e with
  | asked target current => cases this
  | called | adopted | rollbackFailed | resumed => rfl

section

variable (h : Under target previous old es v)
include h

lemma Under.lastAsked : lastAsked v.log = some (target, previous) := by
  unfold Runtime.lastAsked
  rw [h.log, List.findSome?_append, findSome?_asked_eq_none h.mine]
  rfl

lemma Under.split {newer older : List (Entry C O X)}
    (hlog : v.log = newer ++ .rollbackFailed :: older) (hreleased : Released (Runtime.episode older)) :
    ∃ l, es = newer ++ .rollbackFailed :: l := by
  rw [h.log] at hlog
  obtain ⟨l, rfl, hold⟩ | ⟨l, rfl, hold⟩ := append_eq_append_iff.1 hlog
  · cases l with
    | nil => cases hold
    | cons e l =>
      obtain ⟨-, rfl⟩ := List.cons.inj hold
      exact absurd ⟨l, older, rfl, hreleased⟩ h.clean
  · cases l with
    | nil => cases hold
    | cons e l =>
      obtain ⟨rfl, -⟩ := List.cons.inj hold
      exact ⟨l, rfl⟩

lemma Under.not_unproven (hes : ¬Released es) : ¬Unproven v.log := by
  rintro ⟨newer, older, hlog, hreleased⟩
  obtain ⟨l, rfl⟩ := h.split hlog hreleased
  rw [h.log, append_assoc] at hlog
  have holder : older = l ++ .asked target previous :: old :=
    (List.cons.inj (append_cancel_left hlog)).2.symm
  have hl : Runtime.episode older = l := by
    have hu : Under target previous old l ({ v with log := older }) :=
      ⟨holder, fun e he => h.mine e (mem_append.2 (.inr (mem_cons_of_mem _ he))), h.clean⟩
    exact hu.episode
  rw [hl] at hreleased
  obtain ⟨owner, reply, hmem⟩ := hreleased
  exact hes ⟨owner, reply, mem_append.2 (.inr (mem_cons_of_mem _ hmem))⟩

end

lemma Sound.logged (h : Sound start v) (hu : Under target previous old es v) (hfailed : e ≠ .rollbackFailed)
    (hresumed : e = .resumed → ¬Unproven v.log) (hallowed : Allowed v.log e)
    (htaken : ∀ reply g, e.taken? = some (reply, g) →
      (∀ g' ∈ generations v.log ++ [start.generation], g' < g) ∧ g ≤ v.generationCounter)
    (hshown : v.poisoned = false → v.current.release = committed start (e :: v.log) ∨
      Pending (e :: v.log)) : Sound start (v.logged e) where
  allowed {e older} he := by
    obtain heq | he := suffix_cons_iff.1 he
    · obtain ⟨rfl, rfl⟩ := List.cons.inj heq
      exact hallowed
    · exact h.allowed he
  increasing := by
    show (generations (e :: v.log) ++ _).Pairwise _
    cases he : e.taken? with
    | none =>
      rw [generations_cons_none he]
      exact h.increasing
    | some taken =>
      rw [generations_cons_some he, cons_append]
      exact pairwise_cons.2 ⟨(htaken _ _ he).1, h.increasing⟩
  counted g hg := by
    dsimp only [View.logged] at hg
    cases he : e.taken? with
    | none =>
      rw [generations_cons_none he] at hg
      exact h.counted g hg
    | some taken =>
      rw [generations_cons_some he, cons_append] at hg
      obtain rfl | hg := mem_cons.1 hg
      · exact .inl (htaken _ _ he).2
      · exact h.counted g hg
  fenced {newer older} hlog hreleased := by
    cases newer with
    | nil => exact absurd (List.cons.inj hlog).1 hfailed
    | cons e' newer =>
      obtain ⟨rfl, hlog'⟩ := List.cons.inj hlog
      obtain ⟨hpoisoned, hnone, -⟩ := h.fenced hlog' hreleased
      obtain ⟨l, rfl⟩ := hu.split hlog' hreleased
      refine ⟨hpoisoned, fun hmem => ?_, fun n₂ n₁ target' current hnewer => ?_⟩
      · obtain heq | hmem := mem_cons.1 hmem
        · exact hresumed heq.symm ⟨newer, older, hlog', hreleased⟩
        · exact hnone hmem
      · -- what was asked for since was asked for just now
        cases n₂ with
        | nil => exact fun _ _ hmem => by cases hmem
        | cons e' n₂ =>
          obtain ⟨-, rfl⟩ := List.cons.inj hnewer
          have := hu.mine (.asked target' current) (by simp)
          cases this
  shown := hshown

lemma Sound.plain (h : Sound start v) (hu : Under target previous old es v)
    (hallowed : Allowed v.log (.called call reply)) (htaken : Entry.taken? (.called call reply) = none)
    (hcommitted : Entry.committed? (.called call reply) = none) :
    Sound start (v.logged (.called call reply)) := by
  refine h.logged hu (by intro h; cases h) (by intro h; cases h) hallowed (fun _ _ hsome => ?_)
    fun hpoisoned => ?_
  · rw [htaken] at hsome
    cases hsome
  · refine shown_cons rfl ?_ hcommitted (h.shown hpoisoned)
    cases call with
    | commit release owner generation =>
      cases reply with
      | done => cases hcommitted
      | candidate | owner | fails => rfl
    | prepare | qualify | deactivate | activate | restore | probe | discard | checkpoint => rfl

/-! ## The transfer -/

/-- A replacement on its way: what it sees but for what it has done. -/
structure Forward (start : Standing O) (r : Replacement C O) (old es : List (Entry C O X))
    (v : View C O X) : Prop extends Under r.target r.previous old es v where
  current : v.current = r.previous
  counter : v.generationCounter = r.generation
  poisoned : v.poisoned = false
  disposed : v.candidateDisposed = false
  prepared : Entry.called (.prepare r.target) (.candidate r.candidate) ∈ es
  below : ∀ g ∈ generations old ++ [start.generation], g < r.generation
  base : committed start old = r.previous.release

/-- What can be turned back. -/
structure Turned (start : Standing O) (r : Replacement C O) (old es : List (Entry C O X))
    (v : View C O X) : Prop extends Under r.target r.previous old es v where
  current : v.current = r.previous
  counter : v.generationCounter = r.generation
  prepared : Entry.called (.prepare r.target) (.candidate r.candidate) ∈ es
  safe : r.generation + 1 < Doubles.exactBound
  released : v.released = true → v.poisoned = false
  unreleased : v.released = false → v.poisoned = true ∧ ¬Released es

/-- What a replacement leaves, whether it goes well or not. -/
structure Over (start : Standing O) (r : Replacement C O) (old es : List (Entry C O X))
    (v : View C O X) : Prop extends Under r.target r.previous old es v where
  unreleased : v.released = false → ¬Released es
  probed : v.released = true → v.poisoned = false → Probed es
  shows : v.poisoned = false → v.current.release = committed start v.log

lemma Forward.cons (h : Forward start r old es v) (he : e.isAsked = false) :
    Forward start r old (e :: es) (v.logged e) where
  toUnder := h.toUnder.cons he
  current := h.current
  counter := h.counter
  poisoned := h.poisoned
  disposed := h.disposed
  prepared := mem_cons_of_mem _ h.prepared
  below := h.below
  base := h.base

def HostCall.isEarly : HostCall C O → Bool
  | .prepare _ | .qualify _ | .checkpoint _ => true
  | _ => false

def Early (es : List (Entry C O X)) : Prop := ∀ e ∈ es, ∃ call reply, e = .called call reply ∧ call.isEarly = true

lemma Early.cons (h : Early es) (hcall : call.isEarly = true) : Early (.called call reply :: es) := by
  intro e he
  obtain rfl | he := mem_cons.1 he
  · exact ⟨call, reply, rfl, hcall⟩
  · exact h e he

lemma Early.not_released (h : Early es) : ¬Released es := by
  rintro ⟨owner, reply, hmem⟩
  obtain ⟨call, reply', heq, hcall⟩ := h _ hmem
  cases heq
  cases hcall

lemma Early.taken (h : Early es) {e : Entry C O X} (he : e ∈ es) : e.taken? = none := by
  obtain ⟨call, reply, rfl, hcall⟩ := h e he
  cases call with
  | prepare | qualify | checkpoint => rfl
  | deactivate | activate | restore | probe | discard | commit => cases hcall

lemma Early.committed (h : Early es) {e : Entry C O X} (he : e ∈ es) : e.committed? = none := by
  obtain ⟨call, reply, rfl, hcall⟩ := h e he
  cases call with
  | prepare | qualify | checkpoint | deactivate | activate | restore | probe | discard => rfl
  | commit release owner generation => cases hcall

lemma Forward.generations (h : Forward start r old es v) (hes : ∀ e ∈ es, e.taken? = none) :
    generations v.log = Runtime.generations old := by
  have hnone : Runtime.generations es = [] := by
    unfold Runtime.generations
    rw [filterMap_eq_nil_iff.2 hes]
    rfl
  rw [h.log, generations_append, hnone, generations_cons_none rfl]
  rfl

lemma Forward.committed (h : Forward start r old es v) (hes : ∀ e ∈ es, e.committed? = none) :
    committed start v.log = r.previous.release := by
  have hnone : es.findSome? Entry.committed? = none := List.findSome?_eq_none_iff.2 hes
  rw [h.log]
  unfold Runtime.committed
  rw [List.findSome?_append, hnone, none_or]
  exact h.base

lemma Forward.over (h : Forward start r old es v) (hes : Early es) (hreleased : v.released = false) :
    Over start r old es v where
  toUnder := h.toUnder
  unreleased _ := hes.not_released
  probed htrue := by
    rw [hreleased] at htrue
    cases htrue
  shows _ := by rw [h.current, h.committed fun e he => hes.committed he]

def View.poison (v : View C O X) : View C O X := { v with poisoned := true }

lemma Sound.poison (h : Sound start v) : Sound start v.poison where
  allowed := h.allowed
  increasing := h.increasing
  counted := h.counted
  fenced hlog hreleased := ⟨rfl, (h.fenced hlog hreleased).2⟩
  shown hfalse := by cases hfalse

variable {cause : Cause X}

lemma keeps_poison (hmine : Mine k p v s)
    (hQ : ∀ s', Mine k p v.poison s' → Q () s') : Keeps start q k Q R (make (.poison cause)) s := by
  refine keeps_change hmine fun s₁ reply s' r hmine' hexec => ?_
  cases hexec
  have hview : Controller.view { s₁ with poisoned := true, recoveryFailure := some cause } = v.poison := by
    rw [← hmine'.view]
    rfl
  refine ⟨hmine'.permit, rfl, rfl, fun h => ?_, fun _ _ => hQ _ ⟨hmine'.permit, hview, hmine'.paused⟩,
    fun e he => by cases he⟩
  rw [hview]
  exact h.poison

lemma keeps_plain {Q : HostAnswer call → Controller C O X → Prop}
    (hmine : Mine k p v s) (hu : Under target previous old es v)
    (hallowed : ∀ reply, Allowed v.log (.called call reply))
    (htaken : ∀ reply : Reply C O X, Entry.taken? (.called call reply) = none)
    (hcommitted : ∀ reply : Reply C O X, Entry.committed? (.called call reply) = none)
    (hok : ∀ reply a s', reply.answer call = some (.ok a) → Mine k p (v.logged (.called call reply)) s' →
      Q a s') (herror : ∀ cause s', Mine k p (v.logged (.called call (.fails cause))) s' → R cause s') :
    Keeps start q k Q R (make (.host call)) s :=
  keeps_host hmine (fun reply _ h => h.plain hu (hallowed reply) (htaken reply) (hcommitted reply)) hok
    herror

variable {phase : CheckpointPhase}

lemma keeps_record {epoch : ℕ}
    (hmine : Mine k p v s) (hu : Under target previous old es v) (hok : ∀ s', Mine k p
      (v.logged (.called (.checkpoint ⟨epoch, phase, r.previous.release, r.target⟩) .done)) s' → Q () s')
    (herror : ∀ cause s', Mine k p
      (v.logged (.called (.checkpoint ⟨epoch, phase, r.previous.release, r.target⟩) (.fails cause))) s' →
        R cause s') : Keeps start q k Q R (r.record phase epoch) s := by
  refine keeps_plain hmine hu (fun _ => trivial) (fun _ => rfl) (fun _ => rfl)
    (fun reply a s' hreply hs' => ?_) herror
  have hdone : reply = .done := by
    cases reply with
    | done => rfl
    | candidate | owner | fails => cases hreply
  subst hdone
  exact hok s' hs'

lemma keeps_recordOrPoison
    (hmine : Mine k p v s) (hu : Under target previous old es v) (hok : ∀ s', Mine k p
      (v.logged (.called (.checkpoint ⟨r.generation, phase, r.previous.release, r.target⟩) .done)) s' →
        Q () s') (herror : ∀ cause s', Mine k p
      (v.logged (.called (.checkpoint ⟨r.generation, phase, r.previous.release, r.target⟩)
        (.fails cause))).poison s' → R cause s') : Keeps start q k Q R (r.recordOrPoison phase) s :=
  guarded_onError (keeps_record hmine hu hok fun cause _ hs' =>
    keeps_poison hs' fun s' hs'' => herror cause s' hs'')

lemma Sound.same (h : Sound start v) (hcurrent : v'.current = v.current)
    (hcounter : v.generationCounter ≤ v'.generationCounter) (hpoisoned : v'.poisoned = v.poisoned)
    (hlog : v'.log = v.log) : Sound start v' where
  allowed := by
    rw [hlog]
    exact h.allowed
  increasing := by
    rw [hlog]
    exact h.increasing
  counted := by
    rw [hlog]
    exact fun g hg => (h.counted g hg).imp (fun hle => hle.trans hcounter) fun hle => hle.trans hcounter
  fenced := by
    rw [hlog, hpoisoned]
    exact h.fenced
  shown := by
    rw [hlog, hpoisoned, hcurrent]
    exact h.shown

lemma keeps_set (v' : View C O X) {Q : Answer c → Controller C O X → Prop} (hmine : Mine k p v s)
    (hexec : ∀ s₁ reply s' r, exec k reply s₁ c = some (s', r) → s₁.view = v →
      s'.permit = s₁.permit ∧ s'.admission = s₁.admission ∧ s'.log = s₁.log ∧ s'.view = v' ∧ ∃ a, r = .ok a)
    (hcurrent : v'.current = v.current) (hcounter : v.generationCounter ≤ v'.generationCounter)
    (hpoisoned : v'.poisoned = v.poisoned) (hlog : v'.log = v.log)
    (hQ : ∀ a s', Mine k p v' s' → Q a s') : Keeps start q k Q R (make c) s := by
  refine keeps_change hmine fun s₁ reply s' r hmine' hstep => ?_
  obtain ⟨hpermit, hgate, hlog', hview, a, rfl⟩ := hexec s₁ reply s' r hstep hmine'.view
  have hpermit' : s'.permit = some k := hpermit.trans hmine'.permit
  refine ⟨hpermit', hlog', by rw [hgate], fun h => ?_, fun a' _ => hQ a' _ ⟨hpermit', hview, ?_⟩,
    fun e he => by cases he⟩
  · rw [hview]
    exact h.same hcurrent hcounter hpoisoned hlog
  · rw [hgate]
    exact hmine'.paused

lemma keeps_released (hmine : Mine k p v s) (hQ : ∀ s', Mine k p { v with released := true } s' → Q () s') :
    Keeps start q k Q R (make .released) s := by
  refine keeps_set { v with released := true } hmine (fun s₁ reply s' r hexec hview => ?_) rfl le_rfl rfl rfl fun _ => hQ
  cases hexec
  subst hview
  exact ⟨rfl, rfl, rfl, rfl, (), rfl⟩

lemma keeps_disposed
    (hmine : Mine k p v s) (hQ : ∀ s', Mine k p { v with candidateDisposed := true } s' → Q () s') :
    Keeps start q k Q R (make .disposed) s := by
  refine keeps_set { v with candidateDisposed := true } hmine (fun s₁ reply s' r hexec hview => ?_) rfl le_rfl rfl rfl fun _ => hQ
  cases hexec
  subst hview
  exact ⟨rfl, rfl, rfl, rfl, (), rfl⟩

lemma keeps_countTo (hmine : Mine k p v s) (hg : v.generationCounter ≤ g)
    (hQ : ∀ s', Mine k p { v with generationCounter := g } s' → Q () s') :
    Keeps start q k Q R (make (.countTo g)) s := by
  refine keeps_set { v with generationCounter := g } hmine (fun s₁ reply s' r hexec hview => ?_) rfl hg rfl rfl fun _ => hQ
  cases hexec
  subst hview
  exact ⟨rfl, rfl, rfl, rfl, (), rfl⟩

lemma Under.adopt (h : Under target previous old es v) (standing : Standing O) :
    Under target previous old (.adopted standing :: es) ({ v with current := standing }.logged (.adopted standing)) :=
  Under.cons ⟨h.log, h.mine, h.clean⟩ rfl

lemma keeps_adopt {standing : Standing O} (hmine : Mine k p v s) (hu : Under target previous old es v)
    (hcommitted : standing.release = committed start v.log)
    (hQ : ∀ s', Mine k p ({ v with current := standing }.logged (.adopted standing)) s' → Q () s') :
    Keeps start q k Q R (make (.adopt standing)) s := by
  refine keeps_make hmine fun s₁ reply s' r' hmine' hinv hexec => ?_
  cases hexec
  have hview : Controller.view { s₁ with current := standing, log := .adopted standing :: s₁.log } =
      { v with current := standing }.logged (.adopted standing) := by
    rw [← hmine'.view]
    rfl
  have hsound := hinv.sound
  rw [hmine'.view] at hsound
  have hadopted : Sound start { v with current := standing } :=
    ⟨hsound.allowed, hsound.increasing, hsound.counted, hsound.fenced, fun _ => .inl hcommitted⟩
  refine ⟨⟨?_, fun hunproven => ?_, fun _ hnone => ?_⟩, .inl hmine'.permit,
    fun _ _ => hQ _ ⟨hmine'.permit, hview, hmine'.paused⟩, fun e he => by cases he⟩
  · rw [hview]
    refine hadopted.logged ⟨hu.log, hu.mine, hu.clean⟩ (by intro h; cases h) (by intro h; cases h) trivial
      (fun _ _ h => by cases h) fun _ => .inl ?_
    exact hcommitted
  · exact hinv.paused ((unproven_cons (by intro h; cases h)).1 hunproven)
  · exact absurd (hmine'.permit.symm.trans hnone) (some_ne_none _)

def HostCall.isTold : HostCall C O → Bool
  | .prepare _ | .activate _ _ | .restore _ _ => false
  | _ => true

lemma eq_done_of_isTold {a : HostAnswer call}
    (hcall : call.isTold = true) (h : reply.answer call = some (.ok a)) : reply = .done := by
  cases call with
  | prepare | activate | restore => cases hcall
  | _ =>
    cases reply with
    | done => rfl
    | _ => cases h

lemma keeps_told {Q : HostAnswer call → Controller C O X → Prop}
    (hmine : Mine k p v s) (hu : Under target previous old es v)
    (hcall : call.isTold = true) (hcommits : ∀ release owner g, call ≠ .commit release owner g)
    (hok : ∀ a s', Mine k p (v.logged (.called call .done)) s' → Q a s')
    (herror : ∀ cause s', Mine k p (v.logged (.called call (.fails cause))) s' → R cause s') :
    Keeps start q k Q R (make (.host call)) s := by
  refine keeps_plain hmine hu (fun reply => ?_) (fun reply => ?_) (fun reply => ?_)
    (fun reply a s' hreply hs' => hok a s' (eq_done_of_isTold hcall hreply ▸ hs')) herror
  · cases call with
    | commit release owner g => exact absurd rfl (hcommits release owner g)
    | activate | restore => cases hcall
    | _ => trivial
  · cases call with
    | activate | restore => cases hcall
    | _ => rfl
  · cases call with
    | commit release owner g => exact absurd rfl (hcommits release owner g)
    | _ => rfl

/-- A release is committed, under the generation of the owner that has just been activated or restored. -/
theorem keeps_commit {release : Release} {owner : O} (hmine : Mine k p v s) (hu : Under target previous old es v)
    (htaken : taken v.log = some (.owner owner, g))
    (hshown : v.poisoned = false → release = target ∨ release = v.current.release)
    (hok : ∀ s', Mine k p (v.logged (.called (.commit release owner g) .done)) s' → Q () s')
    (herror : ∀ cause s', Mine k p (v.logged (.called (.commit release owner g) (.fails cause))) s' →
      R cause s') : Keeps start q k Q R (make (.host (.commit release owner g))) s := by
  refine keeps_host hmine (fun reply hreply hsound => ?_)
    (fun reply a s' hreply hs' => hok s' (eq_done_of_isTold rfl hreply ▸ hs')) herror
  refine hsound.logged hu (by intro h; cases h) (by intro h; cases h) htaken (fun _ _ h => by cases h)
    fun hpoisoned => ?_
  cases reply with
  | done =>
    obtain rfl | rfl := hshown hpoisoned
    · refine .inr ⟨_, previous, ?_, rfl⟩
      exact hu.lastAsked
    · exact .inl (committed_cons_some rfl).symm
  | candidate | owner => cases hreply
  | fails cause => exact shown_cons rfl rfl rfl (hsound.shown hpoisoned)

/-! ## The programs of a replacement -/

def TurnsBack (start : Standing O) (k : ℕ) (r : Replacement C O) (old : List (Entry C O X))
    (s : Controller C O X) : Prop :=
  ∃ es v, Mine k true v s ∧ Turned start r old es v

def Ends (start : Standing O) (k : ℕ) (r : Replacement C O) (old : List (Entry C O X))
    (s : Controller C O X) : Prop :=
  ∃ es v, Mine k false v s ∧ Over start r old es v

lemma Mine.forget (h : Mine k p v s) : Mine k false v s :=
  ⟨h.permit, h.view, fun hp => by cases hp⟩

lemma Forward.turned (h : Forward start r old es v) (hsafe : r.generation + 1 < Doubles.exactBound)
    (hreleased : v.released = true) : Turned start r old es v where
  toUnder := h.toUnder
  current := h.current
  counter := h.counter
  prepared := h.prepared
  safe := hsafe
  released _ := h.poisoned
  unreleased hfalse := by
    rw [hreleased] at hfalse
    cases hfalse

lemma Forward.release (h : Forward start r old es v) : Forward start r old es { v with released := true } :=
  ⟨⟨h.log, h.mine, h.clean⟩, h.current, h.counter, h.poisoned, h.disposed, h.prepared, h.below, h.base⟩

/-- A record that is written. -/
abbrev Replacement.recorded (r : Replacement C O) (phase : CheckpointPhase) (epoch : ℕ) : Entry C O X :=
  .called (.checkpoint ⟨epoch, phase, r.previous.release, r.target⟩) .done

lemma keeps_transfer (hmine : Mine k true v s) (h : Forward start r old es v) (hes : Early es)
    (hsafe : r.generation + 1 < Doubles.exactBound) (hreleased : v.released = false) :
    Keeps start q k (fun _ => Ends start k r old) (fun _ => TurnsBack start k r old) r.transfer s := by
  refine guarded_bind (keeps_recordOrPoison hmine h.toUnder (fun s hmine => ?_) fun cause s hmine => ?_)
  swap
  · have hearly : Early (.called (.checkpoint ⟨r.generation, .releasing, r.previous.release, r.target⟩)
        (.fails cause) :: es) := hes.cons rfl
    refine ⟨_, _, hmine, (h.toUnder.cons rfl).same rfl, h.current, h.counter, mem_cons_of_mem _ h.prepared,
      hsafe, fun htrue => ?_, fun _ => ⟨rfl, hearly.not_released⟩⟩
    exact absurd (htrue.symm.trans hreleased) (by decide)
  replace h := h.cons (e := r.recorded .releasing r.generation) rfl
  refine guarded_bind (keeps_released hmine fun s hmine => ?_)
  replace h := h.release
  -- from here on whatever fails is turned back
  refine guarded_bind (keeps_told hmine h.toUnder rfl (fun _ _ _ h => by cases h) (fun _ s hmine => ?_)
    fun cause s hmine => ⟨_, _, hmine, (h.cons rfl).turned hsafe rfl⟩)
  replace h := h.cons (e := .called (.deactivate r.previous.owner) .done) rfl
  refine guarded_bind (keeps_record hmine h.toUnder (fun s hmine => ?_)
    fun cause s hmine => ⟨_, _, hmine, (h.cons rfl).turned hsafe rfl⟩)
  replace h := h.cons (e := r.recorded .activating r.generation) rfl
  have huntaken : ∀ e ∈ r.recorded (X := X) .activating r.generation ::
      .called (.deactivate r.previous.owner) .done :: r.recorded .releasing r.generation :: es,
      e.taken? = none := by
    intro e he
    simp only [mem_cons] at he
    obtain rfl | rfl | rfl | he := he
    · rfl
    · rfl
    · rfl
    · exact hes.taken he
  refine guarded_bind (keeps_host hmine (fun reply _ hsound => ?_) (fun reply owner s hreply hmine => ?_)
    fun cause s hmine => ⟨_, _, hmine, (h.cons rfl).turned hsafe rfl⟩)
  · refine hsound.logged h.toUnder (by intro h; cases h) (by intro h; cases h)
      ⟨r.target, r.previous, h.toUnder.lastAsked, ?_, ?_⟩ (fun reply' g htaken => ?_)
      fun hpoisoned => shown_cons rfl rfl rfl (hsound.shown hpoisoned)
    · rw [h.toUnder.episode]
      exact h.prepared
    · rw [h.toUnder.episode]
      simp
    · cases htaken
      rw [h.generations huntaken, h.counter]
      exact ⟨h.below, le_rfl⟩
  have hreply' : reply = .owner owner := Reply.eq_owner_of_activate hreply
  subst hreply'
  replace h := h.cons (e := .called (.activate r.candidate r.generation) (.owner owner)) rfl
  refine guarded_bind (keeps_told hmine h.toUnder rfl (fun _ _ _ h => by cases h) (fun _ s hmine => ?_)
    fun cause s hmine => ⟨_, _, hmine, (h.cons rfl).turned hsafe rfl⟩)
  replace h := h.cons (e := .called (.probe owner) .done) rfl
  refine guarded_bind (keeps_record hmine h.toUnder (fun s hmine => ?_)
    fun cause s hmine => ⟨_, _, hmine, (h.cons rfl).turned hsafe rfl⟩)
  replace h := h.cons (e := r.recorded .committing r.generation) rfl
  refine guarded_bind (keeps_commit hmine h.toUnder rfl (fun _ => .inl rfl) (fun s hmine => ?_)
    fun cause s hmine => ⟨_, _, hmine, (h.cons rfl).turned hsafe rfl⟩)
  replace h := h.cons (e := .called (.commit r.target owner r.generation) .done) rfl
  refine guarded_bind (keeps_record hmine h.toUnder (fun s hmine => ?_)
    fun cause s hmine => ⟨_, _, hmine, (h.cons rfl).turned hsafe rfl⟩)
  replace h := h.cons (e := r.recorded .ready r.generation) rfl
  refine guarded_bind (keeps_adopt hmine h.toUnder rfl fun s hmine => ?_)
  refine ⟨_, _, hmine.forget, h.toUnder.adopt _, fun hfalse => ?_, fun _ _ => ?_, fun _ => rfl⟩
  · cases hfalse
  · refine ⟨owner, .inl ⟨r.candidate, r.generation, ?_⟩⟩
    exact (((((nil_sublist _).cons₂ _).cons₂ _).cons _).cons _).cons _ |>.cons _

/-! ## The rollback -/

def Fails (k : ℕ) (r : Replacement C O) (old : List (Entry C O X)) (s : Controller C O X) : Prop :=
  ∃ es v, Mine k true v s ∧ Under r.target r.previous old es v ∧ (v.released = false → ¬Released es)

lemma not_released_cons (he : ∀ owner reply, e ≠ .called (.deactivate owner) reply)
    (h : ¬Released es) : ¬Released (e :: es) := by
  rintro ⟨owner, reply, hmem⟩
  obtain heq | hmem := mem_cons.1 hmem
  · exact he owner reply heq.symm
  · exact h ⟨owner, reply, hmem⟩

lemma succ_eq {n : ℕ} (h : n + 1 < Doubles.exactBound) : succ n = n + 1 :=
  Doubles.nearest_of_le h.le

lemma keeps_restoring (hmine : Mine k true v s) (h : Turned start r old es v)
    (hdiscarded : Entry.called (.discard r.candidate) .done ∈ es) (hreleased : v.released = true)
    (hsound : Sound start v) :
    Keeps start q k (fun _ => Ends start k r old) (fun _ => Fails k r old) r.restoring s := by
  have hsucc := succ_eq h.safe
  have hbelow : ∀ g ∈ generations v.log ++ [start.generation], g < succ r.generation := by
    intro g hg
    obtain hle | hle := hsound.counted g hg
    · rw [h.counter] at hle
      exact lt_of_le_of_lt hle (hsucc ▸ Nat.lt_succ_self _)
    · rw [h.counter] at hle
      exact absurd h.safe (not_lt.2 (hle.trans (Nat.le_succ _)))
  have hfails : ∀ {e : Entry C O X} {es' : List (Entry C O X)} {v' : View C O X} {s'},
      Mine k true (v'.logged e) s' → v'.released = true → e.isAsked = false →
      Under r.target r.previous old es' v' → Fails k r old s' :=
    fun hs' hv' he hu => ⟨_, _, hs', hu.cons he, fun hfalse => absurd (hv'.symm.trans hfalse) (by decide)⟩
  refine guarded_bind (keeps_countTo hmine (by rw [h.counter, hsucc]; exact Nat.le_succ _)
    fun s hmine => ?_)
  have hu : Under r.target r.previous old es { v with generationCounter := succ r.generation } :=
    h.toUnder.same rfl
  refine guarded_bind (keeps_host hmine (fun reply _ hsound => ?_) (fun reply owner s hreply hmine => ?_)
    fun cause s hmine => hfails hmine hreleased rfl hu)
  · refine hsound.logged hu (by intro h; cases h) (by intro h; cases h)
      ⟨r.target, r.previous, r.candidate, hu.lastAsked, rfl, ?_, ?_⟩ (fun reply' g htaken => ?_)
      fun hpoisoned => shown_cons rfl rfl rfl (hsound.shown hpoisoned)
    · rw [hu.episode]
      exact h.prepared
    · rw [hu.episode]
      exact hdiscarded
    · cases htaken
      exact ⟨hbelow, le_rfl⟩
  have hreply' : reply = .owner owner := Reply.eq_owner_of_restore hreply
  subst hreply'
  replace hu := hu.cons (e := .called (.restore r.previous.release (succ r.generation)) (.owner owner)) rfl
  refine guarded_bind (keeps_told hmine hu rfl (fun _ _ _ h => by cases h) (fun _ s hmine => ?_)
    fun cause s hmine => hfails hmine hreleased rfl hu)
  replace hu := hu.cons (e := .called (.probe owner) .done) rfl
  refine guarded_bind (keeps_commit hmine hu rfl (fun _ => .inr ?_) (fun s hmine => ?_)
    fun cause s hmine => hfails hmine hreleased rfl hu)
  · rw [← h.current]
    rfl
  replace hu := hu.cons
    (e := .called (.commit r.previous.release owner (succ r.generation)) .done) rfl
  refine guarded_bind (keeps_adopt hmine hu rfl fun s hmine => ?_)
  replace hu := hu.adopt ⟨r.previous.release, owner, succ r.generation⟩
  refine keeps_record hmine hu (fun s hmine => ?_) fun cause s hmine => hfails hmine hreleased rfl hu
  refine ⟨_, _, hmine.forget, hu.cons rfl, fun hfalse => ?_, fun _ _ => ?_, fun _ => rfl⟩
  · exact absurd (hreleased.symm.trans hfalse) (by decide)
  · refine ⟨owner, .inr ⟨r.previous.release, succ r.generation, ?_⟩⟩
    exact ((((nil_sublist _).cons₂ _).cons₂ _).cons _).cons _ |>.cons _

lemma keeps_rollback (hback : TurnsBack start k r old s) :
    Keeps start q k (fun _ => Ends start k r old) (fun _ => Fails k r old) r.rollback s := by
  obtain ⟨es, v, hmine, h⟩ := hback
  have hnone : ∀ reply : Reply C O X, v.released = false →
      ¬Released (.called (.discard r.candidate) reply :: es) :=
    fun reply hfalse => not_released_cons (fun _ _ h => by cases h) (h.unreleased hfalse).2
  refine guarded_bind (keeps_told hmine h.toUnder rfl (fun _ _ _ h => by cases h) (fun _ s hmine => ?_)
    fun cause s hmine => ⟨_, _, hmine, h.toUnder.cons rfl, hnone _⟩)
  refine guarded_bind (keeps_disposed hmine fun s hmine => ?_)
  refine guarded_bind (keeps_look hmine fun s hmine hsound => ?_)
  have hu : Under r.target r.previous old (.called (.discard r.candidate) .done :: es)
      { v.logged (.called (.discard r.candidate) .done) with candidateDisposed := true } :=
    (h.toUnder.cons rfl).same rfl
  split
  · rename_i hreleased
    refine keeps_restoring hmine ⟨hu, h.current, h.counter, mem_cons_of_mem _ h.prepared, h.safe,
      h.released, fun hfalse => ?_⟩ (mem_cons_self ..) hreleased hsound
    exact absurd (hreleased.symm.trans hfalse) (by decide)
  · rename_i hreleased
    have hfalse : v.released = false := (Bool.not_eq_true _).mp hreleased
    refine ⟨_, _, hmine.forget, hu, fun _ => hnone _ hfalse, fun htrue => absurd htrue hreleased,
      fun hpoisoned => ?_⟩
    exact absurd (hpoisoned.symm.trans (h.unreleased hfalse).1) (by decide)

lemma Sound.rollbackFailed (h : Sound start v) (hu : Under target previous old es v) :
    Sound start (v.poison.logged .rollbackFailed) where
  allowed {e older} he := by
    obtain heq | he := suffix_cons_iff.1 he
    · obtain ⟨rfl, rfl⟩ := List.cons.inj heq
      exact trivial
    · exact h.allowed he
  increasing := by
    show (generations (.rollbackFailed :: v.log) ++ _).Pairwise _
    exact h.increasing
  counted g hg := h.counted g hg
  fenced {newer older} hlog hreleased := by
    cases newer with
    | nil => exact ⟨rfl, not_mem_nil, fun n₂ n₁ _ _ hnewer => by simp at hnewer⟩
    | cons e newer =>
      obtain ⟨rfl, hlog'⟩ := List.cons.inj hlog
      obtain ⟨l, rfl⟩ := hu.split hlog' hreleased
      refine ⟨rfl, fun hmem => ?_, fun n₂ n₁ target' current hnewer => ?_⟩
      · obtain heq | hmem := mem_cons.1 hmem
        · cases heq
        · exact (h.fenced hlog' hreleased).2.1 hmem
      · cases n₂ with
        | nil => cases hnewer
        | cons e' n₂ =>
          obtain ⟨-, rfl⟩ := List.cons.inj hnewer
          have := hu.mine (.asked target' current) (by simp)
          cases this
  shown hfalse := by cases hfalse

lemma keeps_rollbackFails (hfails : Fails k r old s) :
    Keeps start q k (fun _ => Ends start k r old) (fun _ => Ends start k r old)
      (make (.rollbackFails cause)) s := by
  obtain ⟨es, v, hmine, hu, hes⟩ := hfails
  refine keeps_make hmine fun s₁ reply s' r' hmine' hinv hexec => ?_
  cases hexec
  have hview : Controller.view { s₁ with
      poisoned := true
      recoveryFailure := some cause
      log := .rollbackFailed :: s₁.log } = v.poison.logged .rollbackFailed := by
    rw [← hmine'.view]
    rfl
  refine ⟨⟨?_, fun _ => hmine'.paused rfl, fun hfalse => by cases hfalse⟩, .inl hmine'.permit,
    fun _ _ => ?_, fun e he => by cases he⟩
  · rw [hview]
    have hsound := hinv.sound
    rw [hmine'.view] at hsound
    exact hsound.rollbackFailed hu
  · have hu' : Under r.target r.previous old (.rollbackFailed :: es) (v.poison.logged .rollbackFailed) :=
      Under.cons (hu.same rfl) rfl
    refine ⟨_, _, ⟨hmine'.permit, hview, (fun hfalse => by cases hfalse)⟩, hu', fun hfalse => ?_,
      (fun _ hfalse => by cases hfalse), (fun hfalse => by cases hfalse)⟩
    exact not_released_cons (fun _ _ h => by cases h) (hes hfalse)

lemma keeps_transferring (hmine : Mine k true v s) (h : Forward start r old es v) (hes : Early es)
    (hsafe : r.generation + 1 < Doubles.exactBound) (hreleased : v.released = false) :
    Keeps start q k (fun _ => Ends start k r old) (fun _ => Ends start k r old) r.transferring s := by
  refine guarded_bind (guarded_attempt ((keeps_transfer hmine h hes hsafe hreleased).mono
    (fun _ _ hends => hends) fun cause s hback => ?_))
  refine guarded_bind (guarded_attempt ((keeps_rollback hback).mono (fun _ _ hends => hends)
    fun rollbackCause s hfails => ?_))
  exact guarded_bind ((keeps_rollbackFails hfails).mono (fun _ _ hends => hends) fun _ _ hends => hends)

/-! ## Admission -/

lemma keeps_drain (hmine : Mine k p v s) (hok : ∀ s', Mine k true v s' → Q () s')
    (herror : ∀ cause s', Mine k p v s' → R cause s') : Keeps start q k Q R (make .drain) s := by
  refine keeps_change hmine fun s₁ reply s' r' hmine' hexec => ?_
  obtain ⟨r'', hr, heq⟩ := map_eq_some_iff.1 hexec
  cases heq
  refine ⟨hmine'.permit, rfl, rfl, fun h => hmine'.view ▸ h, fun a ha => ?_,
    fun cause _ => herror cause _ hmine'⟩
  subst ha
  refine hok _ ⟨hmine'.permit, hmine'.view, fun _ => ?_⟩
  unfold Reply.drains at hr
  split at hr
  · assumption
  · cases hr

lemma keeps_pause (hmine : Mine k p v s) (hQ : ∀ s', Mine k p v s' → Q () s') :
    Keeps start q k Q R (make .pause) s := by
  refine keeps_make hmine fun s₁ reply s' r' hmine' hinv hexec => ?_
  cases hexec
  refine ⟨⟨hinv.sound, fun hunproven => Admission.paused_pause (hinv.paused hunproven), hinv.settled⟩,
    .inl hmine'.permit, fun _ _ => hQ _ ⟨hmine'.permit, hmine'.view, fun hp => ?_⟩,
    fun e he => by cases he⟩
  exact Admission.paused_pause (hmine'.paused hp)

lemma keeps_resume (hmine : Mine k p v s) (hu : Under target previous old es v) (hfree : ¬Unproven v.log)
    (hallowed : ¬Released es ∨ Probed es) (hQ : ∀ s', Mine k false (v.logged .resumed) s' → Q () s') :
    Keeps start q k Q R (make .resume) s := by
  refine keeps_make hmine fun s₁ reply s' r' hmine' hinv hexec => ?_
  cases hexec
  have hview : Controller.view { s₁ with admission := s₁.admission.resume, log := .resumed :: s₁.log } =
      v.logged .resumed := by
    rw [← hmine'.view]
    rfl
  have hlog : s₁.log = v.log := congrArg View.log hmine'.view
  refine ⟨⟨?_, fun hunproven => ?_, fun _ hnone => ?_⟩, .inl hmine'.permit,
    fun _ _ => hQ _ ⟨hmine'.permit, hview, fun hfalse => by cases hfalse⟩, fun e he => by cases he⟩
  · rw [hview]
    have hsound := hinv.sound
    rw [hmine'.view] at hsound
    refine hsound.logged hu (by intro h; cases h) (fun _ => hfree) ?_ (fun _ _ h => by cases h)
      fun hpoisoned => shown_cons rfl rfl rfl (hsound.shown hpoisoned)
    show ¬Released (episode v.log) ∨ Probed (episode v.log)
    rw [hu.episode]
    exact hallowed
  · rw [unproven_cons (by intro h; cases h), hlog] at hunproven
    exact absurd hunproven hfree
  · exact absurd (hmine'.permit.symm.trans hnone) (some_ne_none _)

/-- Where nothing has been released, or no recovery is required, nothing has failed for good. -/
theorem Over.not_unproven (h : Over start r old es v) (hsound : Sound start v)
    (hfree : v.released = false ∨ v.poisoned = false) : ¬Unproven v.log := by
  obtain hreleased | hpoisoned := hfree
  · exact h.toUnder.not_unproven (h.unreleased hreleased)
  · rintro ⟨newer, older, hlog, hrel⟩
    exact absurd (hpoisoned.symm.trans (hsound.fenced hlog hrel).1) (by decide)

lemma Over.allowed (h : Over start r old es v) (hfree : v.released = false ∨ v.poisoned = false) :
    ¬Released es ∨ Probed es := by
  cases hreleased : v.released with
  | false => exact .inl (h.unreleased hreleased)
  | true =>
    obtain hfalse | hpoisoned := hfree
    · exact absurd (hreleased.symm.trans hfalse) (by decide)
    · exact .inr (h.probed hreleased hpoisoned)

lemma keeps_reopening (hends : Ends start k r old s) :
    Keeps start q k (fun _ => Ends start k r old) (fun _ => Ends start k r old) Replacement.reopening s := by
  obtain ⟨es, v, hmine, h⟩ := hends
  refine guarded_bind (keeps_look hmine fun s hmine hsound => ?_)
  split
  · rename_i hfree
    have hfree' : v.released = false ∨ v.poisoned = false := by
      simpa using hfree
    refine keeps_resume hmine h.toUnder (h.not_unproven hsound hfree') (h.allowed hfree')
      fun s hmine => ⟨_, _, hmine, h.toUnder.cons rfl, fun hfalse => ?_, fun htrue hpoisoned => ?_,
        fun hpoisoned => ?_⟩
    · exact not_released_cons (fun _ _ h => by cases h) (h.unreleased hfalse)
    · obtain ⟨owner, ⟨candidate, g, hsub⟩ | ⟨release, g, hsub⟩⟩ := h.probed htrue hpoisoned
      · exact ⟨owner, .inl ⟨candidate, g, hsub.cons _⟩⟩
      · exact ⟨owner, .inr ⟨release, g, hsub.cons _⟩⟩
    · exact (h.shows hpoisoned).trans (committed_cons_none rfl).symm
  · exact ⟨es, v, hmine, h⟩

variable {qualifies : Bool}

section

variable (hmine : Mine k p v s) (h : Forward start r old es v) (hes : Early es)
  (hsafe : r.generation + 1 < Doubles.exactBound) (hreleased : v.released = false)
include hmine h hes hsafe hreleased

lemma keeps_draining :
    Keeps start q k (fun _ => Ends start k r old) (fun _ => Ends start k r old) (r.draining qualifies) s := by
  refine guarded_bind (keeps_drain hmine (fun s hmine => ?_)
    fun cause s hmine => ⟨_, _, hmine.forget, h.over hes hreleased⟩)
  have hlast : ∀ {es' : List (Entry C O X)} {v' : View C O X} {s' : Controller C O X}, Mine k true v' s' →
      Forward start r old es' v' → Early es' → v'.released = false →
      Keeps start q k (fun _ => Ends start k r old) (fun _ => Ends start k r old)
        (do make .moment; r.transferring) s' := by
    intro es' v' s' hmine' h' hes' hreleased'
    exact guarded_bind (keeps_moment hmine' (fun s hmine => keeps_transferring hmine h' hes' hsafe hreleased')
      fun cause s hmine => ⟨_, _, hmine.forget, h'.over hes' hreleased'⟩)
  cases qualifies with
  | false => exact hlast hmine h hes hreleased
  | true =>
    refine guarded_bind (keeps_told hmine h.toUnder rfl (fun _ _ _ h => by cases h) (fun _ s hmine => ?_)
      fun cause s hmine => ⟨_, _, hmine.forget, (h.cons rfl).over (hes.cons rfl) hreleased⟩)
    exact hlast hmine (h.cons rfl) (hes.cons rfl) hreleased

lemma keeps_handing :
    Keeps start q k (fun _ => Ends start k r old) (fun _ => Ends start k r old) (r.handing qualifies) s := by
  refine guarded_bind (keeps_moment hmine (fun s hmine => ?_)
    fun cause s hmine => ⟨_, _, hmine.forget, h.over hes hreleased⟩)
  refine guarded_bind (keeps_recordOrPoison hmine h.toUnder (fun s hmine => ?_) fun cause s hmine => ?_)
  swap
  · have hearly : Early (.called (.checkpoint ⟨r.generation, .prepared, r.previous.release, r.target⟩)
        (.fails cause) :: es) := hes.cons rfl
    exact ⟨_, _, hmine.forget, (h.toUnder.cons rfl).same rfl, fun _ => hearly.not_released,
      fun htrue => absurd (htrue.symm.trans hreleased) (by decide), fun hfalse => by cases hfalse⟩
  replace h := h.cons (e := r.recorded .prepared r.generation) rfl
  have hearly : Early (r.recorded .prepared r.generation :: es) := hes.cons rfl
  refine guarded_bind (keeps_moment hmine (fun s hmine => ?_)
    fun cause s hmine => ⟨_, _, hmine.forget, h.over hearly hreleased⟩)
  refine guarded_bind (keeps_pause hmine fun s hmine => ?_)
  refine guarded_bind (keeps_moment hmine (fun s hmine => ?_)
    fun cause s hmine => ⟨_, _, hmine.forget, h.over hearly hreleased⟩)
  exact guarded_ensuring ((keeps_draining hmine h hearly hsafe hreleased).mono
    (fun _ _ hends => keeps_reopening hends) fun _ _ hends => keeps_reopening hends)

end

/-! ## A replacement -/

def Rests (start : Standing O) (k : ℕ) (s : Controller C O X) : Prop :=
  ∃ v, Mine k false v s ∧ (v.poisoned = false → v.current.release = committed start v.log)

lemma keeps_discarding (hends : Ends start k r old s) :
    Keeps start q k (fun _ => Rests start k) (fun _ => Rests start k) r.discarding s := by
  obtain ⟨es, v, hmine, h⟩ := hends
  refine guarded_bind (keeps_look hmine fun s hmine _ => ?_)
  split
  · exact ⟨v, hmine, h.shows⟩
  · refine guarded_tryCatch (keeps_told hmine h.toUnder rfl (fun _ _ _ h => by cases h)
      (fun _ s hmine => ⟨_, hmine, fun hpoisoned => ?_⟩) fun cause s hmine => ?_)
    · exact (h.shows hpoisoned).trans (committed_cons_none rfl).symm
    · refine guarded_bind (keeps_poison hmine fun s hmine => ?_)
      split
      · exact keeps_pause hmine fun s hmine => ⟨_, hmine, fun hfalse => by cases hfalse⟩
      · exact ⟨_, hmine, fun hfalse => by cases hfalse⟩

def View.asked (v : View C O X) (target : Release) : View C O X := v.logged (.asked target v.current)

lemma Sound.asked (h : Sound start v) (target : Release)
    (hshown : v.poisoned = false → v.current.release = committed start v.log) :
    Sound start (v.asked target) where
  allowed {e older} he := by
    obtain heq | he := suffix_cons_iff.1 he
    · obtain ⟨rfl, rfl⟩ := List.cons.inj heq
      exact trivial
    · exact h.allowed he
  increasing := by
    show (generations (.asked target v.current :: v.log) ++ _).Pairwise _
    exact h.increasing
  counted g hg := h.counted g hg
  fenced {newer older} hlog hreleased := by
    cases newer with
    | nil => cases hlog
    | cons e newer =>
      obtain ⟨rfl, hlog'⟩ := List.cons.inj hlog
      obtain ⟨hpoisoned, hresumed, hquiet⟩ := h.fenced hlog' hreleased
      refine ⟨hpoisoned, fun hmem => ?_, fun n₂ n₁ target' current hnewer call reply hmem => ?_⟩
      · obtain heq | hmem := mem_cons.1 hmem
        · cases heq
        · exact hresumed hmem
      · cases n₂ with
        | nil => cases hmem
        | cons e' n₂ =>
          obtain ⟨rfl, hnewer'⟩ := List.cons.inj hnewer
          obtain heq | hmem := mem_cons.1 hmem
          · cases heq
          · exact hquiet n₂ n₁ target' current hnewer' call reply hmem
  shown hpoisoned := .inl ((hshown hpoisoned).trans (committed_cons_none rfl).symm)

lemma Sound.below (h : Sound start v) (hsafe : isSafeInteger (succ (succ v.generationCounter)) = true) :
    succ v.generationCounter + 1 < Doubles.exactBound ∧
      (∀ g ∈ generations v.log ++ [start.generation], g < succ v.generationCounter) ∧
      v.generationCounter ≤ succ v.generationCounter := by
  have hlt : ∀ {n : ℕ}, succ n < Doubles.exactBound → n + 1 < Doubles.exactBound := by
    intro n hn
    by_contra hge
    exact absurd hn (not_lt.2 (Doubles.le_nearest (not_lt.1 hge)))
  have hsucc : succ v.generationCounter + 1 < Doubles.exactBound := by
    refine hlt (lt_of_le_of_lt (of_decide_eq_true hsafe) ?_)
    decide
  have hcounter : v.generationCounter + 1 < Doubles.exactBound :=
    hlt (lt_trans (Nat.lt_succ_self _) hsucc)
  have heq : succ v.generationCounter = v.generationCounter + 1 := succ_eq hcounter
  refine ⟨hsucc, fun g hg => ?_, by rw [heq]; exact Nat.le_succ _⟩
  obtain hle | hle := h.counted g hg
  · rw [heq]
    exact Nat.lt_succ_of_le hle
  · exact absurd (lt_trans (Nat.lt_succ_self _) hcounter) (not_lt.2 hle)

lemma Sound.counting (h : Sound start v) :
    Sound start { v with generationCounter := succ v.generationCounter } where
  allowed := h.allowed
  increasing := h.increasing
  counted g hg := by
    by_cases hlt : v.generationCounter + 1 < Doubles.exactBound
    · have heq : succ v.generationCounter = v.generationCounter + 1 := succ_eq hlt
      refine (h.counted g hg).imp (fun hle => ?_) fun hle => ?_
      · rw [heq]
        exact hle.trans (Nat.le_succ _)
      · rw [heq]
        exact hle.trans (Nat.le_succ _)
    · exact .inr (Doubles.le_nearest (not_lt.1 hlt))
  fenced := h.fenced
  shown := h.shown

def View.opened (v : View C O X) (target : Release) : View C O X :=
  { v.asked target with
    generationCounter := succ v.generationCounter
    released := false
    candidateDisposed := false }

/-- What a replacement that begins can go by. -/
structure Begins (start : Standing O) (target : Release) (v : View C O X) : Prop where
  poisoned : v.poisoned = false
  clean : ¬Unproven v.log
  safe : succ v.generationCounter + 1 < Doubles.exactBound
  below : ∀ g ∈ generations v.log ++ [start.generation], g < succ v.generationCounter

lemma keeps_opens {Q : Opened O → Controller C O X → Prop}
    (hmine : Mine k p v s) (hshown : v.poisoned = false → v.current.release = committed start v.log)
    (hfenced : ∀ s', Mine k p (v.asked target) s' → Q .fenced s')
    (hsame : ∀ s', Mine k p (v.asked target) s' → Q (.same v.current) s')
    (hexhausted : ∀ s', Mine k p { v.asked target with
      generationCounter := succ v.generationCounter } s' → Q .exhausted s')
    (hopened : ∀ s', Mine k p (v.opened target) s' → Begins start target v →
      Q (.opened v.current (succ v.generationCounter)) s') :
    Keeps start q k Q R (make (.opens target)) s := by
  refine keeps_make hmine fun s₁ reply s' r' hmine' hinv hexec => ?_
  cases hexec
  have hview := hmine'.view
  subst hview
  have hsound := hinv.sound.asked target hshown
  have hpaused : Unproven (.asked target s₁.current :: s₁.log) → s₁.admission.paused = true :=
    fun hunproven => hinv.paused ((unproven_cons (by intro h; cases h)).1 hunproven)
  have hnone : s₁.permit ≠ none := by
    rw [hmine'.permit]
    exact some_ne_none _
  unfold Controller.opens
  split
  · exact ⟨⟨hsound, hpaused, fun _ h => absurd h hnone⟩, .inl hmine'.permit,
      (fun a ha => by cases ha; exact hfenced _ ⟨hmine'.permit, rfl, hmine'.paused⟩),
      fun e he => by cases he⟩
  · rename_i hpoisoned
    split
    · exact ⟨⟨hsound, hpaused, fun _ h => absurd h hnone⟩, .inl hmine'.permit,
        (fun a ha => by cases ha; exact hsame _ ⟨hmine'.permit, rfl, hmine'.paused⟩),
        fun e he => by cases he⟩
    · dsimp only
      split
      · rename_i hsafe
        have hpoisoned' : s₁.poisoned = false := (Bool.not_eq_true _).mp hpoisoned
        obtain ⟨hlt, hbelow, hle⟩ := hinv.sound.below hsafe
        refine ⟨⟨hsound.same rfl hle rfl rfl, hpaused, fun _ h => absurd h hnone⟩, .inl hmine'.permit,
          fun a ha => ?_, fun e he => by cases he⟩
        cases ha
        refine hopened _ ⟨hmine'.permit, rfl, hmine'.paused⟩ ⟨hpoisoned', ?_, hlt, hbelow⟩
        rintro ⟨newer, older, hlog, hreleased⟩
        exact hpoisoned (hinv.sound.fenced hlog hreleased).1
      · exact ⟨⟨hsound.counting, hpaused, fun _ h => absurd h hnone⟩, .inl hmine'.permit,
          (fun a ha => by cases ha; exact hexhausted _ ⟨hmine'.permit, rfl, hmine'.paused⟩),
          fun e he => by cases he⟩

lemma keeps_replacing (hrests : Rests start k s) :
    Keeps start q k (fun _ => Rests start k) (fun _ => Rests start k) (replacing qualifies target) s := by
  obtain ⟨v, hmine, hshown⟩ := hrests
  have hasked : v.poisoned = false → v.current.release = committed start (v.asked target).log :=
    fun hpoisoned => (hshown hpoisoned).trans (committed_cons_none rfl).symm
  refine guarded_bind (keeps_opens hmine hshown (fun s hmine => ⟨_, hmine, hasked⟩)
    (fun s hmine => ⟨_, hmine, hasked⟩) (fun s hmine => ⟨_, hmine, hasked⟩) fun s hmine hbegins => ?_)
  have hu : Under target v.current v.log [] (v.opened target) :=
    ⟨rfl, (fun e he => by cases he), hbegins.clean⟩
  refine guarded_bind (keeps_plain hmine hu (fun _ => trivial) (fun _ => rfl) (fun _ => rfl)
    (fun reply candidate s hreply hmine => ?_) fun cause s hmine => ⟨_, hmine, fun hpoisoned => ?_⟩)
  swap
  · exact (hasked hpoisoned).trans (committed_cons_none rfl).symm
  have hreply' : reply = .candidate candidate := Reply.eq_candidate_of_prepare hreply
  subst hreply'
  have hforward : Forward start ⟨target, v.current, succ v.generationCounter, candidate⟩ v.log
      [.called (.prepare target) (.candidate candidate)]
      ((v.opened target).logged (.called (.prepare target) (.candidate candidate))) :=
    ⟨hu.cons rfl, rfl, rfl, hbegins.poisoned, rfl, mem_cons_self .., hbegins.below,
      (hshown hbegins.poisoned).symm⟩
  have hearly : Early [Entry.called (X := X) (O := O) (.prepare target) (.candidate candidate)] := by
    intro e he
    cases mem_singleton.1 he
    exact ⟨_, _, rfl, rfl⟩
  exact guarded_ensuring ((keeps_handing hmine hforward hearly hbegins.safe rfl).mono
    (fun _ _ hends => keeps_discarding hends) fun _ _ hends => keeps_discarding hends)

lemma keeps_release (hrests : Rests start k s) :
    Keeps start q k (fun _ _ => True) (fun _ _ => True) (make .release) s := by
  obtain ⟨v, hmine, hshown⟩ := hrests
  refine keeps_make hmine fun s₁ reply s' r' hmine' hinv hexec => ?_
  cases hexec
  refine ⟨⟨hinv.sound, hinv.paused, fun hpoisoned _ => ?_⟩, .inr rfl, fun _ _ => trivial, fun _ _ => trivial⟩
  have hview := hmine'.view
  subst hview
  exact hshown hpoisoned

lemma keeps_replace :
    Keeps start q k (fun _ _ => True) (fun _ _ => True) (replace qualifies target) s := by
  refine guarded_bind (guarded_perform fun s₁ s' r' hinv hrely hmakes => ?_)
  obtain ⟨-, reply, hexec⟩ := hmakes
  replace hexec : exec k reply s₁ .acquire = some (s', r') := hexec
  simp only [exec] at hexec
  split at hexec
  · split at hexec
    · rename_i hnone
      cases hexec
      refine ⟨⟨hinv.sound, hinv.paused, fun _ h => by cases h⟩,
        ⟨trivial, fun j hj => ⟨fun h => ?_, fun _ h => hj (some.inj h).symm⟩⟩, fun a ha => ?_,
        fun e he => by cases he⟩
      · rw [hnone] at h
        cases h
      · have hrests : Rests start k { s₁ with permit := some k } :=
          ⟨_, ⟨rfl, rfl, (fun h => by cases h)⟩, fun hpoisoned => hinv.settled hpoisoned hnone⟩
        exact guarded_ensuring ((keeps_replacing hrests).mono
          (fun _ _ hrests => keeps_release hrests) fun _ _ hrests => keeps_release hrests)
    · cases hexec
  · cases hexec
    exact ⟨hinv, ⟨trivial, fun j _ => rely_refl j _⟩, (fun a ha => by cases ha), fun _ _ => trivial⟩
  · cases hexec

lemma discipline (start : Standing O) (qualifies : Bool) :
    Discipline (handover C O X qualifies) (fun _ _ _ => True) (Inv start) rely
      (fun k s => s.permit ≠ some k) (fun _ _ => True) (fun _ _ _ _ => True) where
  refl := rely_refl
  trans := rely_trans
  fresh_stable h := h.2
  leaves_refl _ := trivial
  ends_stable _ h := h
  programs _ _ _ _ _ := keeps_replace
  passes {step s s'} hinv hpasses := by
    obtain ⟨gate, hgate, rfl⟩ := map_eq_some_iff.1 hpasses
    refine ⟨⟨hinv.sound, fun h => Admission.paused_after hgate (hinv.paused h), hinv.settled⟩, trivial,
      fun k => ⟨fun _ => ⟨gate, rfl, Admission.paused_after hgate⟩, id⟩⟩
  crashes _ h := by cases h

/-! ## Over any replacements -/

/-- What is shown is what was committed last, as long as no recovery is required. -/
def Shows (start : Standing O) (s : Controller C O X) : Prop :=
  s.poisoned = false → s.current.release = committed start s.log

/-- How the calls of a handover follow each other. -/
structure Orderly (start : Standing O) (s : Controller C O X) : Prop where
  activated : ∀ {older candidate g reply}, (.called (.activate candidate g) reply :: older) <:+ s.log →
    ∃ target current, lastAsked older = some (target, current) ∧
      Entry.called (.prepare target) (.candidate candidate) ∈ episode older ∧
      Entry.called (.deactivate current.owner) .done ∈ episode older
  restored : ∀ {older release g reply}, (.called (.restore release g) reply :: older) <:+ s.log →
    ∃ target current candidate, lastAsked older = some (target, current) ∧ release = current.release ∧
      Entry.called (.prepare target) (.candidate candidate) ∈ episode older ∧
      Entry.called (.discard candidate) .done ∈ episode older
  increasing : (generations s.log ++ [start.generation]).Pairwise (· > ·)
  commits : ∀ {older release owner g reply}, (.called (.commit release owner g) reply :: older) <:+ s.log →
    taken older = some (.owner owner, g)
  resumes : ∀ {older}, (.resumed :: older) <:+ s.log → ¬Released (episode older) ∨ Probed (episode older)
  /-- After a rollback that failed once the owner was released, admission stays paused, is not resumed, and
  no replacement that is asked for calls the host. -/
  paused : ∀ {newer older}, s.log = newer ++ .rollbackFailed :: older → Released (episode older) →
    s.admission.paused = true ∧ Quiet newer
  shown : s.poisoned = false → s.current.release = committed start s.log ∨ Pending s.log
  settled : s.permit = none → Shows start s

lemma Inv.orderly (h : Inv start s) : Orderly start s where
  activated hlog := h.sound.allowed hlog
  restored hlog := h.sound.allowed hlog
  increasing := h.sound.increasing
  commits hlog := h.sound.allowed hlog
  resumes hlog := h.sound.allowed hlog
  paused hlog hreleased := ⟨h.paused ⟨_, _, hlog, hreleased⟩, (h.sound.fenced hlog hreleased).2⟩
  shown := h.sound.shown
  settled hnone hpoisoned := h.settled hpoisoned hnone

lemma inv_initial (start : Standing O) (gate : Admission) :
    Inv start (Controller.initial start gate : Controller C O X) where
  sound :=
    { allowed := fun he => by cases suffix_nil.1 he
      increasing := pairwise_singleton _ _
      counted := fun g hg => .inl (le_of_eq (mem_singleton.1 hg))
      fenced := fun hlog => by simp [Controller.initial, Controller.view] at hlog
      shown := fun _ => .inl rfl }
  paused := by
    rintro ⟨newer, older, hlog, -⟩
    simp [Controller.initial] at hlog
  settled _ _ := rfl

/-- However many replacements are asked for, whatever fails, whoever leaves, and whatever requests do at the
gate. -/
theorem orderly_after {qualifies : Bool} {gate : Admission}
    {events : List (Event Release (Reply C O X) Admission.Step Empty)}
    {w : World (Controller C O X) (Job Release (Call C O X) Answer (Cause X) (Standing O))}
    (h : (handover C O X qualifies).after ⟨.initial start gate, []⟩ events = some w) :
    Orderly start w.shared := by
  have hheld : Held (handover C O X qualifies) (fun _ _ _ => True) (Inv start) rely
      (fun k s => s.permit ≠ some k) (fun _ _ => True) (fun _ _ _ _ => True) ⟨.initial start gate, []⟩ :=
    held_start (inv_initial start gate) fun k h => by cases h
  exact ((discipline start qualifies).after hheld (Process.within_true _ _) h).inv.orderly

/-! ## A replacement that is about to be shown -/

def releaseOf (version : String) : Release :=
  ⟨utf16 version, utf16 "sha256:" ++ List.replicate 64 0x30⟩

def firstOwner : Standing ℕ := ⟨releaseOf "1.0.0", 0, 1⟩

def committedEvents : List (Event Release (Reply Unit ℕ Unit) Admission.Step Empty) :=
  .begins (releaseOf "1.1.0") ::
    [.done, .done, .candidate (), .done, .done, .done, .done, .done, .done, .done, .done, .done, .done, .done,
      .owner 1, .done, .done, .done].map (Event.moves 0)

def committedWorld :
    Option (World (Controller Unit ℕ Unit) (Job Release (Call Unit ℕ Unit) Answer (Cause Unit) (Standing ℕ))) :=
  (handover Unit ℕ Unit false).after ⟨.initial firstOwner { queueLimit := 1 }, []⟩ committedEvents

lemma committedWorld_shows : committedWorld.map (fun w =>
    (w.shared.poisoned, w.shared.current, committed firstOwner w.shared.log)) =
      some (false, firstOwner, releaseOf "1.1.0") := by
  decide +kernel

/-- While the commit of a target is being recorded, what is shown is the release before it. -/
theorem not_shows_after :
    ¬∀ (start : Standing ℕ) (gate : Admission) (events : List (Event Release (Reply Unit ℕ Unit)
      Admission.Step Empty)) (w : World (Controller Unit ℕ Unit) (Job Release (Call Unit ℕ Unit) Answer
        (Cause Unit) (Standing ℕ))),
      (handover Unit ℕ Unit false).after ⟨.initial start gate, []⟩ events = some w →
        Orderly start w.shared ∧ Shows start w.shared := by
  intro h
  obtain ⟨w, hw, hshows⟩ := Option.map_eq_some_iff.1 committedWorld_shows
  have hclaim := (h firstOwner { queueLimit := 1 } committedEvents w hw).2
  obtain ⟨hpoisoned, hcurrent, hcommitted⟩ : w.shared.poisoned = false ∧ w.shared.current = firstOwner ∧
      committed firstOwner w.shared.log = releaseOf "1.1.0" := by
    simpa [Prod.ext_iff] using hshows
  have hrelease := hclaim hpoisoned
  rw [hcurrent, hcommitted] at hrelease
  exact absurd hrelease (by decide)

/-- The same run. -/
theorem orderly_after_committed : ∃ w, committedWorld = some w ∧ Orderly firstOwner w.shared := by
  obtain ⟨w, hw, -⟩ := Option.map_eq_some_iff.1 committedWorld_shows
  exact ⟨w, hw, orderly_after hw⟩

end Zelavis.Runtime
