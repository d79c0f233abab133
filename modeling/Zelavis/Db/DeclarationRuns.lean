import Zelavis.Db.DeclarationSteps

/-!
# What was declared stays in force
-/

namespace Zelavis.Db.Declarations

open Lib List

section

variable {t : TenantId} {n : Utf16} {w : World} {call : Call}

/-! ## What is left of the rest -/

lemma World.Sound.leaves (h : w.Sound t n) (hcall : call ∈ w.calls) : w.Leaves t n call := by
  have hsound := h.calls call hcall
  -- a step that changes nothing leaves everything
  have hsame : (call.advance t n w.store).1 = w.store →
      (∀ seq before fault, call.phase ≠ .failing seq before fault) → w.Leaves t n call := by
    intro hstore hnot
    refine ⟨fun _ other _ => ?_, fun check _ => ?_, ?_⟩
    · rw [hstore]
    · rw [hstore]
    · intro e seq before fault _ hphase
      exact absurd hphase (hnot seq before fault)
  cases hphase : call.phase with
  | asked =>
    refine hsame ?_ fun seq before fault hfailing => by rw [hphase] at hfailing; cases hfailing
    unfold Call.advance
    rw [hphase]
    dsimp only
    split
    · rfl
    · rfl
    · rfl
  | looking =>
    refine hsame ?_ fun seq before fault hfailing => by rw [hphase] at hfailing; cases hfailing
    unfold Call.advance
    rw [hphase]
    dsimp only
    split
    · rfl
    · rfl
  | recorded seq before =>
    refine hsame ?_ fun seq before fault hfailing => by rw [hphase] at hfailing; cases hfailing
    unfold Call.advance
    rw [hphase]
  | reading seq before todo documents =>
    refine hsame ?_ fun seq before fault hfailing => by rw [hphase] at hfailing; cases hfailing
    unfold Call.advance
    rw [hphase]
    cases todo with
    | nil | cons => rfl
  | done r =>
    refine hsame ?_ fun seq before fault hfailing => by rw [hphase] at hfailing; cases hfailing
    unfold Call.advance
    rw [hphase]
  | found seq =>
    have hnot : ∀ seq' before fault, call.phase ≠ .failing seq' before fault := by
      intro seq' before fault hfailing
      rw [hphase] at hfailing
      cases hfailing
    have hseq := hsound.named seq (by rw [hphase]; rfl)
    obtain ⟨c, hc⟩ := h.kept.load_of_named hseq
    have hstore : (call.advance t n w.store).1 = (Declarations.record t n w.store seq call.request).1 := by
      unfold Call.advance
      rw [hphase]
    cases hrequest : call.request with
    | addCheck check =>
      rw [hrequest] at hstore
      unfold Declarations.record at hstore
      rw [hc] at hstore
      dsimp only at hstore
      split_ifs at hstore with hexists
      · exact hsame hstore hnot
      · have hr := rewritten_settings h.kept hseq hc
          ⟨c.checks ++ [check], c.analyzer, c.spatial, c.embedding⟩
        refine ⟨fun _ other hother => ?_, fun _ _ => ?_, fun e seq' before fault _ hfailing =>
          absurd hfailing (hnot seq' before fault)⟩
        · rw [hstore]
          refine hr.recorded_iff (P := fun c => other ∈ c.checks) ?_
          show other ∈ c.checks ++ [check] ↔ other ∈ c.checks
          rw [mem_append, mem_singleton, or_iff_left]
          rintro rfl
          exact hother hrequest
        · rw [hstore]
          exact (congrArg (Option.map StoredCollection.embedding) hr.load').trans
            (congrArg (Option.map StoredCollection.embedding) hr.load).symm
    | dropCheck name =>
      refine ⟨fun hdrop => absurd hrequest (hdrop name), fun check hcheck => ?_,
        fun e seq' before fault _ hfailing => absurd hfailing (hnot seq' before fault)⟩
      cases hrequest.symm.trans hcheck
    | embed e =>
      rw [hrequest] at hstore
      unfold Declarations.record at hstore
      rw [hc] at hstore
      have hr := rewritten_settings h.kept hseq hc ⟨c.checks, c.analyzer, c.spatial, some e⟩
      refine ⟨fun _ other _ => ?_, fun check hcheck => ?_, fun e seq' before fault _ hfailing =>
        absurd hfailing (hnot seq' before fault)⟩
      · rw [hstore]
        exact hr.recorded_iff (P := fun c => other ∈ c.checks) Iff.rfl
      · cases hrequest.symm.trans hcheck
  | failing seq before fault =>
    have hopen : call.phase.isOpen = true := by
      rw [hphase]
      rfl
    have hseq := hsound.named seq (by rw [hphase]; rfl)
    obtain ⟨c, hc, hrecorded⟩ := hsound.recorded hopen
    have hstore : (call.advance t n w.store).1 = withdraw t n w.store seq call.request := by
      unfold Call.advance
      rw [hphase]
    cases hrequest : call.request with
    | addCheck check =>
      rw [hrequest] at hstore
      unfold withdraw at hstore
      rw [hc] at hstore
      have hr := rewritten_settings h.kept hseq hc
        ⟨c.checks.filter fun other => other.name ≠ check.name, c.analyzer, c.spatial, c.embedding⟩
      refine ⟨fun _ other hother => ?_, fun _ _ => ?_, fun e _ _ _ he => ?_⟩
      · rw [hstore]
        refine hr.recorded_iff (P := fun c => other ∈ c.checks) ?_
        refine ⟨mem_of_mem_filter, fun hmem => mem_filter.2 ⟨hmem, decide_eq_true ?_⟩⟩
        intro hname
        exact hother (hrequest.trans
          (congrArg Request.addCheck (hsound.only hopen check hrequest c hc other hmem hname)).symm)
      · rw [hstore]
        exact (congrArg (Option.map StoredCollection.embedding) hr.load').trans
          (congrArg (Option.map StoredCollection.embedding) hr.load).symm
      · cases hrequest.symm.trans he
    | dropCheck name =>
      refine ⟨fun hdrop => absurd hrequest (hdrop name), fun check hcheck => ?_, fun e _ _ _ he => ?_⟩
      · cases hrequest.symm.trans hcheck
      · cases hrequest.symm.trans he
    | embed e =>
      rw [hrequest] at hstore
      unfold withdraw at hstore
      rw [hc] at hstore
      have hr := rewritten_settings h.kept hseq hc ⟨c.checks, c.analyzer, c.spatial, none⟩
      refine ⟨fun _ other _ => ?_, fun check hcheck => ?_, fun e' seq' before' fault' _ hfailing => ?_⟩
      · rw [hstore]
        exact hr.recorded_iff (P := fun c => other ∈ c.checks) Iff.rfl
      · cases hrequest.symm.trans hcheck
      · rw [hsound.failed seq' before' fault' hfailing e hrequest, hstore]
        exact congrArg (Option.map StoredCollection.embedding) hr.load'

end

/-! ## Every run -/

variable {event : Event}

section

variable {host : Host} {t : TenantId} {n : Utf16} {w : World}

lemma World.Sound.next (h : w.Sound t n) (ht : TenantOk t)
    (hclear : Clear n w event) : (w.next host t n event).Sound t n := by
  cases event with
  | reserve => exact h.reserve
  | write now ops =>
    unfold World.next
    dsimp only
    split_ifs with hops
    · split
      next store hwrite => exact h.write ht hops.1 hops.2 hwrite
      next => exact h
    · exact h
  | call request => exact h.called request
  | advance place =>
    unfold World.next
    dsimp only
    split
    next => exact h
    next call hcall => exact h.advance ht hcall hclear

lemma World.Sound.run (ht : TenantOk t) (events : List Event) : ∀ {w : World}, w.Sound t n →
    (∀ before event after, events = before ++ event :: after →
      Clear n (w.run host t n before) event) → (w.run host t n events).Sound t n := by
  induction events with
  | nil =>
    intro w h _
    exact h
  | cons event events ih =>
    intro w h hclear
    refine ih (h.next ht (hclear [] event events rfl)) fun before event' after heq => ?_
    exact hclear (event :: before) event' after (by rw [heq]; rfl)

lemma World.sound_of_reached {C : Db.World → TenantId → Utf16 → List DocumentWrite → Prop}
    {u : Db.World} (hu : Reached host C u) :
    World.Sound t n { store := u.store, reserved := u.reserved } where
  kept := hu.sound.kept
  reserved := hu.sound.reserved
  inForce := ⟨fun _ hcheck => absurd hcheck not_mem_nil, fun _ he => by cases he⟩
  calls := fun _ hcall => absurd hcall not_mem_nil
  apart := fun _ _ _ _ ha => by cases ha

/-- In every run whose events are clear, what was declared and is in force is recorded and met by every
document, and a call leaves what others declared. -/
theorem declared_stays {C : Db.World → TenantId → Utf16 → List DocumentWrite → Prop} {u : Db.World}
    (hu : Reached host C u) (ht : TenantOk t) (events : List Event)
    (hclear : ∀ before event after, events = before ++ event :: after →
      Clear n (World.run host t n { store := u.store, reserved := u.reserved } before) event) :
    (World.run host t n { store := u.store, reserved := u.reserved } events).InForce t n ∧
      ∀ call ∈ (World.run host t n { store := u.store, reserved := u.reserved } events).calls,
        World.Leaves t n (World.run host t n { store := u.store, reserved := u.reserved } events) call := by
  have h := World.Sound.run ht events (World.sound_of_reached hu) hclear
  exact ⟨h.inForce, fun call hcall => h.leaves hcall⟩

end

/-! ### An embedding that fails over another -/

def one : JsNumber := ⟨0x3ff0000000000000⟩

def firstEmbedding : EmbeddingIndex where
  field := utf16 "v"
  dimension := one
  metric := .cosine
  version := one

def secondEmbedding : EmbeddingIndex where
  field := utf16 "e"
  dimension := one
  metric := .cosine
  version := one

/-- The first is declared; then the second is, up to the document that does not meet it. -/
def twoEmbeddings : List Event :=
  [.call (.embed firstEmbedding), .advance 0, .advance 0, .advance 0, .advance 0, .advance 0, .advance 0,
    .call (.embed secondEmbedding), .advance 1, .advance 1, .advance 1, .advance 1, .advance 1]

def embeddedTwice : World :=
  World.run plainHost (utf16 "t") (utf16 "a") { store := uniqueStore } twoEmbeddings

/-- A call to embed is about to take off what it recorded over an embedding. -/
def Call.fallsBack (call : Call) : Bool :=
  match call.request, call.phase with
  | .embed _, .failing _ (some _) _ => true
  | _, _ => false

lemma Call.fallsBack_iff {call : Call} (h : call.fallsBack = true) :
    ∃ e seq before fault, call.request = .embed e ∧ call.phase = .failing seq (some before) fault := by
  unfold Call.fallsBack at h
  split at h
  next e seq before fault hrequest hphase => exact ⟨e, seq, before, fault, hrequest, hphase⟩
  next => cases h

/-- The second embedding fails, and the first is gone. -/
theorem not_declared_stays : ¬∀ (host : Host) (t : TenantId) (n : Utf16) (u : Db.World)
    (events : List Event), Reached host (fun _ _ _ _ => True) u → TenantOk t →
    (World.run host t n { store := u.store, reserved := u.reserved } events).InForce t n ∧
      ∀ call ∈ (World.run host t n { store := u.store, reserved := u.reserved } events).calls,
        World.Leaves t n (World.run host t n { store := u.store, reserved := u.reserved } events) call := by
  intro hall
  obtain ⟨-, hleaves⟩ := hall plainHost (utf16 "t") (utf16 "a") _ twoEmbeddings reached_uniqueInsert
    ⟨by decide, by decide⟩
  have hfails : (embeddedTwice.calls[1]?.map fun call => call.fallsBack &&
      ((loadCollection (utf16 "t") (call.advance (utf16 "t") (utf16 "a") embeddedTwice.store).1
        (utf16 "a")).any fun c => c.embedding.isNone)) = some true := by decide +kernel
  obtain ⟨call, hcall, hfails⟩ := Option.map_eq_some_iff.1 hfails
  obtain ⟨hback, hgone⟩ := Bool.and_eq_true_iff.1 hfails
  obtain ⟨e, seq, before, fault, hrequest, hphase⟩ := Call.fallsBack_iff hback
  have hwithdrawn := (hleaves call (List.mem_of_getElem? hcall)).withdrawn e seq (some before) fault
    hrequest hphase
  obtain ⟨c, hc, hembedding⟩ := Option.map_eq_some_iff.1 hwithdrawn
  rw [show loadCollection (utf16 "t") (call.advance (utf16 "t") (utf16 "a") embeddedTwice.store).1
    (utf16 "a") = some c from hc] at hgone
  rw [Option.any_some, hembedding] at hgone
  cases hgone

/-! ### Checks alone -/

section

variable {host : Host} {t : TenantId} {n : Utf16} {P : Request → Prop} {w : World}

lemma World.requests_next (h : ∀ call ∈ w.calls, P call.request)
    (hevent : ∀ request, event = .call request → P request) :
    ∀ call ∈ (w.next host t n event).calls, P call.request := by
  cases event with
  | reserve => exact h
  | write now ops =>
    have hsame : (w.next host t n (.write now ops)).calls = w.calls := by
      unfold World.next
      dsimp only
      split_ifs
      · split
        · rfl
        · rfl
      · rfl
    rw [hsame]
    exact h
  | call request =>
    intro call hcall
    rcases mem_append.1 hcall with hcall | hcall
    · exact h call hcall
    · rw [mem_singleton.1 hcall]
      exact hevent request rfl
  | advance place =>
    unfold World.next
    dsimp only
    split
    next => exact h
    next call hcall =>
      intro moved hmoved
      rcases mem_or_eq_of_mem_set hmoved with hmoved | rfl
      · exact h moved hmoved
      · exact h call (mem_of_getElem? hcall)

lemma World.requests_run (events : List Event) : ∀ {w : World}, (∀ call ∈ w.calls, P call.request) →
    (∀ request, .call request ∈ events → P request) →
    ∀ call ∈ (w.run host t n events).calls, P call.request := by
  induction events with
  | nil =>
    intro w h _
    exact h
  | cons event events ih =>
    intro w h hevents
    refine ih (World.requests_next h fun request heq => ?_) fun request hrequest => ?_
    · exact hevents request (heq ▸ mem_cons_self)
    · exact hevents request (mem_cons_of_mem event hrequest)

lemma clear_of_adds {events before after : List Event}
    (hcalls : w.calls = []) (hadds : ∀ request, .call request ∈ events → ∃ c, request = .addCheck c)
    (heq : events = before ++ event :: after) : Clear n (w.run host t n before) event := by
  have hrequests : ∀ call ∈ (w.run host t n before).calls, ∃ c, call.request = .addCheck c := by
    refine World.requests_run (P := fun request => ∃ c, request = .addCheck c) before ?_
      fun request hrequest => ?_
    · rw [hcalls]
      intro call hcall
      cases hcall
    · refine hadds request ?_
      rw [heq]
      exact mem_append_left _ hrequest
  cases event with
  | reserve | write | call => trivial
  | advance place =>
    intro call hcall
    obtain ⟨c, hc⟩ := hrequests call (mem_of_getElem? hcall)
    refine ⟨fun name seq hname => ?_, fun e seq he => ?_, fun e seq b q todo documents he => ?_⟩
    · cases hc.symm.trans hname
    · cases hc.symm.trans he
    · cases hc.symm.trans he

end

/-- A check that the document meets, and one of the same name that it does not. -/
def checkOf (text : String) : CheckConstraint where
  name := utf16 text
  filters := [{ path := utf16 "e", value := .string (utf16 text) }]

/-- Both are added, a document is written between, and only the first is met. -/
def twoChecks : List Event :=
  [.call (.addCheck (checkOf "x")), .call (.addCheck (checkOf "y")), .advance 0, .advance 1, .advance 0,
    .advance 1, .advance 0, .advance 1, .write [] [.update (utf16 "a") (utf16 "d")
      [(utf16 "e", .string (utf16 "y"))] .merge none []],
    .advance 1, .advance 0, .advance 1, .advance 0, .advance 0, .advance 1]

def checkedWorld : World :=
  World.run plainHost (utf16 "t") (utf16 "a") { store := uniqueStore } twoChecks

/-- The one that is met is in force and recorded, and the other is not. -/
theorem declared_stays_checks : checkedWorld.checks.map CheckConstraint.name = [utf16 "x"] ∧
      checkedWorld.InForce (utf16 "t") (utf16 "a") ∧
        ∀ call ∈ checkedWorld.calls, checkedWorld.Leaves (utf16 "t") (utf16 "a") call := by
  refine ⟨by decide +kernel, declared_stays reached_uniqueInsert ⟨by decide, by decide⟩ twoChecks
    fun before event after heq => clear_of_adds rfl (fun request hrequest => ?_) heq⟩
  simp only [twoChecks, List.mem_cons, Event.call.injEq, reduceCtorEq, false_or, List.not_mem_nil,
    or_false] at hrequest
  rcases hrequest with rfl | rfl
  · exact ⟨_, rfl⟩
  · exact ⟨_, rfl⟩

end Zelavis.Db.Declarations
