import Zelavis.Edge.Routes
import Zelavis.Edge.SystemStore

/-!
# Compiling publications, over every run

`compile` of `routes.ts` beside route and hostname changes and beside any number of other
compilations, one step of the store at a time.
-/

namespace Zelavis.Edge

open Lib List

/-! ## The system store -/

/-- The namespaces of the system store that are about the edge. -/
structure Store where
  hostnames : OrderedMap Utf16 Hostname := .empty
  routes : OrderedMap Utf16 Route := .empty
  publications : ℕ → Option Publication := fun _ => none
  current : Option (Versioned ℕ) := none

namespace Store

def setPublication (s : Store) (publication : Publication) : Store :=
  { s with publications := fun revision =>
      if revision = publication.revision then some publication else s.publications revision }

def getPublication (s : Store) (revision : ℕ) : Option Publication := s.publications revision

def revision (s : Store) : ℕ := s.current.elim 0 Versioned.value

end Store

/-! ## A compilation -/

/-- What was listed, and how often it had changed before. -/
structure Listing (α : Type) where
  items : List α
  changes : ℕ

/-- A publication, and how often hostnames and routes had changed before they were listed for it. -/
structure Snapshot where
  publication : Publication
  hostnames : ℕ
  routes : ℕ

/-- Where a compilation is. -/
inductive Phase where
  | begun
  | hostnames (hostnames : Listing Hostname)
  | listed (hostnames : Listing Hostname) (routes : Listing Route) (attempt : ℕ)
  | pointed (hostnames : Listing Hostname) (routes : Listing Route) (attempt : ℕ)
      (pointer : Option (Versioned ℕ))
  | stored (hostnames : Listing Hostname) (routes : Listing Route) (attempt : ℕ)
      (pointer : Option (Versioned ℕ)) (publication : Publication)

/-- What a step of a compilation leads to. -/
inductive Progress where
  | going (phase : Phase)
  | returned (snapshot : Snapshot)
  | failed

def ATTEMPTS : ℕ := 5

/-- The number after a number; past `2 ^ 53` numbers stand still. -/
def nextRevision (revision : ℕ) : ℕ := if revision < 2 ^ 53 then revision + 1 else revision

/-- The edge's namespaces, what is under way on them and what came of it. -/
structure Publishing where
  store : Store := {}
  hostnameChanges : ℕ := 0
  routeChanges : ℕ := 0
  compiles : List Phase := []
  published : List Snapshot := []

section

variable (localeCompare : Utf16 → Utf16 → ℤ) (now : ℕ) (compiledAt : Utf16) (e : Publishing)

def nextPublication (hostnames : Listing Hostname) (routes : Listing Route)
    (pointer : Option (Versioned ℕ)) : Publication :=
  compiled (nextRevision (pointer.elim 0 Versioned.value)) compiledAt hostnames.items routes.items

/-- The pointer swung to a revision, if it is still the one that was read. -/
def swing (pointer : Option (Versioned ℕ)) (revision : ℕ) : Option (Versioned ℕ) :=
  match pointer with
  | some pointer => compareAndSet now e.store.current pointer revision
  | none => if e.store.current.isNone then some ⟨revision, now⟩ else none

/-- The next step of a compilation: the store it leaves, and where it is then. Source: `compile`. -/
def advance : Phase → Store × Progress
  | .begun =>
    (e.store, .going (.hostnames ⟨e.store.hostnames.entries.map Prod.snd, e.hostnameChanges⟩))
  | .hostnames hostnames =>
    (e.store, .going (.listed hostnames
      ⟨sortRoutes localeCompare (e.store.routes.entries.map Prod.snd), e.routeChanges⟩ 0))
  | .listed hostnames routes attempt =>
    if attempt < ATTEMPTS then
      (e.store, .going (.pointed hostnames routes attempt e.store.current))
    else (e.store, .failed)
  | .pointed hostnames routes attempt pointer =>
    let publication := nextPublication compiledAt hostnames routes pointer
    (e.store.setPublication publication, .going (.stored hostnames routes attempt pointer publication))
  | .stored hostnames routes attempt pointer publication =>
    match swing now e pointer publication.revision with
    | some current => ({ e.store with current := some current },
        .returned ⟨publication, hostnames.changes, routes.changes⟩)
    | none => (e.store, .going (.listed hostnames routes (attempt + 1)))

end

/-! ## Runs -/

def Publishing.advanced (e : Publishing) (before after : List Phase) : Store × Progress → Publishing
  | (store, .going phase) => { e with store, compiles := before ++ phase :: after }
  | (store, .returned snapshot) =>
    { e with store, compiles := before ++ after, published := e.published ++ [snapshot] }
  | (store, .failed) => { e with store, compiles := before ++ after }

/-- One step of the store, where every step of a compilation meets a condition on the state before
it. -/
inductive Publishing.Step (localeCompare : Utf16 → Utf16 → ℤ) (C : Publishing → Phase → Prop) :
    Publishing → Publishing → Prop where
  | putHostname {e : Publishing} (hostname : Hostname) : Step localeCompare C e { e with
      store := { e.store with hostnames := e.store.hostnames.insert hostname.host hostname }
      hostnameChanges := e.hostnameChanges + 1 }
  | deleteHostname {e : Publishing} (host : Utf16) : Step localeCompare C e { e with
      store := { e.store with hostnames := e.store.hostnames.erase host }
      hostnameChanges := e.hostnameChanges + 1 }
  | putRoute {e : Publishing} (route : Route) : Step localeCompare C e { e with
      store := { e.store with routes := e.store.routes.insert route.id route }
      routeChanges := e.routeChanges + 1 }
  | deleteRoute {e : Publishing} (id : Utf16) : Step localeCompare C e { e with
      store := { e.store with routes := e.store.routes.erase id }
      routeChanges := e.routeChanges + 1 }
  | compile {e : Publishing} : Step localeCompare C e { e with compiles := e.compiles ++ [.begun] }
  | advance {e : Publishing} {before after : List Phase} {phase : Phase} (now : ℕ) (compiledAt : Utf16)
      (hcompiles : e.compiles = before ++ phase :: after) (hC : C e phase) :
      Step localeCompare C e
        (e.advanced before after (Edge.advance localeCompare now compiledAt e phase))

/-- A state that a run leads to from another. -/
inductive Runs (localeCompare : Utf16 → Utf16 → ℤ) (C : Publishing → Phase → Prop) (e : Publishing) :
    Publishing → Prop where
  | refl : Runs localeCompare C e e
  | step {e' e'' : Publishing} (h : Runs localeCompare C e e') (hstep : e'.Step localeCompare C e'') :
    Runs localeCompare C e e''

/-- A publication that reflects no older a state than another. -/
structure Snapshot.NoOlder (s s' : Snapshot) : Prop where
  hostnames : s.hostnames ≤ s'.hostnames
  routes : s.routes ≤ s'.routes

/-- What is claimed of the state a run leads to from another. -/
structure Published (e e' : Publishing) : Prop where
  immutable : ∀ s ∈ e.published, e'.store.getPublication s.publication.revision = some s.publication
  monotone : e.store.revision ≤ e'.store.revision
  kept : ∃ later, e'.published = e.published ++ later
  revisions : e'.published.Pairwise fun s s' => s.publication.revision < s'.publication.revision
  fresh : ∀ s ∈ e'.published, ∀ s' ∈ e'.published,
    s.publication.revision < s'.publication.revision → s.NoOlder s'

/-! ## The invariant -/

/-- What makes a compilation's step harmless: it sets a publication only under a revision beyond the
current one, and it swings the pointer only while its publication is what is set under its revision
and nothing it reflects is older than what the current publication reflects. -/
def Clean (e : Publishing) : Phase → Prop
  | .pointed _ _ _ pointer => e.store.revision < nextRevision (pointer.elim 0 Versioned.value)
  | .stored hostnames routes _ pointer publication => e.store.current = pointer →
    e.store.getPublication publication.revision = some publication ∧
      ∀ s ∈ e.published.getLast?, s.NoOlder ⟨publication, hostnames.changes, routes.changes⟩
  | _ => True

def Phase.Behind (revision : ℕ) : Phase → Prop
  | .pointed _ _ _ pointer => pointer.elim 0 Versioned.value ≤ revision
  | .stored _ _ _ pointer publication => pointer.elim 0 Versioned.value < publication.revision
  | _ => True

/-- What holds of every state a run of harmless steps reaches. -/
structure Publishing.Sound (e : Publishing) : Prop where
  stored : ∀ s ∈ e.published, e.store.getPublication s.publication.revision = some s.publication
  bounded : ∀ s ∈ e.published, s.publication.revision ≤ e.store.revision
  ascending : e.published.Pairwise fun s s' =>
    s.publication.revision < s'.publication.revision ∧ s.NoOlder s'
  behind : ∀ phase ∈ e.compiles, phase.Behind e.store.revision

lemma Snapshot.NoOlder.trans {s s' s'' : Snapshot} (h : s.NoOlder s') (h' : s'.NoOlder s'') :
    s.NoOlder s'' :=
  ⟨h.hostnames.trans h'.hostnames, h.routes.trans h'.routes⟩

variable {phase : Phase}

lemma Phase.Behind.mono {revision revision' : ℕ} (h : phase.Behind revision)
    (hle : revision ≤ revision') : phase.Behind revision' := by
  cases phase with
  | begun | hostnames | listed => trivial
  | pointed hostnames routes attempt pointer => exact Nat.le_trans h hle
  | stored hostnames routes attempt pointer publication => exact h

variable {current : Versioned ℕ}

lemma swing_eq_some {now : ℕ} {e : Publishing} {pointer : Option (Versioned ℕ)} {revision : ℕ}
    (h : swing now e pointer revision = some current) :
    e.store.current = pointer ∧ current.value = revision := by
  unfold swing at h
  cases pointer with
  | some p =>
    obtain ⟨hcurrent, hvalue⟩ := compareAndSet_eq_some h
    exact ⟨hcurrent, hvalue⟩
  | none =>
    split_ifs at h with hnone
    cases h
    exact ⟨Option.isNone_iff_eq_none.1 hnone, rfl⟩

namespace Publishing.Sound

variable {e : Publishing} {before after : List Phase}

lemma of_same (h : e.Sound) {e' : Publishing} (hstore : e'.store.publications = e.store.publications)
    (hcurrent : e'.store.current = e.store.current) (hpublished : e'.published = e.published)
    (hbehind : ∀ phase ∈ e'.compiles, phase ∈ e.compiles ∨ phase.Behind e.store.revision) : e'.Sound := by
  have hrevision : e'.store.revision = e.store.revision := by
    unfold Store.revision
    rw [hcurrent]
  refine ⟨?_, ?_, ?_, ?_⟩
  · rw [hpublished]
    intro s hs
    unfold Store.getPublication
    rw [hstore]
    exact h.stored s hs
  · rw [hpublished, hrevision]
    exact h.bounded
  · rw [hpublished]
    exact h.ascending
  · rw [hrevision]
    exact fun phase hphase => (hbehind phase hphase).elim (h.behind phase) id

lemma going (h : e.Sound) (next : Phase)
    (hcompiles : e.compiles = before ++ phase :: after) (hnext : next.Behind e.store.revision) :
    Publishing.Sound { e with compiles := before ++ next :: after } := by
  refine h.of_same rfl rfl rfl fun p hp => ?_
  rw [hcompiles]
  rcases mem_append.1 hp with hp | hp
  · exact .inl (mem_append_left _ hp)
  · rcases mem_cons.1 hp with rfl | hp
    · exact .inr hnext
    · exact .inl (mem_append_right _ (mem_cons_of_mem _ hp))

lemma ended (h : e.Sound) (hcompiles : e.compiles = before ++ phase :: after) :
    Publishing.Sound { e with compiles := before ++ after } := by
  refine h.of_same rfl rfl rfl fun p hp => .inl ?_
  rw [hcompiles]
  rcases mem_append.1 hp with hp | hp
  · exact mem_append_left _ hp
  · exact mem_append_right _ (mem_cons_of_mem _ hp)

lemma setPublication (h : e.Sound) (publication : Publication)
    (hbeyond : e.store.revision < publication.revision) :
    Publishing.Sound { e with store := e.store.setPublication publication } where
  stored s hs := by
    have hne : s.publication.revision ≠ publication.revision :=
      Nat.ne_of_lt (Nat.lt_of_le_of_lt (h.bounded s hs) hbeyond)
    show (if s.publication.revision = publication.revision then _ else _) = _
    rw [if_neg hne]
    exact h.stored s hs
  bounded := h.bounded
  ascending := h.ascending
  behind := h.behind

/-- The pointer swung to a larger revision, to what is set under it, reflecting nothing older. -/
theorem publish (h : e.Sound) (snapshot : Snapshot)
    (hvalue : current.value = snapshot.publication.revision)
    (hlarger : e.store.revision < snapshot.publication.revision)
    (hset : e.store.getPublication snapshot.publication.revision = some snapshot.publication)
    (hfresh : ∀ s ∈ e.published.getLast?, s.NoOlder snapshot) :
    Publishing.Sound { e with
      store := { e.store with current := some current }, published := e.published ++ [snapshot] } := by
  have hrevision : Store.revision { e.store with current := some current } =
      snapshot.publication.revision := hvalue
  refine ⟨?_, ?_, ?_, ?_⟩
  · intro s hs
    rcases mem_append.1 hs with hs | hs
    · exact h.stored s hs
    · rw [mem_singleton.1 hs]
      exact hset
  · intro s hs
    rw [hrevision]
    rcases mem_append.1 hs with hs | hs
    · exact (h.bounded s hs).trans hlarger.le
    · rw [mem_singleton.1 hs]
  · refine pairwise_append.2 ⟨h.ascending, pairwise_singleton _ _, fun s hs s' hs' => ?_⟩
    rw [mem_singleton.1 hs']
    refine ⟨Nat.lt_of_le_of_lt (h.bounded s hs) hlarger, ?_⟩
    -- the last one is no older than the new one, and every other no older than the last
    obtain ⟨init, last, hsplit⟩ :=
      (eq_nil_or_concat' e.published).resolve_left (ne_nil_of_mem hs)
    have hlast := hfresh last (by simp [hsplit])
    have hpairs := h.ascending
    rw [hsplit] at hs hpairs
    rcases mem_append.1 hs with hs | hs
    · exact ((pairwise_append.1 hpairs).2.2 s hs last (mem_singleton_self _)).2.trans hlast
    · rw [mem_singleton.1 hs]
      exact hlast
  · rw [hrevision]
    exact fun phase hphase => (h.behind phase hphase).mono hlarger.le

end Publishing.Sound

/-! ## Runs of harmless steps -/

section

variable {localeCompare : Utf16 → Utf16 → ℤ} {e e' e'' : Publishing}

/-- A harmless step of a compilation keeps the invariant, and only adds to what was published. -/
theorem Publishing.Sound.advance (h : e.Sound) {before after : List Phase} (now : ℕ)
    (compiledAt : Utf16) (hcompiles : e.compiles = before ++ phase :: after) (hclean : Clean e phase) :
    (e.advanced before after (Edge.advance localeCompare now compiledAt e phase)).Sound ∧ e.store.revision ≤
        (e.advanced before after (Edge.advance localeCompare now compiledAt e phase)).store.revision ∧
      ∃ later, (e.advanced before after (Edge.advance localeCompare now compiledAt e phase)).published =
        e.published ++ later := by
  have hsame : ∀ e' : Publishing, e'.Sound → e'.store.current = e.store.current →
      e'.published = e.published → e'.Sound ∧ e.store.revision ≤ e'.store.revision ∧
        ∃ later, e'.published = e.published ++ later := by
    intro e' he' hcurrent hpublished
    refine ⟨he', ?_, [], by rw [hpublished, append_nil]⟩
    unfold Store.revision
    rw [hcurrent]
  have hphase : phase.Behind e.store.revision :=
    h.behind phase (by rw [hcompiles]; simp)
  cases phase with
  | begun => exact hsame _ (h.going (.hostnames _) hcompiles trivial) rfl rfl
  | hostnames hostnames => exact hsame _ (h.going (.listed _ _ _) hcompiles trivial) rfl rfl
  | listed hostnames routes attempt =>
    unfold Edge.advance
    dsimp only
    split_ifs
    · exact hsame _ (h.going (.pointed _ _ _ _) hcompiles (Nat.le_refl _)) rfl rfl
    · exact hsame _ (h.ended hcompiles) rfl rfl
  | pointed hostnames routes attempt pointer =>
    have hset := h.setPublication (nextPublication compiledAt hostnames routes pointer) hclean
    exact hsame _ (hset.going (.stored _ _ _ _ _) hcompiles (Nat.lt_of_le_of_lt hphase hclean)) rfl rfl
  | stored hostnames routes attempt pointer publication =>
    unfold Edge.advance
    dsimp only
    cases hswing : swing now e pointer publication.revision with
    | none => exact hsame _ (h.going (.listed _ _ _) hcompiles trivial) rfl rfl
    | some current =>
      obtain ⟨hpointer, hvalue⟩ := swing_eq_some hswing
      obtain ⟨hset, hfresh⟩ := hclean hpointer
      have hlarger : e.store.revision < publication.revision := by
        unfold Store.revision
        rw [hpointer]
        exact hphase
      have hpublish := (h.ended hcompiles).publish
        ⟨publication, hostnames.changes, routes.changes⟩ hvalue hlarger hset hfresh
      refine ⟨hpublish, ?_, [_], rfl⟩
      show e.store.revision ≤ current.value
      rw [hvalue]
      exact hlarger.le

lemma Publishing.Sound.step (h : e.Sound) (hstep : e.Step localeCompare Clean e') :
    e'.Sound ∧ e.store.revision ≤ e'.store.revision ∧ ∃ later, e'.published = e.published ++ later := by
  have hrefl : ∃ later, e.published = e.published ++ later := ⟨[], (append_nil _).symm⟩
  cases hstep with
  | putHostname | deleteHostname =>
    exact ⟨h.of_same rfl rfl rfl fun _ => .inl, Nat.le_refl _, hrefl⟩
  | putRoute | deleteRoute => exact ⟨h.of_same rfl rfl rfl fun _ => .inl, Nat.le_refl _, hrefl⟩
  | compile =>
    refine ⟨h.of_same rfl rfl rfl fun phase hphase => ?_, Nat.le_refl _, hrefl⟩
    rcases mem_append.1 hphase with hphase | hphase
    · exact .inl hphase
    · rw [mem_singleton.1 hphase]
      exact .inr trivial
  | advance now compiledAt hcompiles hclean => exact h.advance now compiledAt hcompiles hclean

lemma Publishing.Sound.runs (h : e.Sound) (hruns : Runs localeCompare Clean e e') :
    e'.Sound ∧ e.store.revision ≤ e'.store.revision ∧ ∃ later, e'.published = e.published ++ later := by
  induction hruns with
  | refl => exact ⟨h, Nat.le_refl _, [], (append_nil _).symm⟩
  | step _ hstep ih =>
    obtain ⟨hsound, hle, later, hlater⟩ := ih
    obtain ⟨hsound', hle', later', hlater'⟩ := hsound.step hstep
    refine ⟨hsound', hle.trans hle', later ++ later', ?_⟩
    rw [hlater', hlater, append_assoc]

lemma sound_start : Publishing.Sound {} where
  stored _ hs := absurd hs not_mem_nil
  bounded _ hs := absurd hs not_mem_nil
  ascending := List.Pairwise.nil
  behind _ hphase := absurd hphase not_mem_nil

/-- In every run of harmless steps, what was published stays as it was, the current revision never
decreases, and publications have revisions that ascend with the states they reflect. -/
theorem runs_published (h : Runs localeCompare Clean {} e) (h' : Runs localeCompare Clean e e') :
    Published e e' := by
  obtain ⟨hsound, -, -⟩ := sound_start.runs h
  obtain ⟨hsound', hle, later, hlater⟩ := hsound.runs h'
  refine ⟨fun s hs => hsound'.stored s ?_, hle, ⟨later, hlater⟩,
    hsound'.ascending.imp fun hpair => hpair.1, ?_⟩
  · rw [hlater]
    exact List.mem_append_left _ hs
  · -- of two with different revisions, the one with the larger comes later
    have hpairs := hsound'.ascending
    generalize e'.published = published at hpairs
    induction published with
    | nil => exact fun s hs => absurd hs List.not_mem_nil
    | cons first rest ih =>
      obtain ⟨hfirst, hrest⟩ := List.pairwise_cons.1 hpairs
      intro s hs s' hs' hlt
      rcases List.mem_cons.1 hs with heq | hmem
      · rcases List.mem_cons.1 hs' with heq' | hmem'
        · rw [heq, heq'] at hlt
          exact absurd hlt (Nat.lt_irrefl _)
        · rw [heq]
          exact (hfirst s' hmem').2
      · rcases List.mem_cons.1 hs' with heq' | hmem'
        · rw [heq'] at hlt
          exact absurd (hfirst s hmem).1 (Nat.not_lt.2 hlt.le)
        · exact ih hrest s hmem s' hmem' hlt

end

/-! ## Schedules -/

section

variable (localeCompare : Utf16 → Utf16 → ℤ)

def Publishing.turn (e : Publishing) (now : ℕ) (compiledAt : Utf16) (place : ℕ) : Publishing :=
  match e.compiles.drop place with
  | phase :: after =>
    e.advanced (e.compiles.take place) after (Edge.advance localeCompare now compiledAt e phase)
  | [] => e

def Publishing.turns (e : Publishing) (now : ℕ) (compiledAt : Utf16) (places : List ℕ) : Publishing :=
  places.foldl (fun e place => e.turn localeCompare now compiledAt place) e

variable {localeCompare} {C : Publishing → Phase → Prop} {e e' : Publishing}

lemma Runs.turn (h : Runs localeCompare C e e') (now : ℕ) (compiledAt : Utf16) (place : ℕ)
    (hC : ∀ phase ∈ (e'.compiles.drop place).head?, C e' phase) :
    Runs localeCompare C e (e'.turn localeCompare now compiledAt place) := by
  unfold Publishing.turn
  cases hdrop : e'.compiles.drop place with
  | nil => exact h
  | cons phase after =>
    refine h.step (.advance now compiledAt ?_ (hC phase (by rw [hdrop]; rfl)))
    rw [← hdrop, take_append_drop]

lemma Runs.turns (h : Runs localeCompare (fun _ _ => True) e e') (now : ℕ) (compiledAt : Utf16)
    (places : List ℕ) :
    Runs localeCompare (fun _ _ => True) e (e'.turns localeCompare now compiledAt places) := by
  induction places generalizing e' with
  | nil => exact h
  | cons place places ih => exact ih (h.turn now compiledAt place fun _ _ => trivial)

end

def noIds : Utf16 → Utf16 → ℤ := fun _ _ => 0

/-- Two compilations read the pointer; the first sets its publication and swings the pointer. -/
def firstPublished : Publishing :=
  ({ compiles := [.begun, .begun] } : Publishing).turns noIds 0 (utf16 "1") [0, 0, 0, 1, 1, 1, 0, 0]

/-- The second, which read the pointer before, sets its publication under the same revision. -/
def overwritten : Publishing := firstPublished.turn noIds 0 (utf16 "2") 0

/-- Two compilations side by side: the one that loses the race has overwritten what the other
published. -/
theorem not_runs_published : ¬∀ (localeCompare : Utf16 → Utf16 → ℤ) (e e' : Publishing),
    Runs localeCompare (fun _ _ => True) {} e → Runs localeCompare (fun _ _ => True) e e' →
    Published e e' := by
  intro hall
  have hbegun : Runs noIds (fun _ _ => True) {} { compiles := [.begun, .begun] } :=
    .step (.step .refl .compile) .compile
  have hfirst : Runs noIds (fun _ _ => True) {} firstPublished := hbegun.turns 0 _ _
  have hsecond : Runs noIds (fun _ _ => True) firstPublished overwritten :=
    Runs.turn .refl 0 _ 0 fun _ _ => trivial
  have hread : ∃ s ∈ firstPublished.published,
      overwritten.store.getPublication s.publication.revision ≠ some s.publication := by
    decide +kernel
  obtain ⟨s, hs, hne⟩ := hread
  exact hne ((hall noIds firstPublished overwritten hfirst hsecond).immutable s hs)

def compiledOnce : Publishing :=
  ({ compiles := [.begun] } : Publishing).turns noIds 0 (utf16 "1") [0, 0, 0, 0, 0]

theorem runs_published_once : compiledOnce.store.revision = 1 ∧ Published compiledOnce compiledOnce := by
  refine ⟨by decide, @runs_published noIds _ _ ?_ .refl⟩
  have hbegun : Runs noIds Clean {} { compiles := [.begun] } := .step .refl .compile
  have hlisted := ((hbegun.turn 0 (utf16 "1") 0 (by rintro phase ⟨⟩; trivial)).turn 0 (utf16 "1") 0
    (by rintro phase ⟨⟩; trivial)).turn 0 (utf16 "1") 0 (by rintro phase ⟨⟩; trivial)
  have hstored := hlisted.turn 0 (utf16 "1") 0 (by
    rintro phase ⟨⟩
    show 0 < nextRevision 0
    decide)
  exact hstored.turn 0 (utf16 "1") 0 (by
    rintro phase ⟨⟩
    exact fun _ => ⟨rfl, by rintro s ⟨⟩⟩)

end Zelavis.Edge
