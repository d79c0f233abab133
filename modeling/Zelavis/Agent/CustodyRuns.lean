import Zelavis.Agent.Custody

/-!
# Custody over any order of events

What every order of requests, answers, lines, exits and disconnects leaves of the table of processes, and
what a client that stays connected hears of a process it was told of.
-/

namespace Zelavis.Agent.Custody

open Lib PlacementLease List Option

/-! ## What a connection holds of a process -/

def Message.about (p : ℕ) : Message → Bool
  | .started _ q => q = p
  | .attached _ processes => processes.any (·.processId = p)
  | .output q _ => q = p
  | .exit q _ => q = p
  | _ => false

def Message.isReport : Message → Bool
  | .output _ _ => true
  | .exit _ _ => true
  | _ => false

def Answer.about (p : ℕ) : Answer → Bool
  | .started q => q = p
  | .attached processes => processes.any (·.processId = p)

/-- What a connection holds of a process. -/
structure Link where
  queue : List Message
  answered : List Answer
  listener : Option Bool
  handle : Option Handle

def Connection.link (k : Connection) (p : ℕ) : Link where
  queue := k.toClient.filter (Message.about p)
  answered := k.client.answered.filter (Answer.about p)
  listener := k.client.listeners p
  handle := k.client.handles p

def reports (p : ℕ) (lines : List Output) (exits : List Exit) : List Message :=
  lines.map (.output p) ++ exits.map (.exit p)

/-- It holds nothing. -/
structure Blank (l : Link) : Prop where
  queue : l.queue = []
  answered : l.answered = []
  listener : l.listener = none
  handle : l.handle = none

/-- How the connection that started a process follows its child. -/
inductive Follows (p : ℕ) (child : Child) (l : Link) : Prop where
  | unheard (id : ℕ) (queue : l.queue = .started id p :: reports p child.lines child.exit.toList)
      (answered : l.answered = []) (listener : l.listener = none) (handle : l.handle = none)
  | told (queue : l.queue = reports p child.lines child.exit.toList) (answered : l.answered = [.started p])
      (listener : l.listener = none) (handle : l.handle = none)
  | tracked (h : Handle) (lines : List Output) (exits : List Exit) (queue : l.queue = reports p lines exits)
      (answered : l.answered = []) (handle : l.handle = some h) (received : h.received ++ lines = child.lines)
      (settled : h.settled ++ exits = child.exit.toList) (listener : h.settled = [] → l.listener = some true)
      (last : h.settled ≠ [] → lines = [])
  | untold (queue : ∀ m ∈ l.queue, m.isReport = true) (answered : l.answered = []) (listener : l.listener = none)
      (handle : l.handle = none)

def Connection.IsOpen (k : Connection) : Prop := k.destroyed = false ∧ k.closed = false

/-- What holds of the connections of a process. -/
structure Linked (w : World) (p : ℕ) : Prop where
  childless : w.children p = none → ∀ {c : ℕ} {k : Connection}, w.connections[c]? = some k → k.IsOpen → Blank (k.link p)
  unrecorded : ∀ {child : Child} {k : Connection}, w.children p = some child → child.recorded = false →
    w.connections[child.socket]? = some k → k.IsOpen → Blank (k.link p)
  follows : ∀ {child : Child} {k : Connection}, w.children p = some child → child.recorded = true →
    w.connections[child.socket]? = some k → k.IsOpen → Follows p child (k.link p)
  driven : ∀ {child : Child} {k : Connection}, w.children p = some child → child.recorded = true →
    child.exit = none → w.connections[child.socket]? = some k → k.IsOpen → ∃ entry, w.table p = some entry ∧ entry.socket = child.socket

/-! ## The invariant -/

def Handler.starts : Handler → Option ℕ
  | .leasing _ _ p _ => some p
  | .starting _ _ p _ _ => some p
  | _ => none

def Handler.IsStarting (c : ℕ) : Handler → Prop
  | .starting c' _ _ _ _ => c' = c
  | _ => False

def Handler.starter : Handler → ℕ
  | .leasing c _ _ _ => c
  | .starting c _ _ _ _ => c
  | _ => 0

/-- What holds of a process, with the handlers there are. -/
structure Good (hs : List Handler) (w : World) (p : ℕ) : Prop where
  fresh : w.nextProcessId < p → w.children p = none ∧ ∀ h ∈ hs, h.starts ≠ some p
  starting : ∀ h ∈ hs, h.starts = some p → h.starter < w.connections.length ∧ w.table p = none ∧
    ∀ child, w.children p = some child → child.recorded = false ∧ child.exit = none ∧ child.lines = [] ∧
      h.IsStarting child.socket
  entry : ∀ entry, w.table p = some entry → ∃ child, w.children p = some child ∧ child.recorded = true ∧
    child.exit = none
  socket : ∀ child, w.children p = some child → child.socket < w.connections.length
  alive : ∀ child, w.children p = some child → child.exit = none →
    (w.table p).isSome ∨ (∃ h ∈ hs, h.starts = some p) ∨ child.stopAsked = true
  linked : Linked w p

/-- The invariant. -/
structure Inv (hs : List Handler) (w : World) : Prop where
  nodup : (hs.filterMap Handler.starts).Nodup
  good : ∀ p, Good hs w p

/-! ## What leaves a process as it is -/

def Frame (p : ℕ) (w w' : World) : Prop :=
  ∀ (c : ℕ) (k' : Connection), w'.connections[c]? = some k' → k'.IsOpen →
    ∃ k : Connection, w.connections[c]? = some k ∧ k.IsOpen ∧ k'.link p = k.link p

lemma Frame.refl (p : ℕ) (w : World) : Frame p w w := fun _ k h ho => ⟨k, h, ho, rfl⟩

lemma Frame.trans {p : ℕ} {w₁ w₂ w₃ : World} (h : Frame p w₁ w₂) (h' : Frame p w₂ w₃) : Frame p w₁ w₃ := by
  intro c k₃ hk₃ ho₃
  obtain ⟨k₂, hk₂, ho₂, hlink⟩ := h' c k₃ hk₃ ho₃
  obtain ⟨k₁, hk₁, ho₁, hlink'⟩ := h c k₂ hk₂ ho₂
  exact ⟨k₁, hk₁, ho₁, hlink.trans hlink'⟩

variable {hs hs' : List Handler} {w w' : World} {p : ℕ}

lemma Linked.frame (h : Linked w p) (htable : w'.table p = w.table p) (hchild : w'.children p = w.children p)
    (hframe : Frame p w w') : Linked w' p where
  childless hnone {c k} hk ho := by
    obtain ⟨k', hk', ho', hlink⟩ := hframe c k hk ho
    exact hlink ▸ h.childless (hchild ▸ hnone) hk' ho'
  unrecorded {child k} hsome hrec hk ho := by
    obtain ⟨k', hk', ho', hlink⟩ := hframe _ k hk ho
    exact hlink ▸ h.unrecorded (hchild ▸ hsome) hrec hk' ho'
  follows {child k} hsome hrec hk ho := by
    obtain ⟨k', hk', ho', hlink⟩ := hframe _ k hk ho
    exact hlink ▸ h.follows (hchild ▸ hsome) hrec hk' ho'
  driven {child k} hsome hrec hexit hk ho := by
    obtain ⟨k', hk', ho', -⟩ := hframe _ k hk ho
    rw [htable]
    exact h.driven (hchild ▸ hsome) hrec hexit hk' ho'

lemma Good.frame (h : Good hs w p) (htable : w'.table p = w.table p) (hchild : w'.children p = w.children p)
    (hnext : w.nextProcessId ≤ w'.nextProcessId) (hlength : w.connections.length ≤ w'.connections.length)
    (hhs : ∀ h, h.starts = some p → (h ∈ hs' ↔ h ∈ hs)) (hframe : Frame p w w') : Good hs' w' p where
  fresh hp := by
    obtain ⟨hnone, hnot⟩ := h.fresh (lt_of_le_of_lt hnext hp)
    exact ⟨hchild ▸ hnone, fun g hg hstarts => hnot g ((hhs g hstarts).1 hg) hstarts⟩
  starting g hg hstarts := by
    obtain ⟨hlt, hnone, hrest⟩ := h.starting g ((hhs g hstarts).1 hg) hstarts
    exact ⟨lt_of_lt_of_le hlt hlength, htable ▸ hnone, fun child hsome => hrest child (hchild ▸ hsome)⟩
  entry e he := hchild ▸ h.entry e (htable ▸ he)
  socket child hsome := lt_of_lt_of_le (h.socket child (hchild ▸ hsome)) hlength
  alive child hsome hexit := by
    rcases h.alive child (hchild ▸ hsome) hexit with hin | ⟨g, hg, hstarts⟩ | hstop
    · exact .inl (htable ▸ hin)
    · exact .inr (.inl ⟨g, (hhs g hstarts).2 hg, hstarts⟩)
    · exact .inr (.inr hstop)
  linked := h.linked.frame htable hchild hframe

/-! ## One connection -/

variable {c : ℕ} {f : Connection → Connection}

variable {m : Message}

lemma Inv.perm (h : Inv hs w) (hperm : hs.Perm hs') : Inv hs' w where
  nodup := ((hperm.filterMap Handler.starts).nodup_iff).1 h.nodup
  good p := (h.good p).frame rfl rfl (le_refl _) (le_refl _) (fun _ _ => hperm.symm.mem_iff) (Frame.refl p w)

variable {g : Handler} {i : ℕ}

variable {command : Command}

variable {l : Link}

lemma Follows.congr {child child' : Child} (h : Follows p child l) (hlines : child'.lines = child.lines)
    (hexit : child'.exit = child.exit) : Follows p child' l := by
  cases h with
  | unheard id queue answered listener handle =>
    exact .unheard id (by rw [hlines, hexit]; exact queue) answered listener handle
  | told queue answered listener handle =>
    exact .told (by rw [hlines, hexit]; exact queue) answered listener handle
  | tracked g lines exits queue answered handle received settled listener last =>
    exact .tracked g lines exits queue answered handle (by rw [hlines]; exact received)
      (by rw [hexit]; exact settled) listener last
  | untold queue answered listener handle => exact .untold queue answered listener handle

def World.Left (w : World) (p : ℕ) : Prop :=
  ∀ (child : Child) (k : Connection), w.children p = some child → w.connections[child.socket]? = some k → ¬k.IsOpen

variable {entry : Entry}

variable {child : Child}

variable {q : ℕ}

lemma mem_entries (h : (q, entry) ∈ w.entries) : w.table q = some entry := by
  obtain ⟨q', -, hmap⟩ := mem_filterMap.1 h
  obtain ⟨e, he, heq⟩ := map_eq_some_iff.1 hmap
  cases heq
  exact he

variable {isProjectWorkload : Utf16 → Bool}

lemma isReport_of_mem_reports {lines : List Output} {exits : List Exit} (h : m ∈ reports p lines exits) :
    m.isReport = true := by
  rcases mem_append.1 h with h | h
  · obtain ⟨output, -, rfl⟩ := List.mem_map.1 h
    rfl
  · obtain ⟨exit, -, rfl⟩ := List.mem_map.1 h
    rfl

lemma reports_append (p : ℕ) (lines : List Output) (output : Output) :
    reports p (lines ++ [output]) [] = reports p lines [] ++ [.output p output] := by
  simp [reports]

lemma reports_exit (p : ℕ) (lines : List Output) (exit : Exit) :
    reports p lines [exit] = reports p lines [] ++ [.exit p exit] := by
  simp [reports]

lemma Follows.output (h : Follows p child l) (hexit : child.exit = none)
    (output : Output) : Follows p { child with lines := child.lines ++ [output] }
      { l with queue := l.queue ++ [.output p output] } := by
  cases h with
  | unheard id queue answered listener handle =>
    refine .unheard id ?_ answered listener handle
    rw [queue, hexit, toList_none, reports_append]
    rfl
  | told queue answered listener handle =>
    refine .told ?_ answered listener handle
    rw [queue, hexit, toList_none, reports_append]
  | tracked g lines exits queue answered handle received settled listener last =>
    rw [hexit, toList_none, append_eq_nil_iff] at settled
    obtain ⟨hsettled, rfl⟩ := settled
    refine .tracked g (lines ++ [output]) [] ?_ answered handle ?_ ?_ listener fun hne => absurd hsettled hne
    · dsimp only
      rw [queue, reports_append]
    · dsimp only
      rw [← received, append_assoc]
    · dsimp only
      rw [hsettled, hexit]
      rfl
  | untold queue answered listener handle =>
    refine .untold (fun m hm => ?_) answered listener handle
    rcases mem_append.1 hm with hm | hm
    · exact queue m hm
    · cases mem_singleton.1 hm
      rfl

lemma Follows.exits (h : Follows p child l) (hexit : child.exit = none)
    (exit : Exit) : Follows p { child with exit := some exit } { l with queue := l.queue ++ [.exit p exit] } := by
  cases h with
  | unheard id queue answered listener handle =>
    refine .unheard id ?_ answered listener handle
    rw [queue, hexit, toList_none, toList_some, reports_exit]
    rfl
  | told queue answered listener handle =>
    refine .told ?_ answered listener handle
    rw [queue, hexit, toList_none, toList_some, reports_exit]
  | tracked g lines exits queue answered handle received settled listener last =>
    rw [hexit, toList_none, append_eq_nil_iff] at settled
    obtain ⟨hsettled, rfl⟩ := settled
    refine .tracked g lines [exit] ?_ answered handle received ?_ listener fun hne => absurd hsettled hne
    · dsimp only
      rw [queue, reports_exit]
    · dsimp only
      rw [hsettled]
      rfl
  | untold queue answered listener handle =>
    refine .untold (fun m hm => ?_) answered listener handle
    rcases mem_append.1 hm with hm | hm
    · exact queue m hm
    · cases mem_singleton.1 hm
      rfl

lemma answer_listeners (k : Client) (id : ℕ) (answered : List Answer) :
    (k.answer id answered).listeners = k.listeners ∧ (k.answer id answered).handles = k.handles := by
  unfold Client.answer
  split
  · exact ⟨rfl, rfl⟩
  · exact ⟨rfl, rfl⟩

lemma answer_answered (k : Client) (id : ℕ) (answered : List Answer) :
    (k.answer id answered).answered = k.answered ∨ (k.answer id answered).answered = k.answered ++ answered := by
  unfold Client.answer
  split
  · exact .inl rfl
  · exact .inr rfl

variable {k : Connection} {rest : List Message}

lemma toList_le_one (exit : Option Exit) : exit.toList.length ≤ 1 := by
  cases exit with
  | none => exact Nat.zero_le _
  | some exit => exact le_refl _

lemma Follows.receives
    (h : Follows p child (k.link p)) (hqueue : k.toClient = m :: rest) (habout : m.about p = true)
    (hready : m.isReport = true → ∀ a ∈ k.client.answered, a.about p = false) :
    Follows p child (({ k with toClient := rest, client := onMessage k.client m } : Connection).link p) := by
  have hhead : (k.link p).queue = m :: rest.filter (Message.about p) := by
    show k.toClient.filter (Message.about p) = _
    rw [hqueue, filter_cons_of_pos habout]
  cases h with
  | unheard id queue answered listener handle =>
    obtain ⟨rfl, hrest⟩ := List.cons.inj (hhead.symm.trans queue)
    obtain ⟨hlisteners, hhandles⟩ := answer_listeners k.client id [.started p]
    have hlistener : (k.client.answer id [.started p]).listeners p = none := by rw [hlisteners]; exact listener
    have hhandle : (k.client.answer id [.started p]).handles p = none := by rw [hhandles]; exact handle
    rcases answer_answered k.client id [.started p] with hsame | hmore
    · refine .untold (fun m hm => ?_) ?_ hlistener hhandle
      · replace hm : m ∈ rest.filter (Message.about p) := hm
        rw [hrest] at hm
        exact isReport_of_mem_reports hm
      · show (k.client.answer id [.started p]).answered.filter (Answer.about p) = []
        rw [hsame]
        exact answered
    · refine .told hrest ?_ hlistener hhandle
      show (k.client.answer id [.started p]).answered.filter (Answer.about p) = [.started p]
      have hself : Answer.about p (.started p) = true := decide_eq_true rfl
      rw [hmore, filter_append, show k.client.answered.filter (Answer.about p) = [] from answered,
        filter_cons_of_pos hself]
      rfl
  | told queue answered listener handle =>
    -- A report of it comes only after its caller has gone on.
    have hreport : m.isReport = true := by
      have hmem : m ∈ reports p child.lines child.exit.toList := by
        rw [← queue, hhead]
        exact mem_cons_self
      exact isReport_of_mem_reports hmem
    have hmem : Answer.started p ∈ k.client.answered := by
      refine mem_of_mem_filter (p := Answer.about p) ?_
      rw [show k.client.answered.filter (Answer.about p) = [.started p] from answered]
      exact mem_cons_self
    exact absurd (decide_eq_true rfl) (by rw [show decide (p = p) = false from hready hreport _ hmem]; simp)
  | tracked g lines exits queue answered handle received settled listener last =>
    rw [hhead] at queue
    cases lines with
    | cons output lines =>
      obtain ⟨rfl, hrest⟩ := List.cons.inj queue
      have hsettled : g.settled = [] := by
        by_contra hne
        cases last hne
      have hlistens : k.client.listeners p = some true := listener hsettled
      have hclient : onMessage k.client (.output p output) =
          k.client.onHandle p fun h => { h with received := h.received ++ [output] } := by
        unfold onMessage
        dsimp only
        rw [hlistens]
      rw [hclient]
      refine .tracked { g with received := g.received ++ [output] } lines exits hrest answered ?_ ?_ settled
        (fun _ => hlistens) fun hne => absurd hsettled hne
      · show (Function.update k.client.handles p _) p = _
        rw [Function.update_self, show k.client.handles p = some g from handle]
        rfl
      · dsimp only
        rw [append_assoc]
        exact received
    | nil =>
      cases exits with
      | nil => cases queue
      | cons exit exits =>
        obtain ⟨rfl, hrest⟩ := List.cons.inj queue
        have hlength : (g.settled ++ exit :: exits).length ≤ 1 := settled ▸ toList_le_one child.exit
        have hsettled : g.settled = [] := by
          rw [← length_eq_zero_iff]
          rw [length_append, length_cons] at hlength
          omega
        have hexits : exits = [] := by
          rw [← length_eq_zero_iff]
          rw [length_append, length_cons] at hlength
          omega
        subst hexits
        have hclient : onMessage k.client (.exit p exit) =
            (k.client.setListener p none).onHandle p (Handle.settle exit) := by
          unfold onMessage
          dsimp only
          rw [show k.client.listeners p = some true from listener hsettled]
        rw [hclient]
        refine .tracked { g with settled := [exit] } [] [] hrest answered ?_ received ?_ (fun hnil => ?_) fun _ => rfl
        · show (Function.update k.client.handles p _) p = _
          rw [Function.update_self]
          show (k.client.handles p).map _ = _
          rw [show k.client.handles p = some g from handle, map_some, Handle.settle, if_pos hsettled]
        · rw [hsettled] at settled
          exact settled
        · cases hnil
  | untold queue answered listener handle =>
    have hreport := queue m (by rw [hhead]; exact mem_cons_self)
    have hclient : onMessage k.client m = k.client := by
      cases m with
      | output | exit =>
        cases of_decide_eq_true habout
        unfold onMessage
        dsimp only
        rw [show k.client.listeners p = none from listener]
      | started | attached | stopped | reclaimed | failed => cases hreport
    rw [hclient]
    exact .untold (fun m' hm' => queue m' (by rw [hhead]; exact mem_cons_of_mem _ hm')) answered listener handle

lemma filter_eraseIdx_single {α : Type} {P : α → Bool} {l : List α} {a b : α} (h : l[i]? = some a)
    (ha : P a = true) (hsingle : l.filter P = [b]) : a = b ∧ (l.eraseIdx i).filter P = [] := by
  obtain ⟨hi, rfl⟩ := List.getElem?_eq_some_iff.1 h
  have hperm := (getElem_cons_eraseIdx_perm hi).filter P
  rw [hsingle, filter_cons_of_pos ha, perm_singleton] at hperm
  exact List.cons.inj hperm

variable {a : Answer}

lemma Follows.answer (h : Follows p child (k.link p))
    (ha : k.client.answered[i]? = some a) (habout : a.about p = true) :
    a = .started p ∧ (k.link p).queue = reports p child.lines child.exit.toList ∧
      (k.client.answered.eraseIdx i).filter (Answer.about p) = [] ∧ (k.link p).listener = none ∧
      (k.link p).handle = none := by
  have hmem : a ∈ k.client.answered.filter (Answer.about p) :=
    mem_filter.2 ⟨mem_of_getElem? ha, habout⟩
  have hne : k.client.answered.filter (Answer.about p) ≠ [] := ne_nil_of_mem hmem
  cases h with
  | told queue answered listener handle =>
    obtain ⟨rfl, hrest⟩ := filter_eraseIdx_single ha habout answered
    exact ⟨rfl, queue, hrest, listener, handle⟩
  | unheard _ _ answered | tracked _ _ _ _ answered | untold _ answered => exact absurd answered hne

def Message.reported : Message → Option ℕ
  | .output p _ => some p
  | .exit p _ => some p
  | _ => none

/-- A runner reports an exit only once the server has gone on with the start of the child, and no line after it;
a client takes a report only once its caller has gone on with the answer that is about the process. -/
def Timely (w : World) : Event → Prop
  | .exits p _ => ∀ g ∈ w.handlers, g.starts ≠ some p
  | .outputs p _ => ∀ child ∈ w.children p, child.exit = none
  | .receives c => ∀ k ∈ w.connections[c]?, ∀ m ∈ k.toClient.head?, ∀ p ∈ m.reported,
      ∀ a ∈ k.client.answered, a.about p = false
  | _ => True

instance instDecidableTimely (w : World) : (e : Event) → Decidable (Timely w e)
  | .exits p _ => inferInstanceAs (Decidable (∀ g ∈ w.handlers, g.starts ≠ some p))
  | .outputs p _ => inferInstanceAs (Decidable (∀ child ∈ w.children p, child.exit = none))
  | .receives c => inferInstanceAs (Decidable (∀ k ∈ w.connections[c]?, ∀ m ∈ k.toClient.head?, ∀ p ∈ m.reported,
      ∀ a ∈ k.client.answered, a.about p = false))
  | .connects => inferInstanceAs (Decidable True)
  | .asks _ _ => inferInstanceAs (Decidable True)
  | .handles _ => inferInstanceAs (Decidable True)
  | .spawns _ => inferInstanceAs (Decidable True)
  | .resumes _ _ => inferInstanceAs (Decidable True)
  | .fences _ => inferInstanceAs (Decidable True)
  | .goesOn _ _ => inferInstanceAs (Decidable True)
  | .leaves _ _ => inferInstanceAs (Decidable True)
  | .givesUp _ _ => inferInstanceAs (Decidable True)
  | .listens _ _ => inferInstanceAs (Decidable True)
  | .closes _ => inferInstanceAs (Decidable True)
  | .destroys _ => inferInstanceAs (Decidable True)

instance instDecidableEvery (isProjectWorkload : Utf16 → Bool) :
    (w : World) → (events : List Event) → Decidable (Every isProjectWorkload Timely w events)
  | _, [] => inferInstanceAs (Decidable True)
  | w, e :: events =>
    have : ∀ w', Decidable (Every isProjectWorkload Timely w' events) :=
      fun w' => instDecidableEvery isProjectWorkload w' events
    inferInstanceAs (Decidable (Timely w e ∧ ∀ w' ∈ step isProjectWorkload w e,
      Every isProjectWorkload Timely w' events))

/-- What custody comes to. -/
structure Kept (w : World) : Prop where
  gone : ∀ p child exit, w.children p = some child → child.exit = some exit → w.table p = none
  present : ∀ p child, w.children p = some child → child.exit = none → child.stopAsked = false →
    (∀ g ∈ w.handlers, g.starts ≠ some p) → (w.table p).isSome
  /-- The client that was told of a start and is still connected has got the first lines in order and settled
  with nothing but the exit, and what it has not got is on its way; it settles after the last line. -/
  heard : ∀ (p : ℕ) (child : Child) (k : Connection) (h : Handle), w.children p = some child →
    w.connections[child.socket]? = some k → k.IsOpen → k.client.handles p = some h →
    ∃ lines exits, k.toClient.filter (Message.about p) = reports p lines exits ∧
      h.received ++ lines = child.lines ∧ h.settled ++ exits = child.exit.toList ∧ (h.settled ≠ [] → lines = [])

/-- With nothing on its way it has got every line, and settled exactly once with the exit, if there was one. -/
theorem Kept.settled (h : Kept w) {g : Handle} (hchild : w.children p = some child)
    (hk : w.connections[child.socket]? = some k) (ho : k.IsOpen) (hhandle : k.client.handles p = some g)
    (hempty : k.toClient = []) : g.received = child.lines ∧ g.settled = child.exit.toList := by
  obtain ⟨lines, exits, hqueue, hreceived, hsettled, -⟩ := h.heard p child k g hchild hk ho hhandle
  rw [hempty] at hqueue
  obtain ⟨hlines, hexits⟩ := append_eq_nil_iff.1 (show reports p lines exits = [] from hqueue.symm)
  rw [map_eq_nil_iff] at hlines hexits
  subst hlines hexits
  rw [append_nil] at hreceived hsettled
  exact ⟨hreceived, hsettled⟩

lemma Inv.kept (h : Inv w.handlers w) : Kept w where
  gone p child exit hchild hexit := by
    by_contra hsome
    obtain ⟨e, he⟩ := ne_none_iff_exists'.1 hsome
    obtain ⟨child', hchild', -, hlives⟩ := (h.good p).entry e he
    cases hchild.symm.trans hchild'
    rw [hexit] at hlives
    cases hlives
  present p child hchild hexit hstop hstarts := by
    rcases (h.good p).alive child hchild hexit with hin | ⟨g, hg, hs⟩ | hasked
    · exact hin
    · exact absurd hs (hstarts g hg)
    · rw [hstop] at hasked
      cases hasked
  heard p child k g hchild hk ho hhandle := by
    cases hrec : child.recorded with
    | false =>
      have hblank := (h.good p).linked.unrecorded hchild hrec hk ho
      rw [show k.client.handles p = none from hblank.handle] at hhandle
      cases hhandle
    | true =>
      cases (h.good p).linked.follows hchild hrec hk ho with
      | tracked g' lines exits queue answered handle received settled listener last =>
        cases hhandle.symm.trans handle
        exact ⟨lines, exits, queue, received, settled, last⟩
      | unheard _ _ _ _ handle | told _ _ _ handle | untold _ _ _ handle => cases hhandle.symm.trans handle

end Zelavis.Agent.Custody
