import Mathlib.Logic.Function.Basic
import Zelavis.Agent.PlacementLease

/-!
# The processes of an agent

`_agent-ipc.ts`: an agent starts child processes for clients that reach it over a socket, keeps each of them
in a table while it lives, and sends its output and its exit to the client that drives it. A client that goes
leaves its processes behind; the next one attaches to them or reclaims them.

A message takes its place in a channel that keeps the order, and what a handler waits for comes back whenever
it does; a callback of the runner comes in between.
-/

namespace Zelavis.Agent.Custody

open Lib PlacementLease

/-! ## What is sent -/

/-- Source: `process-command.ts` `ZelavisAgentProcessOutput`. -/
structure Output where
  stderr : Bool
  line : Utf16
  deriving DecidableEq

/-- Source: `process-command.ts` `ZelavisAgentProcessExit`. -/
structure Exit where
  code : Option ℤ
  signal : Option Utf16
  requested : Bool
  deriving DecidableEq

/-- Source: `process-command.ts` `ZelavisAgentProcessCommand`. -/
structure Command where
  workloadId : Utf16
  placement : Option Identity
  executable : Utf16
  args : List Utf16
  cwd : Utf16
  deriving DecidableEq

/-- What a client asks for. -/
inductive Ask where
  | start (command : Command)
  | attach (workloadId : Utf16)
  | stop (processId : ℕ) (placement : Option Identity)
  | reclaim (workloadId : Option Utf16) (preservePrefixes : List Utf16)
  deriving DecidableEq

/-- A process that is handed to a client. -/
structure Attached where
  processId : ℕ
  command : Command
  replay : List Output
  deriving DecidableEq

/-- What the server sends. -/
inductive Message where
  | started (id processId : ℕ)
  | attached (id : ℕ) (processes : List Attached)
  | stopped (id : ℕ) (exit : Option Exit)
  | reclaimed (id count : ℕ)
  | failed (id : ℕ) (error : Utf16)
  | output (processId : ℕ) (output : Output)
  | exit (processId : ℕ) (exit : Exit)
  deriving DecidableEq

/-! ## The server's variables -/

/-- Source: `processes`, its values. -/
structure Entry where
  socket : ℕ
  workloadId : Utf16
  command : Command
  output : List Output
  deriving DecidableEq

/-- What is left of a handler of a message while it waits. -/
inductive Handler where
  | leasing (socket id processId : ℕ) (command : Command)
  | starting (socket id processId : ℕ) (command : Command) (leased : Bool)
  | fencing (socket id processId : ℕ)
  | stopping (socket id processId : ℕ)
  | reclaiming (socket id processId : ℕ) (workloadId : Option Utf16) (preservePrefixes : List Utf16)
      (rest : List (ℕ × Entry)) (count : ℕ)
  | sweeping (socket id count : ℕ)
  deriving DecidableEq

/-- A child: whether its start was recorded, the lines and the exit its runner has reported since, and whether
a stop of it was asked for. -/
structure Child where
  socket : ℕ
  recorded : Bool := false
  lines : List Output := []
  exit : Option Exit := none
  stopAsked : Bool := false
  deriving DecidableEq

/-! ## The client's variables -/

/-- What a client has made of a process: the lines its listener got, and the exits it was settled with. -/
structure Handle where
  received : List Output := []
  settled : List Exit := []
  deriving DecidableEq

/-- An answer that was handed over to the caller, who has not gone on yet. -/
inductive Answer where
  | started (processId : ℕ)
  | attached (processes : List Attached)
  deriving DecidableEq

/-- Source: `createAgentProcessClient`, its variables. -/
structure Client where
  nextRequest : ℕ := 0
  pending : List (ℕ × Ask) := []
  answered : List Answer := []
  listeners : ℕ → Option Bool := fun _ => none
  handles : ℕ → Option Handle := fun _ => none

/-- Both ends of a socket. -/
structure Connection where
  destroyed : Bool := false
  closed : Bool := false
  toServer : List (ℕ × Ask) := []
  toClient : List Message := []
  client : Client := {}

/-- The agent and its clients. -/
structure World where
  table : ℕ → Option Entry := fun _ => none
  order : List ℕ := []
  nextProcessId : ℕ := 0
  handlers : List Handler := []
  children : ℕ → Option Child := fun _ => none
  connections : List Connection := []

namespace World

variable (w : World)

def isDestroyed (c : ℕ) : Bool := w.connections[c]?.all Connection.destroyed

def onConnection (c : ℕ) (f : Connection → Connection) : World :=
  { w with connections := w.connections.modify c f }

/-- A message in its place. Source: `send`. -/
def send (c : ℕ) (message : Message) : World :=
  w.onConnection c fun k => if k.destroyed then k else { k with toClient := k.toClient ++ [message] }

def setEntry (p : ℕ) (entry : Option Entry) : World :=
  { w with table := Function.update w.table p entry }

def onChild (p : ℕ) (f : Child → Child) : World :=
  { w with children := Function.update w.children p ((w.children p).map f) }

def await (h : Handler) : World := { w with handlers := w.handlers ++ [h] }

def entries : List (ℕ × Entry) := w.order.filterMap fun p => (w.table p).map fun entry => (p, entry)

end World

/-! ## The server -/

def Child.stop (child : Child) : Child := { child with stopAsked := true }

section Server

variable (isProjectWorkload : Utf16 → Bool)

/-- Source: `handle`, its `start`. -/
def handleStart (w : World) (c id : ℕ) (command : Command) : World :=
  let p := w.nextProcessId + 1
  let w := { w with nextProcessId := p }
  if isProjectWorkload command.workloadId then
    if command.placement.any fun placement => placement.projectId = command.workloadId then
      w.await (.leasing c id p command)
    else w.send c (.failed id (utf16 "Project placement authority is required."))
  else w.await (.starting c id p command false)

def World.free (w : World) (workloadId : Utf16) : List (ℕ × Entry) :=
  w.entries.filter fun e => e.2.workloadId = workloadId && w.isDestroyed e.2.socket

/-- Source: `handle`, its `attach`. -/
def handleAttach (w : World) (c id : ℕ) (workloadId : Utf16) : World :=
  let free := w.free workloadId
  let taken := free.foldl (fun w e => w.setEntry e.1 (some { e.2 with socket := c })) w
  taken.send c (.attached id (free.map fun e => ⟨e.1, e.2.command, e.2.output⟩))

/-- Source: `handle`, its `stop`. -/
def handleStop (w : World) (c id p : ℕ) (placement : Option Identity) : World :=
  match w.table p with
  | none => w.send c (.stopped id none)
  | some entry =>
    if isProjectWorkload entry.workloadId && !(entry.command.placement.isSome && entry.command.placement = placement)
    then w.send c (.failed id (utf16 "Project stop authority does not match the process placement."))
    else (w.onChild p Child.stop).await (.stopping c id p)

def isSpared (workloadId : Option Utf16) (preservePrefixes : List Utf16) (entry : Entry) : Bool :=
  workloadId.any (· ≠ entry.workloadId) ||
    workloadId.isNone && preservePrefixes.any fun first => first.isPrefixOf entry.workloadId

/-- The next process that is reclaimed, of those there were. Source: `handle`, its `reclaim`. -/
def reclaimFrom (w : World) (c id : ℕ) (workloadId : Option Utf16) (preservePrefixes : List Utf16) (count : ℕ) :
    List (ℕ × Entry) → World
  | [] => w.await (.sweeping c id count)
  | (p, found) :: rest =>
    let entry := (w.table p).getD found
    if !w.isDestroyed entry.socket || isSpared workloadId preservePrefixes entry then
      reclaimFrom w c id workloadId preservePrefixes count rest
    else ((w.setEntry p none).onChild p Child.stop).await
      (.reclaiming c id p workloadId preservePrefixes rest count)

def handle (w : World) (c id : ℕ) : Ask → World
  | .start command => handleStart isProjectWorkload w c id command
  | .attach workloadId => handleAttach w c id workloadId
  | .stop p placement => handleStop isProjectWorkload w c id p placement
  | .reclaim workloadId preservePrefixes =>
    reclaimFrom w c id workloadId (preservePrefixes.filter (· ≠ [])) 0 w.entries

end Server

/-- What a handler that waits gets. -/
inductive Reply where
  /-- It is what is asked for: the lease is held, the child was started or has stopped, so many processes were
  reclaimed. -/
  | done (count : ℕ)
  | fenced
  | fails (error : Utf16)
  deriving DecidableEq

/-- The start of a child is recorded, and the client is told. Source: `handle`, its
`processes.set` and what follows. -/
def record (w : World) (c id p : ℕ) (command : Command) : World :=
  let w := w.onChild p fun child => { child with recorded := true }
  let w := { w.setEntry p (some ⟨c, command.workloadId, command, []⟩) with order := w.order ++ [p] }
  w.send c (.started id p)

/-- A handler goes on. Source: `handle`, behind each `await`. -/
def resume (w : World) : Handler → Reply → Option World
  | .leasing c id p command, .done _ => some (w.await (.starting c id p command true))
  | .leasing c id _ _, .fenced =>
    some (w.send c (.failed id (utf16 "Project placement authority is absent or stale.")))
  | .leasing c id _ _, .fails error => some (w.send c (.failed id error))
  | .starting c id p command _, .done _ =>
    if (w.children p).isSome then some (record w c id p command) else none
  | .starting c id p _ true, .fenced =>
    if (w.children p).isSome then some ((w.onChild p Child.stop).await (.fencing c id p)) else none
  | .starting c id p _ _, .fails error => some ((w.onChild p Child.stop).send c (.failed id error))
  | .fencing c id p, .done _ =>
    if (w.children p).any (·.exit.isSome) then
      some (w.send c (.failed id (utf16 "Project placement expired during start.")))
    else none
  | .fencing c id _, .fails error => some (w.send c (.failed id error))
  | .stopping c id p, .done _ =>
    ((w.children p).bind Child.exit).map fun exit => w.send c (.stopped id (some exit))
  | .stopping c id _, .fails error => some (w.send c (.failed id error))
  | .reclaiming c id p workloadId preservePrefixes rest count, .done _ =>
    if (w.children p).any (·.exit.isSome) then
      some (reclaimFrom w c id workloadId preservePrefixes (count + 1) rest)
    else none
  | .reclaiming c id _ workloadId preservePrefixes rest count, .fails _ =>
    some (reclaimFrom w c id workloadId preservePrefixes (count + 1) rest)
  | .sweeping c id count, .done more => some (w.send c (.reclaimed id (count + more)))
  | .sweeping c id _, .fails error => some (w.send c (.failed id error))
  | _, _ => none

def MAX_REPLAY_LINES : ℕ := 500

def Entry.keep (entry : Entry) (output : Output) : Entry :=
  let lines := entry.output ++ [output]
  { entry with output := lines.drop (lines.length - MAX_REPLAY_LINES) }

def onOutput (w : World) (p : ℕ) (output : Output) : World :=
  match w.table p with
  | none => w
  | some entry => (w.setEntry p (some (entry.keep output))).send entry.socket (.output p output)

def onExit (w : World) (p : ℕ) (exit : Exit) : World :=
  match w.table p with
  | none => w
  | some entry => (w.setEntry p none).send entry.socket (.exit p exit)

/-! ## The client -/

namespace Client

variable (k : Client)

def setListener (p : ℕ) (listener : Option Bool) : Client :=
  { k with listeners := Function.update k.listeners p listener }

def onHandle (p : ℕ) (f : Handle → Handle) : Client :=
  { k with handles := Function.update k.handles p ((k.handles p).map f) }

/-- A request is answered: its number is free, and the answer is handed over to who waits for it, if anyone
still does. -/
def answer (id : ℕ) (answered : List Answer) : Client :=
  match k.pending.lookup id with
  | none => k
  | some _ => { k with pending := k.pending.filter (·.1 ≠ id), answered := k.answered ++ answered }

end Client

/-- Settled once. Source: `settleExit`. -/
def Handle.settle (exit : Exit) (h : Handle) : Handle :=
  if h.settled = [] then { h with settled := [exit] } else h

/-- Source: `createAgentProcessClient`, its reader of messages. -/
def onMessage (k : Client) : Message → Client
  | .output p output => match k.listeners p with
    | some true => k.onHandle p fun h => { h with received := h.received ++ [output] }
    | _ => k
  | .exit p exit => match k.listeners p with
    | some _ => (k.setListener p none).onHandle p (Handle.settle exit)
    | none => k
  | .started id p => k.answer id [.started p]
  | .attached id processes => k.answer id [.attached processes]
  | .stopped id _ => k.answer id []
  | .reclaimed id _ => k.answer id []
  | .failed id _ => k.answer id []

def track (k : Client) (p : ℕ) (listens : Bool) : Client :=
  { k.setListener p (some listens) with handles := Function.update k.handles p (some {}) }

/-- A caller goes on with its answer. Source: `start`, `attach`. -/
def goOn (k : Client) : Answer → Client
  | .started p => track k p true
  | .attached processes => processes.foldl (fun k a => track k a.processId false) k

def unknownExit : Exit := ⟨none, none, false⟩

def abandon (k : Client) : Client :=
  { k with
    pending := []
    listeners := fun _ => none
    handles := fun p => if (k.listeners p).isSome then (k.handles p).map (Handle.settle unknownExit) else k.handles p }

/-- A request is sent. Source: `request`. -/
def ask (k : Connection) (a : Ask) : Connection :=
  let id := k.client.nextRequest + 1
  { k with
    toServer := k.toServer ++ [(id, a)]
    client := { k.client with nextRequest := id, pending := k.client.pending ++ [(id, a)] } }

/-! ## Any order -/

/-- What happens next. -/
inductive Event where
  | connects
  | asks (c : ℕ) (ask : Ask)
  | handles (c : ℕ)
  | spawns (i : ℕ)
  | resumes (i : ℕ) (reply : Reply)
  | outputs (p : ℕ) (output : Output)
  | exits (p : ℕ) (exit : Exit)
  | fences (p : ℕ)
  | receives (c : ℕ)
  | goesOn (c i : ℕ)
  | leaves (c i : ℕ)
  | givesUp (c id : ℕ)
  | listens (c p : ℕ)
  | closes (c : ℕ)
  | destroys (c : ℕ)
  deriving DecidableEq

def Handler.spawning : Handler → Option (ℕ × ℕ)
  | .starting c _ p _ _ => some (c, p)
  | _ => none

def World.onClient (w : World) (c : ℕ) (f : Client → Option Client) : Option World :=
  w.connections[c]?.bind fun k => (f k.client).map fun client => w.onConnection c fun k => { k with client }

def step (isProjectWorkload : Utf16 → Bool) (w : World) : Event → Option World
  | .connects => some { w with connections := w.connections ++ [{}] }
  | .asks c a => (w.connections[c]?.filter fun k => !k.closed).map fun k => w.onConnection c fun _ => ask k a
  | .handles c =>
    (w.connections[c]?.filter fun k => !k.destroyed).bind fun k =>
      k.toServer.head?.map fun m =>
        handle isProjectWorkload (w.onConnection c fun k => { k with toServer := k.toServer.tail }) c m.1 m.2
  | .spawns i =>
    (w.handlers[i]?.bind Handler.spawning).bind fun h =>
      if (w.children h.2).isSome then none
      else some { w with children := Function.update w.children h.2 (some { socket := h.1 }) }
  | .resumes i reply => w.handlers[i]?.bind fun h => resume { w with handlers := w.handlers.eraseIdx i } h reply
  | .outputs p output =>
    (w.children p).map fun child => onOutput (w.onChild p fun child =>
      if child.recorded then { child with lines := child.lines ++ [output] } else child) p output
  | .exits p exit =>
    ((w.children p).filter (·.exit.isNone)).map fun _ =>
      onExit (w.onChild p fun child => { child with exit := some exit }) p exit
  | .fences p => (w.table p).map fun _ => w.onChild p Child.stop
  | .receives c =>
    (w.connections[c]?.filter fun k => !k.closed).bind fun k =>
      k.toClient.head?.map fun m =>
        w.onConnection c fun k => { k with toClient := k.toClient.tail, client := onMessage k.client m }
  | .goesOn c i => w.onClient c fun k =>
    k.answered[i]?.map fun a => goOn { k with answered := k.answered.eraseIdx i } a
  | .leaves c i => w.onClient c fun k => some { k with answered := k.answered.eraseIdx i }
  | .givesUp c id => w.onClient c fun k => some { k with pending := k.pending.filter (·.1 ≠ id) }
  | .listens c p => w.onClient c fun k => (k.listeners p).map fun _ => k.setListener p (some true)
  | .closes c => some (w.onConnection c fun k => { k with closed := true, client := abandon k.client })
  | .destroys c => some (w.onConnection c fun k => { k with destroyed := true })

def runFrom (isProjectWorkload : Utf16 → Bool) (w : World) (events : List Event) : Option World :=
  events.foldlM (step isProjectWorkload) w

def Every (isProjectWorkload : Utf16 → Bool) (cond : World → Event → Prop) : World → List Event → Prop
  | _, [] => True
  | w, e :: events => cond w e ∧ ∀ w', step isProjectWorkload w e = some w' →
      Every isProjectWorkload cond w' events

end Zelavis.Agent.Custody
