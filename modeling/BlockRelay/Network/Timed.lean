/-
# A network that runs by the clock

Nodes with background tasks, joined by channels.  A task does its chore when it is
due; a draining task goes on until there is nothing left to do and then rests, and a
periodic one keeps to its period.  A channel carries what a node sends to another:
a dispatcher puts it on a bounded wire, and a reader takes it off and delivers it.

Time moves in milliseconds, and at every one of them everything runs until it waits.
First the tasks that are due do their chores once, in the order in which they began
to wait.  Then dispatchers and readers take turns, in the order in which they came to
have something to do, until every message is delivered.  Only after that do draining
tasks that are not finished go on, and so forth until nothing is due.
-/
import BlockRelay.Network.Node
import BlockRelay.Dispatch

namespace BlockRelay

/-- A background task of a node. -/
structure Task where
  node : Nat
  chore : Operation
  /-- How long the task waits, once it has started, before it does its chore the first time. -/
  delay : Nat
  /-- How long a draining task rests, or the period of a periodic one. -/
  pause : Nat
  /-- Whether the chore is repeated as long as there is something to do. -/
  drains : Bool
  /-- When the task runs next. -/
  due : Nat := 0
  deriving DecidableEq, Repr

/-- The way of messages from one node to another. -/
structure Channel where
  sender : Nat
  receiver : Nat
  dispatcher : Dispatcher
  /-- Whether the session that feeds the channel goes on. -/
  current : Bool := true
  /-- Whether somebody takes messages off the wire. -/
  reading : Bool := true
  deriving DecidableEq, Repr

/-- What works on a channel, which is named by its position. -/
inductive Worker where
  /-- Takes messages from the queue and puts them on the wire. -/
  | dispatcher (channel : Nat)
  /-- Takes messages off the wire and delivers them. -/
  | reader (channel : Nat)
  deriving DecidableEq, Repr

/-- A network that runs by the clock. -/
structure TimedNetwork where
  nodes : Array Node := #[]
  /-- The tasks, in the order in which they began to wait. -/
  tasks : List Task := []
  channels : List Channel := []
  /-- The workers that may have something to do, in the order in which they came to have it. -/
  ready : List Worker := []
  now : Nat := 0

namespace TimedNetwork

/-! ## Setting up -/

/-- The background tasks of a node. -/
def tasksFor (node : Nat) (c : Config) : Checked (List Task) := do
  let cleaning ← c.cleaningPeriod
  let t := c.tasks
  let drain (chore : Operation) (rest : Nat) : Task :=
    { node := node, chore := chore, delay := 0, pause := max rest 1, drains := true }
  let every (chore : Operation) (delay period : Nat) : Task :=
    { node := node, chore := chore, delay := delay, pause := max period 1, drains := false }
  return [
    drain .announceSpread t.idleSleep,
    drain .reserveCandidates t.idleSleep,
    every .leaveSilent t.sweepDelay c.sweepPeriod,
    every .forgetOutdated cleaning cleaning,
    every (.advanceFlood 1) t.floodPeriod t.floodPeriod,
    every .refreshGauges t.statusPeriod t.statusPeriod,
    every .issueTick t.issuePeriod t.issuePeriod,
    drain .applyTick t.applySleep ]

/-- Add a node with its tasks. -/
def addNode (config : Config) (solidifyDepth : Nat) (clock : Clock) (net : TimedNetwork) :
    Checked TimedNetwork := do
  let i := net.nodes.size
  let n ← Node.start (Node.peerAt i) config (Block.genesis 0) solidifyDepth clock
  return { net with nodes := net.nodes.push n, tasks := net.tasks ++ (← tasksFor i config) }

/-- A network of `count` nodes without channels. -/
def start (config : Config) (solidifyDepth : Nat) (clock : Clock) : Nat → Checked TimedNetwork
  | 0 => .ok {}
  | n + 1 => do addNode config solidifyDepth clock (← start config solidifyDepth clock n)

/-- The heights of all chains. -/
def heads (net : TimedNetwork) : List UInt64 := (net.nodes.map Node.height).toList

/-! ## Channels -/

/-- Note that a worker may have something to do. -/
def wake (net : TimedNetwork) (w : Worker) : TimedNetwork :=
  if w ∈ net.ready then net else { net with ready := net.ready ++ [w] }

/-- Change the channel at a position. -/
def setChannel (net : TimedNetwork) (k : Nat) (f : Channel → Channel) : TimedNetwork :=
  { net with channels := net.channels.modify k f }

/-- Open a channel whose wire has a given capacity. -/
def openChannel (net : TimedNetwork) (sender receiver capacity : Nat) : TimedNetwork :=
  let k := net.channels.length
  let c : Channel :=
    { sender := sender
      receiver := receiver
      dispatcher := { queue := {}, wire := .ofCapacity capacity } }
  ({ net with channels := net.channels ++ [c] }.wake (.dispatcher k)).wake (.reader k)

/-- Change the channel that the current session of a node with a peer feeds. -/
def feed (net : TimedNetwork) (i : Nat) (peer : PeerId) (f : Channel → Channel) : TimedNetwork :=
  let feeds (c : Channel) : Bool :=
    c.sender = i && c.receiver = Node.positionOf peer && c.current
  match net.channels.findIdx? feeds with
  | none => net
  | some k => (net.setChannel k f).wake (.dispatcher k)

/-- Change the queue of a channel, unless its dispatcher has stopped. -/
def onQueue (f : Outbox → Outbox) (c : Channel) : Channel :=
  if c.dispatcher.stopped then c
  else { c with dispatcher := { c.dispatcher with queue := f c.dispatcher.queue } }

/-- Stop taking messages off the wire of a channel. -/
def stopReading (net : TimedNetwork) (k : Nat) : TimedNetwork :=
  let close (d : Dispatcher) : Dispatcher := { d with wire := d.wire.close }
  (net.setChannel k fun c =>
    { c with reading := false, dispatcher := close c.dispatcher }).wake (.dispatcher k)

/-- A worker that is woken is ready. -/
theorem mem_ready_wake (net : TimedNetwork) (w : Worker) : w ∈ (net.wake w).ready := by
  unfold wake
  split
  · assumption
  · exact List.mem_append_right _ (List.mem_singleton_self w)

/-! ## Engines -/

/-- Follow an event of the node at a position.  A session that begins gets a new channel whose
wire has the given capacity. -/
def follow (capacity i : Nat) (net : TimedNetwork) : Event → TimedNetwork
  | .opened peer => net.openChannel i (Node.positionOf peer) capacity
  | .closed peer =>
    net.feed i peer fun c =>
      { onQueue (fun q => { q with closed := true }) c with current := false }
  | .sent peer m => net.feed i peer (onQueue (·.add m))
  | _ => net

/-- Put a node in its place, and its journal on the channels. -/
def setNode (net : TimedNetwork) (i : Nat) (n : Node) (capacity : Nat) : TimedNetwork :=
  let (events, engine) := n.engine.takeJournal
  let nodes := net.nodes.setIfInBounds i { n with engine := engine }
  events.foldl (follow capacity i) { net with nodes := nodes }

/-- Carry out an operation on the engine of a node; channels that it opens have wires of the
given capacity. -/
def performWith (capacity : Nat) (net : TimedNetwork) (i : Nat) (op : Operation) :
    Checked (Outcome × TimedNetwork) :=
  match net.nodes[i]? with
  | none => .ok (.done, net)
  | some n => do
    let (outcome, engine) ← n.engine.perform op
    return (outcome, net.setNode i { n with engine := engine } capacity)

/-- Carry out an operation on the engine of a node. -/
def perform (net : TimedNetwork) (i : Nat) (op : Operation) : Checked (Outcome × TimedNetwork) :=
  performWith 1 net i op

/-- Join two nodes by channels in both directions. -/
def link (net : TimedNetwork) (a b capacity : Nat) : Checked TimedNetwork :=
  match net.nodes[a]?, net.nodes[b]? with
  | some na, some nb => do
    let (_, net) ← net.performWith capacity a (.register nb.id nb.height)
    let (_, net) ← net.performWith capacity b (.register na.id na.height)
    return net
  | _, _ => .ok net

/-! ## Running -/

/-- Run a task that is due.  A task whose chore aborts ends. -/
def runTask (net : TimedNetwork) (t : Task) : Option Task × TimedNetwork :=
  if t.delay ≠ 0 then (some { t with due := net.now + t.delay, delay := 0 }, net)
  else
    match net.perform t.node t.chore with
    | .error _ => (none, net)
    | .ok (outcome, net) =>
      let due :=
        if t.drains then
          match outcome with
          | .count (_ + 1) => t.due
          | _ => net.now + t.pause
        else t.due + t.pause
      (some { t with due := due }, net)

/-- Run every task that is due once. -/
def runTasks (net : TimedNetwork) : TimedNetwork :=
  let (due, waiting) := net.tasks.partition (·.due ≤ net.now)
  due.foldl (fun net t =>
    let (t, net) := net.runTask t
    { net with tasks := net.tasks ++ t.toList }) { net with tasks := waiting }

/-- Deliver messages that were taken off the wire of the channel at a position.  Nothing is read
after a disconnect, nor after a message at which the receiver aborts.  When no message can come
any more, the receiver has lost the sender. -/
def deliver (k : Nat) (c : Channel) : List Message → TimedNetwork → TimedNetwork
  | [], net =>
    if c.dispatcher.stopped then
      match net.perform c.receiver (.lost (Node.peerAt c.sender)) with
      | .ok (_, net) => net.stopReading k
      | .error _ => net.stopReading k
    else net
  | m :: rest, net =>
    match net.perform c.receiver (.receive (Node.peerAt c.sender) m) with
    | .ok (_, net) => if m.isDisconnect then net.stopReading k else deliver k c rest net
    | .error _ => net.stopReading k

/-- The turn of a dispatcher: it puts as much as possible on the wire. -/
def dispatch (net : TimedNetwork) (k : Nat) (c : Channel) : TimedNetwork :=
  let live := (net.nodes[c.sender]?).any fun n => n.engine.isRegistered (Node.peerAt c.receiver)
  (net.setChannel k fun c => { c with dispatcher := c.dispatcher.run live }).wake (.reader k)

/-- The turn of a reader: it delivers everything that is on the wire. -/
def read (net : TimedNetwork) (k : Nat) (c : Channel) : TimedNetwork :=
  if !c.reading then net
  else
    let (messages, wire) := c.dispatcher.wire.take none
    let net := net.setChannel k fun c => { c with dispatcher := { c.dispatcher with wire := wire } }
    deliver k c messages (if messages.isEmpty then net else net.wake (.dispatcher k))

/-- The turn of a worker. -/
def turn (net : TimedNetwork) : Worker → TimedNetwork
  | .dispatcher k => (net.channels[k]?).elim net (net.dispatch k)
  | .reader k => (net.channels[k]?).elim net (net.read k)

/-- Let workers take turns until none is ready, and then run the tasks that are due, and so forth
until nothing is due.  There are at most `fuel` turns. -/
def settle : Nat → TimedNetwork → TimedNetwork
  | 0, net => net
  | fuel + 1, net =>
    match net.ready with
    | w :: rest => settle fuel ({ net with ready := rest }.turn w)
    | [] => if net.tasks.any (·.due ≤ net.now) then settle fuel net.runTasks else net

/-- How many turns there may be at one time. -/
def maxTurns : Nat := 1000000

/-- Run everything until it waits. -/
def quiesce (net : TimedNetwork) : TimedNetwork := settle maxTurns net.runTasks

/-- Move the clock on by one millisecond, and run everything until it waits. -/
def tick (net : TimedNetwork) : TimedNetwork :=
  quiesce { net with
    now := net.now + 1
    nodes := net.nodes.map fun n => { n with engine := n.engine.advanceClock 1 } }

/-- Run for some milliseconds, the first and the last included. -/
def run (net : TimedNetwork) (ms : Nat) : TimedNetwork := ms.repeat tick net.quiesce

/-- End all tasks and readers, and run for two more milliseconds. -/
def shutdown (net : TimedNetwork) : TimedNetwork :=
  let net := { net with tasks := [] }
  run ((List.range net.channels.length).foldl stopReading net) 2

end TimedNetwork

end BlockRelay
