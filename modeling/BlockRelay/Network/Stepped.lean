/-
# A network that moves in steps

The network holds nodes and delivers their messages directly.  One step delivers
everything that is queued, link by link, and then gives every node one turn at each
of its chores.  The work of a step is the number of messages it delivered and of
things the chores did; a network is quiet when a step does no work.
-/
import BlockRelay.Network.Node

namespace BlockRelay

/-- The way from one node to another, by their positions. -/
structure Link where
  sender : Nat
  receiver : Nat
  deriving DecidableEq, Repr, Inhabited

namespace Link

/-- Links are ordered by sender, and by receiver for one sender. -/
instance : Ord Link where
  compare := compareLex (compareOn sender) (compareOn receiver)

instance : Std.TransOrd Link :=
  inferInstanceAs (Std.TransCmp (compareLex (compareOn sender) (compareOn receiver)))

instance : Std.LawfulEqOrd Link where
  compare_self := Std.ReflCmp.compare_self
  eq_of_compare {a b} h := by
    have h : compareLex (compareOn sender) (compareOn receiver) a b = .eq := h
    simp only [compareLex_eq_eq, compareOn, Std.LawfulEqCmp.compare_eq_iff_eq] at h
    obtain ⟨hs, hr⟩ := h
    cases a; cases b
    rw [mk.injEq]
    exact ⟨hs, hr⟩

/-- The way back. -/
def back (l : Link) : Link := ⟨l.receiver, l.sender⟩

end Link

/-- A network of nodes, with the messages that are queued on each link. -/
structure StepNetwork where
  config : Config
  solidifyDepth : Nat
  clock : Clock
  nodes : Array Node := #[]
  links : Std.TreeMap Link (List Message) := ∅

namespace StepNetwork

/-- Add a node, and return its position. -/
def addNode (net : StepNetwork) : Checked (Nat × StepNetwork) := do
  let i := net.nodes.size
  let n ← Node.start (Node.peerAt i) net.config (Block.genesis 0) net.solidifyDepth net.clock
  return (i, { net with nodes := net.nodes.push n })

/-- Add several nodes. -/
def addNodes (net : StepNetwork) : Nat → Checked StepNetwork
  | 0 => .ok net
  | n + 1 => do
    let (_, net) ← net.addNode
    net.addNodes n

/-- A network of `count` nodes without links. -/
def start (config : Config) (solidifyDepth count : Nat) (clock : Clock) : Checked StepNetwork :=
  addNodes { config, solidifyDepth, clock } count

/-- Let time pass for every node. -/
def advanceClock (net : StepNetwork) (ms : Nat) : StepNetwork :=
  { net with
    clock := net.clock.advance ms
    nodes := net.nodes.map fun n => { n with engine := n.engine.advanceClock ms } }

/-- The heights of all chains. -/
def heads (net : StepNetwork) : List UInt64 := (net.nodes.map Node.height).toList

/-! ## Engines and links -/

/-- Follow an event of the node at a position: a session begins with an empty link, and what is
sent goes on the link, if it is there. -/
def follow (i : Nat) (links : Std.TreeMap Link (List Message)) :
    Event → Std.TreeMap Link (List Message)
  | .opened peer => links.insert ⟨i, Node.positionOf peer⟩ []
  | .sent peer m => links.modify ⟨i, Node.positionOf peer⟩ (· ++ [m])
  | _ => links

/-- Put a node in its place, and its journal on the links. -/
def setNode (net : StepNetwork) (i : Nat) (n : Node) : StepNetwork :=
  let (events, engine) := n.engine.takeJournal
  { net with
    nodes := net.nodes.setIfInBounds i { n with engine := engine }
    links := events.foldl (follow i) net.links }

/-- Carry out an operation on the engine of a node. -/
def perform (net : StepNetwork) (i : Nat) (op : Operation) : Checked (Outcome × StepNetwork) :=
  match net.nodes[i]? with
  | none => .ok (.done, net)
  | some n => do
    let (outcome, engine) ← n.engine.perform op
    return (outcome, net.setNode i { n with engine := engine })

/-- Connect two nodes: each registers the other with its height. -/
def connect (net : StepNetwork) (a b : Nat) : Checked StepNetwork :=
  match net.nodes[a]?, net.nodes[b]? with
  | some na, some nb => do
    let (_, net) ← net.perform a (.register nb.id nb.height)
    let (_, net) ← net.perform b (.register na.id na.height)
    return net
  | _, _ => .ok net

/-- Whether there is a link from one node to another. -/
def connected (net : StepNetwork) (a b : Nat) : Bool := net.links.contains ⟨a, b⟩

/-! ## Steps -/

/-- Deliver messages of a link, one after the other.  A disconnect takes the link down in both
directions, and what is behind it is lost. -/
def deliver (l : Link) : List Message → StepNetwork → Checked StepNetwork
  | [], net => .ok net
  | m :: rest, net => do
    let (_, net) ← net.perform l.receiver (.receive (Node.peerAt l.sender) m)
    if m.isDisconnect then
      let net := { net with links := (net.links.erase l).erase l.back }
      let (_, net) ← net.perform l.sender (.lost (Node.peerAt l.receiver))
      return net
    else deliver l rest net

/-- Deliver everything that is queued on a link, and return how much it was. -/
def drainLink (net : StepNetwork) (l : Link) : Checked (Nat × StepNetwork) :=
  match net.links[l]? with
  | none => .ok (0, net)
  | some batch => do
    let net ← deliver l batch { net with links := net.links.insert l [] }
    return (batch.length, net)

/-- The chores of a node in one step. -/
def chores : List Operation := [.announceSpread, .reserveCandidates, .issueTick, .applyTick]

/-- Do one chore of a node, and add the work. -/
def chore (i : Nat) (acc : Nat × StepNetwork) (op : Operation) : Checked (Nat × StepNetwork) := do
  match ← acc.2.perform i op with
  | (.count n, net) => return (acc.1 + n, net)
  | (_, net) => return (acc.1, net)

/-- One step: deliver everything, then let every node do its chores. -/
def step (net : StepNetwork) : Checked (Nat × StepNetwork) := do
  let delivered ← net.links.keys.foldlM (fun (work, net) l => do
    let (n, net) ← drainLink net l
    return (work + n, net)) (0, net)
  (List.range net.nodes.size).foldlM (fun acc i => chores.foldlM (chore i) acc) delivered

/-- Step until the network is quiet, at most `fuel` times more after `done` steps, and return
the number of steps. -/
def runFrom (done : Nat) : Nat → StepNetwork → Checked (Nat × StepNetwork)
  | 0, net => .ok (done, net)
  | fuel + 1, net => do
    let (work, net) ← net.step
    if work = 0 then return (done + 1, net) else runFrom (done + 1) fuel net

/-- Step until the network is quiet, at most `rounds` times. -/
def run (net : StepNetwork) (rounds : Nat) : Checked (Nat × StepNetwork) := runFrom 0 rounds net

/-! ## Nodes in their places -/

variable {net : StepNetwork} {i : Nat} {n : Node}

/-- A network with a node put in its place, and nothing else changed. -/
def place (net : StepNetwork) (i : Nat) (n : Node) : StepNetwork :=
  { net with nodes := net.nodes.setIfInBounds i n }

/-- Without a journal a node is only put in its place. -/
theorem setNode_of_taken (taken : n.engine.journal = []) : net.setNode i n = net.place i n := by
  have same : { n with engine := n.engine.takeJournal.2 } = n := by
    show (⟨n.id, { n.engine with journal := [] }⟩ : Node) = n
    rw [← taken]
  show { net with
    nodes := net.nodes.setIfInBounds i { n with engine := n.engine.takeJournal.2 }
    links := n.engine.journal.foldl (follow i) net.links } = _
  rw [same, taken]
  rfl

/-- A node that is put where it is changes nothing. -/
theorem place_self (found : net.nodes[i]? = some n) : net.place i n = net := by
  obtain ⟨lt, rfl⟩ := Array.getElem?_eq_some_iff.1 found
  unfold place
  rw [Array.setIfInBounds_def, dif_pos lt, Array.set_getElem_self]

/-- The node that is put in a place last stays there. -/
theorem place_place (n n' : Node) : (net.place i n).place i n' = net.place i n' := by
  unfold place
  rw [Array.setIfInBounds_setIfInBounds]

/-- A node is found where it is put. -/
theorem getElem?_place_self (found : net.nodes[i]? = some n) (n' : Node) :
    (net.place i n').nodes[i]? = some n' :=
  Array.getElem?_setIfInBounds_self_of_lt (Array.getElem?_eq_some_iff.1 found).1

/-- The others stay where they are. -/
theorem getElem?_place_ne {j : Nat} (ne : i ≠ j) (n : Node) :
    (net.place i n).nodes[j]? = net.nodes[j]? :=
  Array.getElem?_setIfInBounds_ne ne

end StepNetwork

end BlockRelay
