/-
# Nodes

A node is an engine over a ledger in memory, under the identity that other nodes
know it by.  It can produce blocks and accept transactions by itself.
-/
import BlockRelay.Engine.Operation
import BlockRelay.Ledger.Chain

namespace BlockRelay

/-- A node of a network. -/
structure Node where
  id : PeerId
  engine : Engine ChainLedger

namespace Node

/-- The identity of the node at a position of a network. -/
def peerAt (i : Nat) : PeerId := ⟨i.toUInt64⟩

/-- The position of the node with a given identity. -/
def positionOf (id : PeerId) : Nat := id.value.toNat

/-- A node that holds only the genesis block. -/
def start (id : PeerId) (config : Config) (genesis : Block) (solidifyDepth : Nat) (clock : Clock) :
    Checked Node := do
  let ledger := ChainLedger.ofGenesis genesis solidifyDepth config.sync.batch
  return ⟨id, ← Engine.start config ledger clock⟩

/-- The chain of a node. -/
def ledger (n : Node) : ChainLedger := n.engine.ledger

/-- The height of the chain of a node. -/
def height (n : Node) : UInt64 := n.ledger.head.number

/-- Change the ledger of a node behind the back of its engine. -/
def setLedger (n : Node) (l : ChainLedger) : Node :=
  { n with engine := { n.engine with ledger := l } }

/-- Make every later application of a hash fail. -/
def forbid (n : Node) (hash : Hash) : Node := n.setLedger (n.ledger.forbid hash)

/-- Whether the ledger of a node holds a transaction. -/
def hasTransaction (n : Node) (hash : Hash) : Bool := n.ledger.transactions.contains hash

/-- The timestamp of the next block: the wall clock, but later than the head. -/
def nextTimestamp (n : Node) : Checked UInt64 := do
  let headTime := (Ledger.timestamp? n.ledger n.ledger.head).getD 0
  let least ← Checked.add headTime.toNat 1
  return (max n.engine.clock.wallTime least).toUInt64

/-- Produce a block on top of the head, and announce it. -/
def produce (n : Node) (transactions : List Transaction) :
    Checked (Except Refusal Block × Node) := do
  let timestamp ← n.nextTimestamp
  let (result, ledger) ← n.ledger.produce timestamp n.id.value transactions
  let n := n.setLedger ledger
  match result with
  | .ok b => return (.ok b, { n with engine := n.engine.broadcastBlock b })
  | .error error => return (.error error, n)

/-- Accept a transaction, and announce it if it is new. -/
def submit (n : Node) (t : Transaction) : Except Refusal Bool × Node :=
  let (result, ledger) := n.ledger.applyTransaction t
  let n := n.setLedger ledger
  match result with
  | .ok true => (.ok true, { n with engine := n.engine.broadcastTransaction t })
  | _ => (result, n)

end Node

end BlockRelay
