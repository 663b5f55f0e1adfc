/-
# Metrics

Counters, which only grow, and gauges, which hold the last value that was set.
-/
import BlockRelay.Message

namespace BlockRelay

/-- The last values of the gauges. -/
structure Gauges where
  peers : Nat := 0
  fetchCandidates : Nat := 0
  spreadPending : Nat := 0
  unsynced : Nat := 0
  pendingBlocks : Nat := 0
  syncRequests : Nat := 0
  badObjects : Nat := 0
  deriving DecidableEq, Repr, Inhabited

/-- Everything that is measured. -/
structure Metrics where
  gauges : Gauges := {}
  blocksApplied : Nat := 0
  transactionsApplied : Nat := 0
  floodRejections : Nat := 0
  /-- The reasons of all disconnects so far, the last one first. -/
  disconnects : List Reason := []
  deriving DecidableEq, Repr, Inhabited

namespace Metrics

/-- Count a block that the ledger accepted. -/
def countBlock (m : Metrics) : Metrics := { m with blocksApplied := m.blocksApplied + 1 }

/-- Count a transaction that the ledger accepted. -/
def countTransaction (m : Metrics) : Metrics :=
  { m with transactionsApplied := m.transactionsApplied + 1 }

/-- Count an announcement that was refused as a flood. -/
def countRejection (m : Metrics) : Metrics := { m with floodRejections := m.floodRejections + 1 }

/-- Count a disconnect. -/
def countDisconnect (m : Metrics) (r : Reason) : Metrics :=
  { m with disconnects := r :: m.disconnects }

/-- Set the gauge of registered peers. -/
def setPeers (m : Metrics) (n : Nat) : Metrics := { m with gauges := { m.gauges with peers := n } }

/-- How many disconnects there were for a reason. -/
def disconnectsFor (m : Metrics) (r : Reason) : Nat := m.disconnects.count r

end Metrics

end BlockRelay
