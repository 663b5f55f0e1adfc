/-
# Upkeep

What the engine does by the clock: it leaves peers that do not answer, forgets what
is out of date, moves the flood window on, and takes stock of itself.
-/
import BlockRelay.Engine.Session

namespace BlockRelay

/-- A census of the engine. -/
structure Census where
  headNumber : UInt64
  peers : Nat
  syncingPeers : Nat
  spreadPending : Nat
  fetchCandidates : Nat
  reserved : Nat
  blocksAsked : Nat
  pendingBlocks : Nat
  badObjects : Nat
  unsynced : Nat
  deriving DecidableEq, Repr, Inhabited

namespace Engine

variable {σ : Type}

/-! ## Sweeps -/

/-- The peers that have not answered in time, with the reasons for leaving them. -/
def silentPeers (e : Engine σ) : List (PeerId × Reason) :=
  e.peers.toList.filterMap fun (id, p) =>
    (p.silenceReason e.now e.config.net.advTimeout e.config.net.syncTimeout).map (id, ·)

/-- Leave every peer that has not answered in time, and say which. -/
def leaveSilent (e : Engine σ) : List (PeerId × Reason) × Engine σ :=
  (e.silentPeers, e.disconnectAll e.silentPeers)

/-- Forget announcements, refusals and cached objects that are out of date, and say how many. -/
def forgetOutdated (e : Engine σ) : Checked (Nat × Engine σ) := do
  let retention ← e.config.net.retention
  let announcements := e.peers.values.foldl (fun n p => n + (p.forgetOutdated e.now retention).1) 0
  let lifetime := e.config.cache.quarantineSeconds * 1000
  let quarantine := e.quarantine.filter fun _ refusedAt => e.now - refusedAt ≤ lifetime
  let (requests, requested) := e.requested.purge e.now
  let (blocks, blockCache) := e.blockCache.purge e.now
  let (transactions, transactionCache) := e.transactionCache.purge e.now
  let refusals := e.quarantine.size - quarantine.size
  let e := e.mapPeers fun _ p => (p.forgetOutdated e.now retention).2
  return (announcements + refusals + requests + blocks + transactions,
    { e with
      quarantine := quarantine
      requested := requested
      blockCache := blockCache
      transactionCache := transactionCache })

/-- Forgetting what is out of date changes the announcements that are remembered, the
quarantine and the caches. -/
theorem forgetOutdated_eq {e e' : Engine σ} {n : Nat} (done : e.forgetOutdated = .ok (n, e')) :
    ∃ retention quarantine requested blockCache transactionCache, e' =
      { e.mapPeers fun _ p => (p.forgetOutdated e.now retention).2 with
        quarantine := quarantine
        requested := requested
        blockCache := blockCache
        transactionCache := transactionCache } := by
  obtain ⟨retention, -, done⟩ := Checked.bind_eq_ok_iff.1 done
  cases done
  exact ⟨retention, _, _, _, _, rfl⟩

/-- Move the flood window on by one slot. -/
def advanceFlood (e : Engine σ) : Engine σ := { e with flood := e.flood.advance }

/-- Let time pass. -/
def advanceClock (e : Engine σ) (ms : Nat) : Engine σ := { e with clock := e.clock.advance ms }

/-! ## Taking stock -/

/-- The number of fetched blocks that are not applied. -/
def pendingBlocks (e : Engine σ) : Nat := e.waiting.size + e.arrived.length

/-- A census of the engine. -/
def census [Ledger σ] (e : Engine σ) : Checked Census := do
  let unsynced ← e.maxUnsynced
  return {
    headNumber := (Ledger.head e.ledger).number
    peers := e.peers.size
    syncingPeers := e.peers.values.countP (·.needFromPeer)
    spreadPending := e.spread.size
    fetchCandidates := e.candidates.size
    reserved := e.peers.values.foldl (fun n p => n + p.reserved.size) 0
    blocksAsked := e.requested.size
    pendingBlocks := e.pendingBlocks
    badObjects := e.quarantine.size
    unsynced := unsynced }

/-- Bring the gauges up to date. -/
def refreshGauges [Ledger σ] (e : Engine σ) : Checked (Engine σ) := do
  let s ← e.census
  return { e with
    metrics := { e.metrics with
      gauges := {
        peers := s.peers
        fetchCandidates := s.fetchCandidates
        spreadPending := s.spreadPending
        unsynced := s.unsynced
        pendingBlocks := s.pendingBlocks
        syncRequests := s.blocksAsked
        badObjects := s.badObjects } } }

end Engine

end BlockRelay
