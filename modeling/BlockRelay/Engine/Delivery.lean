/-
# Delivered objects

A block or a transaction is taken only from a peer that was asked for it.  A block
of a catch-up waits until it is next in line.  An announced object is applied at
once: an accepted one is announced in turn, and a refused one ends the session with
the peer that delivered it, except that a block whose parent is unknown starts a
catch-up.
-/
import BlockRelay.Engine.Announcement
import BlockRelay.Engine.Summary

namespace BlockRelay.Engine

variable {σ : Type} [Ledger σ]

/-! ## Announced blocks -/

/-- Settle an announced block that the ledger accepted: it is recent, its transactions are no
candidates any more, and every peer that announced it has it. -/
def settleAnnounced (e : Engine σ) (b : Block) (transactions : List Hash) : Engine σ :=
  let id := b.id
  let e := { e with
    recent := e.recent.push id
    candidates := transactions.foldl (fun q h => q.erase h) e.candidates
    metrics := e.metrics.countBlock }
  (e.mapPeers fun _ p =>
    if p.advertised.contains id.hash then { p with bothHave := id } else p).broadcastBlock b

/-- Submit an announced block to the ledger, unless it was accepted recently.  The answer is
the refusal, if there is one. -/
def submitAnnounced (e : Engine σ) (b : Block) : Checked (Option Refusal × Engine σ) := do
  if e.recent.contains b.id then return (none, e)
  else
    match ← e.applyBlock b false with
    | (.ok transactions, e) => return (none, e.settleAnnounced b transactions)
    | (.error error, e) => return (some error, e.quarantineFor error b.id.hash)

/-- **Submitting an announced block.**  A block that was accepted recently changes nothing.  Any
other block is applied, and is settled or quarantined. -/
theorem submitAnnounced_cases {e e' : Engine σ} {b : Block} {r : Option Refusal}
    (done : e.submitAnnounced b = .ok (r, e')) :
    e.recent.contains b.id = true ∧ r = none ∧ e' = e ∨
      ∃ result ledger, Ledger.applyBlock e.ledger b false = .ok (result, ledger) ∧
        match result with
        | .ok transactions => r = none ∧ e' =
            ({ e with ledger := ledger }.record (.appliedBlock b.id false)).settleAnnounced b
              transactions
        | .error error => r = some error ∧ ∃ quarantine, e' =
            { { e with ledger := ledger }.record (.appliedBlock b.id false) with
              quarantine := quarantine } := by
  unfold submitAnnounced at done
  split at done
  next recent =>
    cases done
    exact .inl ⟨recent, rfl, rfl⟩
  next =>
    obtain ⟨⟨result, e₁⟩, called, done⟩ := Checked.bind_eq_ok_iff.1 done
    obtain ⟨ledger, applied, rfl⟩ := applyBlock_eq_ok_iff.1 called
    refine .inr ⟨result, ledger, applied, ?_⟩
    cases result with
    | ok =>
      cases done
      exact ⟨rfl, rfl⟩
    | error error =>
      cases done
      exact ⟨rfl, quarantineFor_eq _ error b.id.hash⟩

/-- Submitting an announced block has nothing to do with a catch-up, apart from the block that both
sides have. -/
theorem submitAnnounced_eq {e e' : Engine σ} {b : Block} {r : Option Refusal}
    (done : e.submitAnnounced b = .ok (r, e')) :
    ∃ ledger peers spread candidates quarantine recent blockCache metrics journal, e' =
      { e with
        ledger := ledger
        peers := peers
        spread := spread
        candidates := candidates
        quarantine := quarantine
        recent := recent
        blockCache := blockCache
        metrics := metrics
        journal := journal } := by
  rcases submitAnnounced_cases done with ⟨-, -, rfl⟩ | ⟨result, ledger, -, result_eq⟩
  · exact ⟨_, _, _, _, _, _, _, _, _, rfl⟩
  · cases result with
    | ok =>
      obtain ⟨-, rfl⟩ := result_eq
      exact ⟨_, _, _, _, _, _, _, _, _, rfl⟩
    | error =>
      obtain ⟨-, quarantine, rfl⟩ := result_eq
      exact ⟨_, _, _, _, _, _, _, _, _, rfl⟩

/-- Apply a block that a peer announced and delivered. -/
def applyAnnounced (e : Engine σ) (id : PeerId) (b : Block) : Checked (Engine σ) := do
  match ← e.submitAnnounced b with
  | (none, e) => return e
  | (some (.unlinkedBlock _), e) => return e.startCatchUp id
  | (some error, e) => return e.disconnect id error.reason

/-! ## Blocks of a catch-up -/

/-- Put a block of a catch-up with the others that have arrived. -/
def arrive (e : Engine σ) (id : PeerId) (b : Block) : Engine σ :=
  { e with arrived := e.arrived ++ [⟨b, id⟩], applyDue := true }

/-- Receive a block of a catch-up from a peer whose record is `p` by now.  When it was the last
one that the peer was asked for, either a summary is sent or more blocks are asked for. -/
def receiveRequested (e : Engine σ) (id : PeerId) (p : Peer) (b : Block) : Engine σ :=
  if p.isBusy then e.arrive id b
  else if 0 < p.unfetched && p.toFetch.length ≤ e.config.sync.batch then
    (e.arrive id b).nextSummary id
  else { e.arrive id b with issueDue := true }

/-- Receive a block.  A peer that was not asked for it is left. -/
def receiveBlock (e : Engine σ) (id : PeerId) (b : Block) : Checked (Engine σ) := do
  match e.peers[id]? with
  | none => return e
  | some p =>
    let left := p.takeDelivery b.id
    let e' := { e with peers := e.peers.insert id left }
    if p.blocksAsked.contains b.id.hash then return e'.receiveRequested id left b
    else if p.reserved.contains b.id.item then e'.applyAnnounced id b
    else return e.disconnect id .badProtocol

/-! ## Transactions -/

/-- Submit a transaction to the ledger, unless it is cached.  The answer is the refusal, if
there is one. -/
def submitTransaction (e : Engine σ) (t : Transaction) : Option Refusal × Engine σ :=
  if e.transactionCache.contains t.hash e.now then (none, e)
  else
    match e.applyTransaction t with
    | (.ok true, e) =>
      (none, { e with metrics := e.metrics.countTransaction }.broadcastTransaction t)
    | (.ok false, e) =>
      (none, { e with transactionCache := e.transactionCache.insert t.hash t e.now })
    | (.error error, e) => (some error, e.quarantineFor error t.hash)

/-- **Submitting a transaction.**  A cached transaction changes nothing.  Any other one is
applied, and is queued for announcement, cached, or quarantined. -/
theorem submitTransaction_cases (e : Engine σ) (t : Transaction) :
    e.submitTransaction t = (none, e) ∨
      ∃ spread quarantine transactionCache metrics,
        (e.submitTransaction t).2 =
          { e with
            ledger := (Ledger.applyTransaction e.ledger t).2
            spread := spread
            quarantine := quarantine
            transactionCache := transactionCache
            metrics := metrics
            journal := e.journal ++ [.appliedTransaction t.hash] } := by
  unfold submitTransaction
  split
  · exact .inl rfl
  · refine .inr ?_
    simp only [applyTransaction, record]
    split
    next eq =>
      obtain ⟨-, rfl⟩ := Prod.mk.inj eq
      exact ⟨_, _, _, _, rfl⟩
    next eq =>
      obtain ⟨-, rfl⟩ := Prod.mk.inj eq
      exact ⟨_, _, _, _, rfl⟩
    next error _ eq =>
      obtain ⟨-, rfl⟩ := Prod.mk.inj eq
      obtain ⟨quarantine, eq⟩ := quarantineFor_eq
        ({ e with ledger := (Ledger.applyTransaction e.ledger t).2 }.record
          (.appliedTransaction t.hash)) error t.hash
      exact ⟨_, quarantine, _, _, eq⟩

/-- Apply a transaction that a peer announced and delivered. -/
def applyDelivered (e : Engine σ) (id : PeerId) (t : Transaction) : Engine σ :=
  match e.submitTransaction t with
  | (none, e) => e
  | (some _, e) => e.disconnect id .badTransaction

/-- Receive a transaction.  A peer that was not asked for it is left. -/
def receiveTransaction (e : Engine σ) (id : PeerId) (t : Transaction) : Engine σ :=
  match e.peers[id]? with
  | none => e
  | some p =>
    if p.reserved.contains t.item then
      (e.modifyPeer id fun p => { p with reserved := p.reserved.erase t.item }).applyDelivered id t
    else e.disconnect id .badProtocol

/-- Receive several transactions, one after the other. -/
def receiveTransactions (e : Engine σ) (id : PeerId) (ts : List Transaction) : Engine σ :=
  ts.foldl (fun e t => e.receiveTransaction id t) e

end BlockRelay.Engine
