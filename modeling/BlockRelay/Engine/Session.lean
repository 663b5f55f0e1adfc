/-
# Leaving a peer

When a session ends, everything that the peer held is released.  The blocks of a
catch-up that it was asked for may be asked of somebody else.  An announced object
that was reserved on it becomes a candidate again, provided that another peer has
announced it too and that it is not quarantined.
-/
import BlockRelay.Engine.Basic

namespace BlockRelay.Engine

variable {σ : Type}

/-- Release the blocks of a catch-up that a departed peer was asked for. -/
def releaseRequests (e : Engine σ) (p : Peer) : Engine σ :=
  if p.blocksAsked.isEmpty then e
  else
    { e with
      requested := p.blocksAsked.keys.foldl (fun c hash => c.erase hash) e.requested
      issueDue := true }

/-- Release one object that was reserved on a departed peer. -/
def releaseItem (e : Engine σ) (i : Item) : Engine σ :=
  if e.anyPeer (·.advertised.contains i.hash) && !e.isQuarantined i.hash then
    { e with candidates := e.candidates.requeue i e.now }
  else e

/-- Release several objects that were reserved on a departed peer, in the given order. -/
def releaseItems (e : Engine σ) (items : List Item) : Engine σ := items.foldl releaseItem e

/-- Release the announced objects that were reserved on a departed peer. -/
def releaseReservations (e : Engine σ) (p : Peer) : Engine σ := e.releaseItems p.reserved.keys

/-- Say goodbye to a peer that is left for a reason. -/
def sayGoodbye (e : Engine σ) (id : PeerId) (r : Reason) : Engine σ :=
  { e with metrics := e.metrics.countDisconnect r }.send id (.disconnect r)

/-- Set the gauge of registered peers. -/
def gaugePeers (e : Engine σ) : Engine σ :=
  { e with metrics := e.metrics.setPeers e.peers.size }

/-- End the session with a peer.  With a reason, the peer is told; without one, it left by
itself.  For an unknown peer nothing happens. -/
def remove (e : Engine σ) (id : PeerId) (reason : Option Reason) : Engine σ :=
  match e.peers[id]? with
  | none => e
  | some p =>
    let e := { e with peers := e.peers.erase id }
    let e := reason.elim e (e.sayGoodbye id)
    let e := e.record (.closed id)
    ((e.releaseRequests p).releaseReservations p).gaugePeers

/-- Leave a peer for a reason. -/
def disconnect (e : Engine σ) (id : PeerId) (r : Reason) : Engine σ := e.remove id (some r)

/-- Note that the connection to a peer was lost. -/
def lost (e : Engine σ) (id : PeerId) : Engine σ := e.remove id none

/-- Leave several peers, one after the other. -/
def disconnectAll (e : Engine σ) (leaving : List (PeerId × Reason)) : Engine σ :=
  leaving.foldl (fun e (id, r) => e.disconnect id r) e

/-- Leave every peer. -/
def close (e : Engine σ) : Engine σ :=
  e.disconnectAll (e.peers.keys.map fun id => (id, .requested))

/-! ## What a removal changes -/

/-- What becomes visible when a session ends. -/
def farewell (id : PeerId) (reason : Option Reason) : List Event :=
  reason.elim [] (fun r => [.sent id (.disconnect r)]) ++ [.closed id]

/-- Removing an unknown peer changes nothing. -/
theorem remove_of_unknown {e : Engine σ} {id : PeerId} (h : e.peers[id]? = none)
    (r : Option Reason) : e.remove id r = e := by
  simp [remove, h]

/-- Releasing an object changes the candidates only. -/
theorem releaseItem_eq (e : Engine σ) (i : Item) :
    e.releaseItem i = { e with candidates := (e.releaseItem i).candidates } := by
  unfold releaseItem
  split <;> rfl

/-- Releasing several objects changes the candidates only. -/
theorem releaseItems_eq (e : Engine σ) (items : List Item) :
    e.releaseItems items = { e with candidates := (e.releaseItems items).candidates } := by
  unfold releaseItems
  induction items generalizing e with
  | nil => rfl
  | cons i rest ih =>
    rw [List.foldl_cons, ih, releaseItem_eq e i]

/-- Releasing the reservations of a peer changes the candidates only. -/
theorem releaseReservations_eq (e : Engine σ) (p : Peer) :
    e.releaseReservations p = { e with candidates := (e.releaseReservations p).candidates } :=
  e.releaseItems_eq p.reserved.keys

/-- A removal erases the record, gives back what was asked of the peer, and says farewell. -/
theorem remove_eq {e : Engine σ} {id : PeerId} {p : Peer} (hp : e.peers[id]? = some p)
    (r : Option Reason) :
    ∃ requested issueDue metrics, e.remove id r =
      { e with
        peers := e.peers.erase id
        candidates := (e.remove id r).candidates
        requested := requested
        issueDue := issueDue
        metrics := metrics
        journal := e.journal ++ farewell id r } := by
  unfold remove
  simp only [hp]
  rw [releaseReservations_eq, releaseRequests]
  cases r <;> split <;>
    simp [gaugePeers, record, sayGoodbye, send, farewell]

/-- A removal leaves the ledger alone. -/
theorem ledger_remove (e : Engine σ) (id : PeerId) (r : Option Reason) :
    (e.remove id r).ledger = e.ledger := by
  cases hp : e.peers[id]? with
  | none => rw [remove_of_unknown hp]
  | some p =>
    obtain ⟨_, _, _, eq⟩ := remove_eq hp r
    rw [eq]

/-- After a removal exactly the removed peer is gone. -/
theorem peers_remove (e : Engine σ) (id : PeerId) (r : Option Reason) (other : PeerId) :
    (e.remove id r).peers[other]? = if other = id then none else e.peers[other]? := by
  cases hp : e.peers[id]? with
  | none =>
    rw [remove_of_unknown hp]
    split <;> simp_all
  | some p =>
    obtain ⟨requested, issueDue, metrics, eq⟩ := remove_eq hp r
    rw [eq]
    simp only [Std.TreeMap.getElem?_erase, Std.LawfulEqCmp.compare_eq_iff_eq]
    by_cases h : other = id
    · simp [h]
    · simp [h, Ne.symm h]

/-- Only released objects become candidates. -/
theorem mem_items_releaseItems {e : Engine σ} {items : List Item} {i : Item}
    (h : i ∈ (e.releaseItems items).candidates.items) : i ∈ e.candidates.items ∨ i ∈ items := by
  induction items generalizing e with
  | nil => exact .inl h
  | cons k rest ih =>
    rcases ih h with h | h
    · unfold releaseItem at h
      split at h
      · simp only [CandidateQueue.items_requeue, List.mem_append, List.mem_singleton] at h
        rcases h with h | rfl
        · exact .inl (CandidateQueue.mem_items_erase.1 h).1
        · exact .inr (List.mem_cons_self ..)
      · exact .inl h
    · exact .inr (List.mem_cons_of_mem _ h)

/-- Releasing objects keeps the candidates distinct. -/
theorem distinct_releaseItems {e : Engine σ} (h : e.candidates.Distinct) (items : List Item) :
    (e.releaseItems items).candidates.Distinct := by
  unfold releaseItems
  induction items generalizing e with
  | nil => exact h
  | cons i rest ih =>
    refine ih ?_
    unfold releaseItem
    split
    · exact h.requeue i _
    · exact h

/-- After a removal the candidates are those after the release of the reservations, for which the
removed peer does not count any more. -/
theorem candidates_remove {e : Engine σ} {id : PeerId} {p : Peer} (hp : e.peers[id]? = some p)
    (r : Option Reason) :
    ∃ e' : Engine σ, e'.candidates = e.candidates ∧ e'.peers = e.peers.erase id ∧
      e'.quarantine = e.quarantine ∧
        (e.remove id r).candidates = (e'.releaseReservations p).candidates := by
  unfold remove
  simp only [hp]
  refine ⟨_, ?_, ?_, ?_, rfl⟩ <;> unfold releaseRequests <;> cases r <;> split <;> rfl

/-- A removal makes candidates only of objects that were reserved on the removed peer. -/
theorem mem_items_remove {e : Engine σ} {id : PeerId} {p : Peer} (hp : e.peers[id]? = some p)
    {r : Option Reason} {i : Item} (h : i ∈ (e.remove id r).candidates.items) :
    i ∈ e.candidates.items ∨ p.reserved.contains i = true := by
  obtain ⟨e', same, -, -, eq⟩ := candidates_remove hp r
  rw [eq] at h
  exact same ▸ (mem_items_releaseItems h).imp_right Std.TreeMap.mem_keys.1

/-- A removal keeps the candidates distinct. -/
theorem distinct_remove {e : Engine σ} (h : e.candidates.Distinct) (id : PeerId)
    (r : Option Reason) : (e.remove id r).candidates.Distinct := by
  cases hp : e.peers[id]? with
  | none => exact (remove_of_unknown hp r).symm ▸ h
  | some p =>
    obtain ⟨e', same, -, -, eq⟩ := candidates_remove hp r
    rw [eq]
    exact distinct_releaseItems (same.symm ▸ h) p.reserved.keys

/-- After several removals exactly the removed peers are gone. -/
theorem peers_disconnectAll (e : Engine σ) (leaving : List (PeerId × Reason)) (id : PeerId) :
    (e.disconnectAll leaving).peers[id]? =
      if id ∈ leaving.map (·.1) then none else e.peers[id]? := by
  unfold disconnectAll
  induction leaving generalizing e with
  | nil => simp
  | cons l rest ih =>
    rw [List.foldl_cons, ih]
    simp only [disconnect, peers_remove, List.map_cons, List.mem_cons]
    by_cases here : id = l.1
    · simp [here]
    · simp only [here, false_or, if_false]

/-- Several removals change what a single one changes. -/
theorem disconnectAll_eq (e : Engine σ) (leaving : List (PeerId × Reason)) :
    ∃ peers candidates requested issueDue metrics journal, e.disconnectAll leaving =
      { e with
        peers := peers
        candidates := candidates
        requested := requested
        issueDue := issueDue
        metrics := metrics
        journal := journal } := by
  unfold disconnectAll
  induction leaving generalizing e with
  | nil => exact ⟨_, _, _, _, _, _, rfl⟩
  | cons l rest ih =>
    obtain ⟨peers, candidates, requested, issueDue, metrics, journal, eq⟩ := ih (e.remove l.1 l.2)
    refine ⟨peers, candidates, requested, issueDue, metrics, journal, ?_⟩
    refine eq.trans ?_
    cases hp : e.peers[l.1]? with
    | none => rw [remove_of_unknown hp]
    | some p =>
      obtain ⟨_, _, _, eq⟩ := remove_eq hp (some l.2)
      rw [eq]

end BlockRelay.Engine
