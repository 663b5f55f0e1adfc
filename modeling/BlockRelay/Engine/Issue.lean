/-
# Asking for blocks of a catch-up

Peers that are caught up with and that are not busy are asked for the blocks in
front of their queues.  A block is asked of one peer at a time: a block that was
asked for before and is not settled, or that another peer is asked for in the same
pass, is passed over.
-/
import BlockRelay.Engine.Basic

namespace BlockRelay.Engine

variable {σ : Type}

/-- A pass over the peers: the blocks asked for so far, and their number. -/
structure IssuePass (σ : Type) where
  claimed : Std.TreeSet Hash := ∅
  total : Nat := 0
  engine : Engine σ

/-- The blocks that a peer is asked for in a pass, in the order of its queue. -/
def IssuePass.batchFor (s : IssuePass σ) (p : Peer) : List BlockId :=
  if p.needFromPeer && !p.isBusy then
    let free := p.toFetch.filter fun id =>
      !s.claimed.contains id.hash && !s.engine.requested.contains id.hash s.engine.now
    free.take s.engine.config.sync.maxPerPeer
  else []

/-- A peer is asked for no more blocks at a time than it may be. -/
theorem IssuePass.length_batchFor_le (s : IssuePass σ) (p : Peer) :
    (s.batchFor p).length ≤ s.engine.config.sync.maxPerPeer := by
  unfold IssuePass.batchFor
  split
  · exact List.length_take_le ..
  · exact Nat.zero_le _

/-- A peer is asked for blocks of its queue, in their order. -/
theorem IssuePass.batchFor_sublist (s : IssuePass σ) (p : Peer) :
    (s.batchFor p).Sublist p.toFetch := by
  unfold IssuePass.batchFor
  split
  · exact (List.take_sublist ..).trans List.filter_sublist
  · exact List.nil_sublist _

/-- Only a peer that is caught up with and that is not busy is asked. -/
theorem IssuePass.free_of_batchFor_ne_nil {s : IssuePass σ} {p : Peer} (h : s.batchFor p ≠ []) :
    p.needFromPeer = true ∧ p.isBusy = false := by
  unfold IssuePass.batchFor at h
  split at h
  next free => simpa using free
  next => exact absurd rfl h

/-- No peer is asked for a block that was asked for before and is not settled. -/
theorem IssuePass.unasked_of_mem_batchFor {s : IssuePass σ} {p : Peer} {id : BlockId}
    (h : id ∈ s.batchFor p) : s.engine.requested.contains id.hash s.engine.now = false := by
  unfold IssuePass.batchFor at h
  split at h
  · have unasked := (List.mem_filter.1 (List.mem_of_mem_take h)).2
    simp only [Bool.and_eq_true, Bool.not_eq_true'] at unasked
    exact unasked.2
  · cases h

/-- No peer is asked for a block that another one is asked for in the same pass. -/
theorem IssuePass.unclaimed_of_mem_batchFor {s : IssuePass σ} {p : Peer} {id : BlockId}
    (h : id ∈ s.batchFor p) : s.claimed.contains id.hash = false := by
  unfold IssuePass.batchFor at h
  split at h
  · have free := (List.mem_filter.1 (List.mem_of_mem_take h)).2
    simp only [Bool.and_eq_true, Bool.not_eq_true'] at free
    exact free.1
  · cases h

/-- Ask a peer for a block. -/
def requestBlock (e : Engine σ) (peer : PeerId) (id : BlockId) : Engine σ :=
  { e with requested := e.requested.insert id.hash () e.now }.modifyPeer peer fun p =>
    p.requestBlock id e.now

/-- Ask a peer for several blocks, with one message. -/
def requestBlocks (e : Engine σ) (peer : PeerId) (batch : List BlockId) : Engine σ :=
  (batch.foldl (fun e id => e.requestBlock peer id) e).send peer
    (.fetch (batch.map BlockId.item))

/-- Asking a peer for blocks changes its record, and no other one. -/
theorem peers_requestBlocks (e : Engine σ) (peer : PeerId) (batch : List BlockId)
    (other : PeerId) :
    (e.requestBlocks peer batch).peers[other]? =
      if other = peer then (e.peers[other]?).map (·.requestBlocks batch e.now)
      else e.peers[other]? := by
  show (batch.foldl (fun e id => e.requestBlock peer id) e).peers[other]? = _
  induction batch generalizing e with
  | nil => simp [Peer.requestBlocks]
  | cons id rest ih =>
    rw [List.foldl_cons, ih]
    by_cases h : other = peer
    · simp only [requestBlock, peers_modifyPeer, h, if_true, Option.map_map]
      rfl
    · simp [requestBlock, h]

/-- Asking a peer for blocks queues one message, and notes that they were asked for. -/
theorem requestBlocks_eq (e : Engine σ) (peer : PeerId) (batch : List BlockId) :
    ∃ peers requested, e.requestBlocks peer batch =
      { e with
        peers := peers
        requested := requested
        journal := e.journal ++ [.sent peer (.fetch (batch.map BlockId.item))] } := by
  suffices ∃ peers requested, batch.foldl (fun e id => e.requestBlock peer id) e =
      { e with peers := peers, requested := requested } by
    obtain ⟨peers, requested, eq⟩ := this
    exact ⟨peers, requested, by rw [requestBlocks, eq]; rfl⟩
  induction batch generalizing e with
  | nil => exact ⟨_, _, rfl⟩
  | cons id rest ih => exact ih _

/-- Blocks that are asked for are stored in the cache, one after the other. -/
theorem requested_requestBlocks (e : Engine σ) (peer : PeerId) (batch : List BlockId) :
    (e.requestBlocks peer batch).requested =
      (batch.map (·.hash)).foldl (fun c hash => c.insert hash () e.now) e.requested := by
  show (batch.foldl (fun e id => e.requestBlock peer id) e).requested = _
  induction batch generalizing e with
  | nil => rfl
  | cons id rest ih => exact ih (e.requestBlock peer id)

/-- Ask one peer for its blocks. -/
def IssuePass.visit (s : IssuePass σ) (peer : PeerId) (p : Peer) : IssuePass σ :=
  match s.batchFor p with
  | [] => s
  | batch =>
    { claimed := batch.foldl (fun c id => c.insert id.hash) s.claimed
      total := s.total + batch.length
      engine := s.engine.requestBlocks peer batch }

/-- The blocks that a peer is asked for are claimed. -/
theorem IssuePass.contains_claimed_visit (s : IssuePass σ) (peer : PeerId) (p : Peer)
    (hash : Hash) : (s.visit peer p).claimed.contains hash = true ↔
      hash ∈ (s.batchFor p).map (·.hash) ∨ s.claimed.contains hash = true := by
  have claim (batch : List BlockId) (c : Std.TreeSet Hash) :
      (batch.foldl (fun c id => c.insert id.hash) c).contains hash = true ↔
        hash ∈ batch.map (·.hash) ∨ c.contains hash = true := by
    induction batch generalizing c with
    | nil => simp
    | cons id rest ih =>
      rw [List.foldl_cons, ih, Std.TreeSet.contains_insert, Bool.or_eq_true, beq_iff_eq,
        Std.LawfulEqCmp.compare_eq_iff_eq, List.map_cons, List.mem_cons, eq_comm (a := hash)]
      exact or_left_comm.trans or_assoc.symm
  unfold IssuePass.visit
  split
  next none => simp [none]
  next => exact claim ..

/-- A visit changes no record but that of the visited peer. -/
theorem IssuePass.peers_visit (s : IssuePass σ) {peer other : PeerId} (ne : other ≠ peer)
    (p : Peer) : (s.visit peer p).engine.peers[other]? = s.engine.peers[other]? := by
  unfold IssuePass.visit
  split
  · rfl
  · exact (peers_requestBlocks ..).trans (if_neg ne)

/-- Ask every peer for its blocks.  The answer is the number of blocks asked for. -/
def issueRequests (e : Engine σ) : Nat × Engine σ :=
  let s := e.peers.toList.foldl (fun s (id, p) => s.visit id p) { engine := e : IssuePass σ }
  (s.total, s.engine)

/-- **The rule of passes.**  What holds at the start of a pass over the peers and is preserved by
every visit holds at its end.  A visit finds the record of its peer as it was at the start, because
it changes the record of the visited peer only. -/
theorem issueRequests_induction {P : IssuePass σ → Prop} (e : Engine σ) (start : P { engine := e })
    (visit : ∀ (s : IssuePass σ) (id : PeerId) (p : Peer), s.engine.peers[id]? = some p → P s →
      P (s.visit id p)) :
    P (e.peers.toList.foldl (fun s (v : PeerId × Peer) => s.visit v.1 v.2) { engine := e }) := by
  suffices ∀ (visits : List (PeerId × Peer)) (s : IssuePass σ), (visits.map (·.1)).Nodup →
      (∀ v ∈ visits, s.engine.peers[v.1]? = some v.2) → P s →
        P (visits.foldl (fun s v => s.visit v.1 v.2) s) by
    exact this _ _ e.nodup_peers
      (fun v hv => Std.TreeMap.mem_toList_iff_getElem?_eq_some.1 hv) start
  intro visits
  induction visits with
  | nil => exact fun s _ _ h => h
  | cons v rest ih =>
    intro s distinct current h
    rw [List.map_cons, List.nodup_cons] at distinct
    refine ih _ distinct.2 (fun u hu => ?_) (visit s v.1 v.2 (current v (List.mem_cons_self ..)) h)
    -- the visit to `v` leaves the record of `u` as it was when the pass began
    have ne : u.1 ≠ v.1 := fun eq => distinct.1 (eq ▸ List.mem_map_of_mem hu)
    rw [← current u (List.mem_cons_of_mem _ hu)]
    exact s.peers_visit ne v.2

/-- Ask for blocks if that is due and not suspended. -/
def issueTick (e : Engine σ) : Nat × Engine σ :=
  if e.suspended then (0, e)
  else if e.issueDue then { e with issueDue := false }.issueRequests
  else (0, e)

end BlockRelay.Engine
