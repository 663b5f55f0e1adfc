/-
# What a pass asks for

A pass asks every peer that is caught up with and that is not busy for the blocks in front of its
queue, with one message, and no block of two peers (`Engine.Issue`).  It passes over the blocks that
the cache of requests remembers.  As long as the cache has room for what is asked for, it forgets
nothing in between: nothing is asked for that was remembered before, and a peer that is asked for
fewer blocks than it may be has no other one in its queue (`issue_disjoint`).
-/
import Mathlib.Data.List.Induction
import BlockRelay.Ledger.Chain
import BlockRelay.Proofs.Caches
import BlockRelay.Proofs.Queues

namespace BlockRelay

/-- What was asked of a peer with nothing outstanding is outstanding, each block with the time. -/
theorem Peer.blocksAsked_requestBlocks {p : Peer} {ids : List BlockId} {now : Nat}
    (idle : p.blocksAsked.isEmpty = true) (distinct : (ids.map (·.hash)).Nodup) {b : BlockId}
    (mem : b ∈ ids) : (p.requestBlocks ids now).blocksAsked[b.hash]? = some ⟨b, now⟩ := by
  -- a hash that is noted already keeps its block, so that no two blocks may have one hash
  suffices ∀ (ids : List BlockId) (p : Peer), (ids.map (·.hash)).Nodup →
      (∀ b ∈ ids, p.blocksAsked[b.hash]? = none) → ∀ b : BlockId,
        (b ∈ ids ∨ p.blocksAsked[b.hash]? = some ⟨b, now⟩) →
          (p.requestBlocks ids now).blocksAsked[b.hash]? = some ⟨b, now⟩ by
    refine this ids p distinct (fun b _ => ?_) b (.inl mem)
    rw [Std.TreeMap.getElem?_of_isEmpty idle]
  intro ids
  induction ids with
  | nil => exact fun _ _ _ b known => known.resolve_left List.not_mem_nil
  | cons first rest ih =>
    intro p distinct new b known
    obtain ⟨out, distinct⟩ := List.nodup_cons.1 distinct
    obtain ⟨here, later⟩ := List.forall_mem_cons.1 new
    rw [requestBlocks, List.foldl_cons]
    have noted (hash : Hash) : (p.requestBlock first now).blocksAsked[hash]? =
        if first.hash = hash then some ⟨first, now⟩ else p.blocksAsked[hash]? := by
      rw [requestBlock, Std.TreeMap.getElem?_insert, here]
      simp only [Std.LawfulEqCmp.compare_eq_iff_eq, Option.elim_none]
    refine ih (p.requestBlock first now) distinct (fun other mem => ?_) b ?_
    · have ne : first.hash ≠ other.hash := fun same => out (List.mem_map.2 ⟨other, mem, same.symm⟩)
      rw [noted, if_neg ne]
      exact later other mem
    · rw [noted]
      rcases known with mem | known
      · rcases List.mem_cons.1 mem with rfl | mem
        · exact .inr (if_pos rfl)
        · exact .inl mem
      · right
        have ne : first.hash ≠ b.hash := by
          intro same
          rw [← same, here] at known
          cases known
        rw [if_neg ne]
        exact known

namespace Engine

variable {σ : Type} {e : Engine σ}

/-! ## Whom a pass asks -/

/-- Whether a pass would ask a peer for something: it is caught up with and not busy, it may be
asked for something, and some block of its queue is not remembered. -/
def CanAsk (e : Engine σ) (p : Peer) : Prop :=
  p.needFromPeer = true ∧ p.isBusy = false ∧ 0 < e.config.sync.maxPerPeer ∧
    ∃ b ∈ p.toFetch, e.requested.contains b.hash e.now = false

/-- A pass begins with an empty batch for whom it would not ask. -/
theorem batchFor_eq_nil_iff {p : Peer} :
    ({ engine := e } : IssuePass σ).batchFor p = [] ↔ ¬ e.CanAsk p := by
  unfold IssuePass.batchFor CanAsk
  split
  next free =>
    simp only [Bool.and_eq_true, Bool.not_eq_true'] at free
    simp only [free, true_and, List.take_eq_nil_iff, List.filter_eq_nil_iff]
    simp [Nat.pos_iff_ne_zero, or_iff_not_imp_left]
  next busy =>
    simp only [Bool.and_eq_true, Bool.not_eq_true'] at busy
    exact ⟨fun _ asks => busy ⟨asks.1, asks.2.1⟩, fun _ => rfl⟩

namespace IssuePass

variable {s : IssuePass σ}

/-- More visits ask for no fewer blocks. -/
theorem total_le_foldl_visit (visits : List (PeerId × Peer)) (s : IssuePass σ) :
    s.total ≤ (visits.foldl (fun s v => s.visit v.1 v.2) s).total := by
  induction visits generalizing s with
  | nil => exact Nat.le_refl _
  | cons v rest ih =>
    refine Nat.le_trans ?_ (ih (s.visit v.1 v.2))
    unfold visit
    split
    · exact Nat.le_refl _
    · exact Nat.le_add_right ..

/-- Visits to peers with empty batches do nothing. -/
theorem foldl_visit_of_silent {visits : List (PeerId × Peer)}
    (silent : ∀ v ∈ visits, s.batchFor v.2 = []) :
    visits.foldl (fun s v => s.visit v.1 v.2) s = s := by
  induction visits with
  | nil => rfl
  | cons v rest ih =>
    obtain ⟨here, later⟩ := List.forall_mem_cons.1 silent
    have same : s.visit v.1 v.2 = s := by
      unfold visit
      rw [here]
    rw [List.foldl_cons, same]
    exact ih later

/-- If visits ask for nothing, then all batches were empty when they began. -/
theorem batchFor_of_total_eq {visits : List (PeerId × Peer)}
    (nothing : (visits.foldl (fun s v => s.visit v.1 v.2) s).total = s.total) :
    ∀ v ∈ visits, s.batchFor v.2 = [] := by
  induction visits with
  | nil => exact List.forall_mem_nil _
  | cons v rest ih =>
    rw [List.foldl_cons] at nothing
    have grown := total_le_foldl_visit rest (s.visit v.1 v.2)
    rw [nothing] at grown
    cases batch : s.batchFor v.2 with
    | nil =>
      simp only [visit, batch] at nothing
      exact List.forall_mem_cons.2 ⟨batch, ih nothing⟩
    | cons b more =>
      simp only [visit, batch, List.length_cons] at grown
      omega

end IssuePass

/-- A pass asks for nothing exactly if there is nobody whom it would ask. -/
theorem issueRequests_eq_zero_iff :
    e.issueRequests.1 = 0 ↔
      ∀ (id : PeerId) (p : Peer), e.peers[id]? = some p → ¬ e.CanAsk p := by
  constructor
  · intro nothing id p hp
    exact batchFor_eq_nil_iff.1 (IssuePass.batchFor_of_total_eq nothing _
      (Std.TreeMap.mem_toList_iff_getElem?_eq_some.2 hp))
  · intro nobody
    exact congrArg IssuePass.total (IssuePass.foldl_visit_of_silent fun v mem =>
      batchFor_eq_nil_iff.2 (nobody v.1 v.2 (Std.TreeMap.mem_toList_iff_getElem?_eq_some.1 mem)))

/-- Such a pass has no effect. -/
theorem issueRequests_of_silent
    (nobody : ∀ (id : PeerId) (p : Peer), e.peers[id]? = some p → ¬ e.CanAsk p) :
    e.issueRequests = (0, e) := by
  refine Prod.ext (issueRequests_eq_zero_iff.2 nobody) ?_
  exact congrArg IssuePass.engine (IssuePass.foldl_visit_of_silent fun v mem =>
    batchFor_eq_nil_iff.2 (nobody v.1 v.2 (Std.TreeMap.mem_toList_iff_getElem?_eq_some.1 mem)))

/-! ## The batches of a pass -/

/-- The hashes of the blocks in several batches. -/
def batchHashes (batches : List (PeerId × List BlockId)) : List Hash :=
  batches.flatMap fun batch => batch.2.map (·.hash)

/-- One more batch. -/
theorem batchHashes_concat (batches : List (PeerId × List BlockId)) (id : PeerId)
    (batch : List BlockId) :
    batchHashes (batches ++ [(id, batch)]) = batchHashes batches ++ batch.map (·.hash) := by
  simp [batchHashes]

/-- The effect of a pass, which answers with `n`.  Each peer in `batches` is sent one request, for
its batch.  It is registered, caught up with and not busy, and its batch is a part of its queue, in
the same order and no longer than it may be.  The batch is all that is outstanding from the peer
afterwards, with the time; nothing else in its record changes, and no other record does.  No block
is in two batches, or in one batch twice.  All of them are stored in the cache of requests.  A peer
that is caught up with and not busy got as many blocks as it may, unless the other blocks of its
queue are in batches or were remembered before. -/
structure Issue (e : Engine σ) (batches : List (PeerId × List BlockId)) (n : Nat)
    (e' : Engine σ) : Prop where
  journal : e'.journal =
    e.journal ++ batches.map fun batch => .sent batch.1 (.fetch (batch.2.map BlockId.item))
  once : (batches.map (·.1)).Nodup
  asked : ∀ (id : PeerId) (batch : List BlockId), (id, batch) ∈ batches →
    ∃ p, e.peers[id]? = some p ∧ p.needFromPeer = true ∧ p.isBusy = false ∧
      batch ≠ [] ∧ batch.Sublist p.toFetch ∧ batch.length ≤ e.config.sync.maxPerPeer
  noted : ∀ (id : PeerId) (batch : List BlockId), (id, batch) ∈ batches →
    ∃ p p', e.peers[id]? = some p ∧ e'.peers[id]? = some p' ∧
      p' = { p with blocksAsked := p'.blocksAsked } ∧
      (∀ hash : Hash, p'.blocksAsked.contains hash = true ↔ hash ∈ batch.map (·.hash)) ∧
      ∀ b ∈ batch, p'.blocksAsked[b.hash]? = some ⟨b, e.now⟩
  others : ∀ id : PeerId, id ∉ batches.map (·.1) → e'.peers[id]? = e.peers[id]?
  disjoint : (batchHashes batches).Nodup
  requested : e'.requested =
    (batchHashes batches).foldl (fun c hash => c.insert hash () e.now) e.requested
  count : n = (batches.map (·.2.length)).sum
  filled : ∀ (id : PeerId) (p : Peer), e.peers[id]? = some p → p.needFromPeer = true →
    p.isBusy = false → (∃ b ∈ p.toFetch, b.hash ∉ batchHashes batches ∧
      e.requested.contains b.hash e.now = false) →
    e.config.sync.maxPerPeer = 0 ∨
      ∃ batch, (id, batch) ∈ batches ∧ batch.length = e.config.sync.maxPerPeer
  rest : e' = { e with peers := e'.peers, requested := e'.requested, journal := e'.journal }

/-- What is known in a pass after `visits`. -/
structure Issued (e : Engine σ) (visits : List (PeerId × Peer))
    (batches : List (PeerId × List BlockId)) (s : IssuePass σ) : Prop where
  visited : (batches.map (·.1)).Sublist (visits.map (·.1))
  journal : s.engine.journal =
    e.journal ++ batches.map fun batch => .sent batch.1 (.fetch (batch.2.map BlockId.item))
  asked : ∀ (id : PeerId) (batch : List BlockId), (id, batch) ∈ batches →
    ∃ p, e.peers[id]? = some p ∧ s.engine.peers[id]? = some (p.requestBlocks batch e.now) ∧
      p.needFromPeer = true ∧ p.isBusy = false ∧
      batch ≠ [] ∧ batch.Sublist p.toFetch ∧ batch.length ≤ e.config.sync.maxPerPeer
  others : ∀ id : PeerId, id ∉ batches.map (·.1) → s.engine.peers[id]? = e.peers[id]?
  claimed : ∀ hash : Hash, s.claimed.contains hash = true ↔ hash ∈ batchHashes batches
  disjoint : (batchHashes batches).Nodup
  requested : s.engine.requested =
    (batchHashes batches).foldl (fun c hash => c.insert hash () e.now) e.requested
  count : s.total = (batches.map (·.2.length)).sum
  filled : ∀ (id : PeerId) (p : Peer), (id, p) ∈ visits → p.needFromPeer = true →
    p.isBusy = false → (∃ b ∈ p.toFetch, b.hash ∉ batchHashes batches ∧
      e.requested.contains b.hash e.now = false) →
    e.config.sync.maxPerPeer = 0 ∨
      ∃ batch, (id, batch) ∈ batches ∧ batch.length = e.config.sync.maxPerPeer
  unasked : e.requested.size + e.requested.missing (batchHashes batches) ≤ e.requested.capacity →
    ∀ hash ∈ batchHashes batches, e.requested.contains hash e.now = false
  rest : s.engine =
    { e with
      peers := s.engine.peers
      requested := s.engine.requested
      journal := s.engine.journal }

namespace Issued

variable {e : Engine σ} {visits : List (PeerId × Peer)} {batches : List (PeerId × List BlockId)}
  {s : IssuePass σ} {id : PeerId} {p : Peer}

/-- At the beginning of a pass. -/
theorem start (e : Engine σ) : Issued e [] [] { engine := e } where
  visited := .refl _
  journal := (List.append_nil _).symm
  asked := nofun
  others _ _ := rfl
  claimed hash := by simp [batchHashes]
  disjoint := List.nodup_nil
  requested := rfl
  count := rfl
  filled := nofun
  unasked _ := nofun
  rest := rfl

/-- Time does not pass in a pass. -/
theorem now (h : Issued e visits batches s) : s.engine.now = e.now := by
  rw [h.rest]
  rfl

/-- The limits do not change in a pass. -/
theorem config (h : Issued e visits batches s) : s.engine.config = e.config := by
  rw [h.rest]

/-- A peer that was caught up with and not busy got as many blocks as it may, or the others of its
queue are claimed or remembered. -/
theorem mem_batchFor (h : Issued e visits batches s) (needed : p.needFromPeer = true)
    (free : p.isBusy = false) {b : BlockId} (queued : b ∈ p.toFetch)
    (unclaimed : b.hash ∉ batchHashes batches)
    (forgotten : e.requested.contains b.hash e.now = false) :
    b ∈ s.batchFor p ∨ (s.batchFor p).length = e.config.sync.maxPerPeer := by
  have free_of :
      !s.claimed.contains b.hash && !s.engine.requested.contains b.hash s.engine.now := by
    rw [Bool.and_eq_true, Bool.not_eq_true', Bool.not_eq_true']
    constructor
    · rw [← Bool.not_eq_true, h.claimed]
      exact unclaimed
    · rw [← Bool.not_eq_true, h.requested, h.now]
      intro found
      rcases AgingCache.contains_of_foldl_insert found with mem | known
      · exact unclaimed mem
      · rw [known] at forgotten
        cases forgotten
  have mem : b ∈ p.toFetch.filter fun id => !s.claimed.contains id.hash &&
      !s.engine.requested.contains id.hash s.engine.now := List.mem_filter.2 ⟨queued, free_of⟩
  unfold IssuePass.batchFor
  rw [needed, free, h.config]
  simp only [Bool.not_false, Bool.and_self, if_true]
  generalize p.toFetch.filter _ = candidates at mem
  by_cases short : candidates.length ≤ e.config.sync.maxPerPeer
  · rw [List.take_of_length_le short]
    exact .inl mem
  · rw [List.length_take]
    omega

/-- A visit to a peer that is asked for nothing. -/
theorem pass (h : Issued e visits batches s) (silent : s.batchFor p = []) :
    Issued e (visits ++ [(id, p)]) batches (s.visit id p) := by
  have same : s.visit id p = s := by
    unfold IssuePass.visit
    rw [silent]
  rw [same]
  refine { h with visited := ?_, filled := ?_ }
  · rw [List.map_append]
    exact h.visited.trans (List.sublist_append_left ..)
  · intro other q mem needed free left
    rcases List.mem_append.1 mem with earlier | now
    · exact h.filled other q earlier needed free left
    · cases List.mem_singleton.1 now
      obtain ⟨b, queued, unclaimed, forgotten⟩ := left
      rcases h.mem_batchFor needed free queued unclaimed forgotten with asked | full
      · rw [silent] at asked
        cases asked
      · rw [silent] at full
        exact .inl full.symm

/-- A visit to a peer that is asked for some blocks. -/
theorem ask (h : Issued e visits batches s) (new : id ∉ visits.map (·.1))
    (hp : e.peers[id]? = some p) (distinct : (p.toFetch.map (·.hash)).Nodup)
    (nonempty : s.batchFor p ≠ []) :
    Issued e (visits ++ [(id, p)]) (batches ++ [(id, s.batchFor p)]) (s.visit id p) := by
  have unbatched : id ∉ batches.map (·.1) := fun mem => new (h.visited.subset mem)
  have visit : s.visit id p =
      { claimed := (s.batchFor p).foldl (fun c id => c.insert id.hash) s.claimed
        total := s.total + (s.batchFor p).length
        engine := s.engine.requestBlocks id (s.batchFor p) } := by
    unfold IssuePass.visit
    split
    next none => exact absurd none nonempty
    next => rfl
  obtain ⟨_, _, asked⟩ := requestBlocks_eq s.engine id (s.batchFor p)
  obtain ⟨needed, free⟩ := IssuePass.free_of_batchFor_ne_nil nonempty
  have record : (s.visit id p).engine.peers[id]? =
      some (p.requestBlocks (s.batchFor p) e.now) := by
    rw [visit, peers_requestBlocks, if_pos rfl, h.others id unbatched, hp, h.now, Option.map_some]
  constructor
  case visited =>
    rw [List.map_append, List.map_append]
    exact h.visited.append (.refl _)
  case journal =>
    rw [visit, asked, h.journal, List.map_append, List.append_assoc]
    rfl
  case asked =>
    intro other batch mem
    rcases List.mem_append.1 mem with earlier | now
    · have ne : other ≠ id := by
        rintro rfl
        exact unbatched (List.mem_map_of_mem earlier)
      obtain ⟨q, hq, hq', facts⟩ := h.asked other batch earlier
      refine ⟨q, hq, ?_, facts⟩
      rw [visit, peers_requestBlocks, if_neg ne]
      exact hq'
    · cases List.mem_singleton.1 now
      have short := s.length_batchFor_le p
      rw [h.config] at short
      exact ⟨p, hp, record, needed, free, nonempty, s.batchFor_sublist p, short⟩
  case others =>
    intro other out
    rw [List.map_append, List.mem_append, not_or] at out
    have ne : other ≠ id := by
      rintro rfl
      exact out.2 (List.mem_singleton.2 rfl)
    rw [visit, peers_requestBlocks, if_neg ne]
    exact h.others other out.1
  case claimed =>
    intro hash
    rw [IssuePass.contains_claimed_visit, h.claimed, batchHashes_concat, List.mem_append, or_comm]
  case disjoint =>
    rw [batchHashes_concat, List.nodup_append]
    refine ⟨h.disjoint, distinct.sublist ((s.batchFor_sublist p).map _), ?_⟩
    rintro hash earlier _ now rfl
    obtain ⟨b, mem, rfl⟩ := List.mem_map.1 now
    rw [← h.claimed, IssuePass.unclaimed_of_mem_batchFor mem] at earlier
    cases earlier
  case requested =>
    rw [visit, requested_requestBlocks, h.requested, h.now, batchHashes_concat, List.foldl_append]
  case count =>
    rw [visit, h.count]
    simp
  case filled =>
    intro other q mem needed' free' left
    obtain ⟨b, queued, unclaimed, forgotten⟩ := left
    rw [batchHashes_concat, List.mem_append, not_or] at unclaimed
    rcases List.mem_append.1 mem with earlier | now
    · have before := h.filled other q earlier needed' free' ⟨b, queued, unclaimed.1, forgotten⟩
      refine before.imp_right ?_
      rintro ⟨batch, mem, full⟩
      exact ⟨batch, List.mem_append_left _ mem, full⟩
    · cases List.mem_singleton.1 now
      rcases h.mem_batchFor needed free queued unclaimed.1 forgotten with asked | full
      · exact absurd (List.mem_map_of_mem asked) unclaimed.2
      · exact .inr ⟨_, List.mem_append_right _ (List.mem_singleton.2 rfl), full⟩
  case unasked =>
    intro room hash mem
    rw [batchHashes_concat] at room mem
    have space : e.requested.size + e.requested.missing (batchHashes batches) ≤
        e.requested.capacity :=
      (Nat.add_le_add_left (AgingCache.missing_le_append ..) _).trans room
    rcases List.mem_append.1 mem with earlier | now
    · exact h.unasked space hash earlier
    · -- with room nothing was forgotten since the pass began
      obtain ⟨b, hb, rfl⟩ := List.mem_map.1 now
      have unasked := IssuePass.unasked_of_mem_batchFor hb
      rw [← Bool.not_eq_true] at unasked ⊢
      intro known
      apply unasked
      rw [h.requested, h.now, AgingCache.contains_foldl_insert h.disjoint space]
      exact .inr known
  case rest =>
    rw [visit, asked, h.rest]

end Issued

/-- Visits to different peers, each of which has a queue without repetitions. -/
theorem issued_foldl (e : Engine σ)
    (queues : ∀ (id : PeerId) (p : Peer), e.peers[id]? = some p → (p.toFetch.map (·.hash)).Nodup)
    (visits : List (PeerId × Peer)) (distinct : (visits.map (·.1)).Nodup)
    (current : ∀ v ∈ visits, e.peers[v.1]? = some v.2) :
    ∃ batches, Issued e visits batches
      (visits.foldl (fun s v => s.visit v.1 v.2) { engine := e }) := by
  induction visits using List.reverseRecOn with
  | nil => exact ⟨[], .start e⟩
  | append_singleton visits v ih =>
    rw [List.map_append, List.nodup_append] at distinct
    have new : v.1 ∉ visits.map (·.1) := fun mem =>
      distinct.2.2 v.1 mem v.1 (List.mem_singleton.2 rfl) rfl
    have hp : e.peers[v.1]? = some v.2 := current v (by simp)
    obtain ⟨batches, h⟩ := ih distinct.1 fun u hu => current u (List.mem_append_left _ hu)
    rw [List.foldl_concat]
    generalize visits.foldl (fun (s : IssuePass σ) v => s.visit v.1 v.2) { engine := e } = s at h ⊢
    by_cases silent : s.batchFor v.2 = []
    · exact ⟨_, h.pass silent⟩
    · exact ⟨_, h.ask new hp (queues v.1 v.2 hp) silent⟩

/-- A pass over all peers, whose queues are without repetitions. -/
theorem issued_issueRequests (e : Engine σ)
    (queues : ∀ (id : PeerId) (p : Peer), e.peers[id]? = some p →
      (p.toFetch.map (·.hash)).Nodup) :
    ∃ batches s, Issued e e.peers.toList batches s ∧
      e.issueRequests.1 = s.total ∧ e.issueRequests.2 = s.engine := by
  obtain ⟨batches, issued⟩ := issued_foldl e queues e.peers.toList e.nodup_peers fun v hv =>
    Std.TreeMap.mem_toList_iff_getElem?_eq_some.1 hv
  exact ⟨batches, _, issued, rfl, rfl⟩

/-- The effect of a pass, from what is known at its end. -/
theorem Issued.issue {e : Engine σ} {batches : List (PeerId × List BlockId)} {s : IssuePass σ}
    (h : Issued e e.peers.toList batches s)
    (queues : ∀ (id : PeerId) (p : Peer), e.peers[id]? = some p →
      (p.toFetch.map (·.hash)).Nodup) : Issue e batches s.total s.engine where
  journal := h.journal
  once := e.nodup_peers.sublist h.visited
  asked id batch mem := by
    obtain ⟨p, hp, -, facts⟩ := h.asked id batch mem
    exact ⟨p, hp, facts⟩
  noted id batch mem := by
    obtain ⟨p, hp, hp', -, free, -, part, -⟩ := h.asked id batch mem
    rw [Peer.isBusy, Bool.or_eq_false_iff, Bool.not_eq_false'] at free
    have distinct := (queues id p hp).sublist (part.map _)
    refine ⟨p, _, hp, hp', p.requestBlocks_eq batch e.now, fun hash => ?_, fun b hb => ?_⟩
    · rw [Peer.contains_blocksAsked_requestBlocks, Std.TreeMap.contains_of_isEmpty free.2]
      simp
    · exact Peer.blocksAsked_requestBlocks free.2 distinct hb
  others := h.others
  disjoint := h.disjoint
  requested := h.requested
  count := h.count
  filled id p hp := h.filled id p (Std.TreeMap.mem_toList_iff_getElem?_eq_some.2 hp)
  rest := h.rest

variable [Ledger σ]

/-- **Disjoint requests.**  In every reachable state a pass has its effect, and the heights of the
blocks that a peer is asked for ascend.  If the cache of requests has room for those of them that
have no entry in it, nothing is asked for that the cache remembered before, and it remembers all
blocks in the queue of every peer that could have been asked for more. -/
theorem issue_disjoint {config : Config} {ledger : σ} {clock : Clock} {start e : Engine σ}
    {past : List (Moment σ)} (started : Engine.start config ledger clock = .ok start)
    (run : Run start past e) :
    ∃ batches, Issue e batches e.issueRequests.1 e.issueRequests.2 ∧
      (∀ (id : PeerId) (batch : List BlockId), (id, batch) ∈ batches →
        batch.Pairwise fun a b => a.number < b.number) ∧
      (e.requested.size + e.requested.missing (batchHashes batches) ≤ e.requested.capacity →
        (∀ hash ∈ batchHashes batches, e.requested.contains hash e.now = false) ∧
        ∀ (id : PeerId) (p : Peer), e.peers[id]? = some p → p.needFromPeer = true →
          p.isBusy = false → 0 < e.config.sync.maxPerPeer →
          (∀ batch, (id, batch) ∈ batches → batch.length < e.config.sync.maxPerPeer) →
          ∀ b ∈ p.toFetch, e.issueRequests.2.requested.contains b.hash e.now = true) := by
  have stretches : e.QueuesConsecutive :=
    run.invariant (.start started) (fun s h => h.step s) fun _ _ h => h
  have stretch {id : PeerId} {p : Peer} (hp : e.peers[id]? = some p) : Consecutive p.toFetch :=
    stretches id p.plan (planOf_eq hp)
  obtain ⟨batches, s, issued, answer, state⟩ :=
    issued_issueRequests e fun id p hp => (stretch hp).nodup_hashes
  rw [answer, state]
  refine ⟨batches, issued.issue fun id p hp => (stretch hp).nodup_hashes, ?_, ?_⟩
  · intro id batch mem
    obtain ⟨p, hp, -, -, -, -, part, -⟩ := issued.asked id batch mem
    exact ((stretch hp).ascending.sublist part).imp UInt64.lt_iff_toNat_lt.2
  · intro room
    refine ⟨issued.unasked room, fun id p hp needed free some below b queued => ?_⟩
    rw [issued.requested, AgingCache.contains_foldl_insert issued.disjoint room]
    by_contra left
    rw [not_or, Bool.not_eq_true] at left
    have mem := Std.TreeMap.mem_toList_iff_getElem?_eq_some.2 hp
    rcases issued.filled id p mem needed free ⟨b, queued, left⟩ with none | ⟨batch, got, full⟩
    · omega
    · have short := below batch got
      omega

/-- Two peers with one queue that may be asked for one block each: one of them is asked for the
first block, and the other one for the second. -/
theorem issue_to_two_peers :
    ∃ (start e : Engine ChainLedger) (past : List (Moment ChainLedger))
        (batches : List (PeerId × List BlockId)),
      Engine.start { sync := { maxPerPeer := 1 } } (.ofGenesis (.genesis 0) 0 10) {} = .ok start ∧
        Run start past e ∧ Issue e batches 2 e.issueRequests.2 ∧
          ∀ hash ∈ batchHashes batches, e.requested.contains hash e.now = false := by
  obtain ⟨start, past, e, started, run, checked⟩ := exists_run { sync := { maxPerPeer := 1 } }
    (ChainLedger.ofGenesis (.genesis 0) 0 10) {}
    ([⟨1⟩, ⟨2⟩].flatMap fun id => [.register id 2,
      .receive id (.summaryReply [(Block.bare 0).id, (Block.bare 1).id, (Block.bare 2).id] 0)])
    (fun (_, e) => e.issueRequests.1 = 2 ∧ e.requested.entries.length = 0 ∧
      2 ≤ e.requested.capacity) (by decide +kernel)
  simp only [decide_eq_true_eq] at checked
  obtain ⟨two, empty, capacity⟩ := checked
  obtain ⟨batches, issue, -, undisplaced⟩ := issue_disjoint started run
  rw [two] at issue
  refine ⟨start, e, past, batches, started, run, issue, (undisplaced ?_).1⟩
  have missing : e.requested.missing (batchHashes batches) ≤ (batchHashes batches).length :=
    List.countP_le_length
  have length : (batchHashes batches).length = 2 := by
    simpa [batchHashes, List.length_flatMap] using issue.count.symm
  rw [AgingCache.size, empty]
  omega

end Engine

end BlockRelay
