/-
# The fronts of queues

When a block is submitted it leaves the front of every queue that it is in front of, and no other
queue changes (`Engine.toFetch_applyFetched`).  What comes to the front is higher than the block,
since queues are stretches (`Engine.fronts_applyFetched`).

A block that is taken from a front is settled in the same step, or the peers that had it in front
are left.  So between two steps no block is in process with any peer (`Engine.Run.atRest`).
-/
import BlockRelay.Proofs.Wakeups

namespace BlockRelay

/-! ## The order of blocks -/

/-- Hashes are ordered by height first. -/
theorem Hash.compare_eq_lt_iff {g h : Hash} :
    compare g h = .lt ↔ g.height < h.height ∨ g.height = h.height ∧ compare g h = .lt := by
  have unfolded : compare g h = (compare g.lead h.lead).then ((compare g.second h.second).then
      ((compare g.third h.third).then (compare g.last h.last))) := rfl
  have lead : compare g.lead h.lead = .lt ↔ g.lead < h.lead := Std.compare_eq_lt
  constructor
  · intro lt
    rw [unfolded, Ordering.then_eq_lt, lead, Std.LawfulEqCmp.compare_eq_iff_eq] at lt
    exact lt.imp_right fun ⟨same, _⟩ => ⟨same, by rwa [unfolded, Ordering.then_eq_lt, lead,
      Std.LawfulEqCmp.compare_eq_iff_eq]⟩
  · rintro (lower | ⟨-, lt⟩)
    · rw [unfolded, Ordering.then_eq_lt, lead]
      exact .inl lower
    · exact lt

/-- Whether a block comes before another one: it is lower, or as high and its hash is smaller. -/
def BlockId.Precedes (a b : BlockId) : Prop :=
  a.number < b.number ∨ a.number = b.number ∧ compare a.hash b.hash = .lt

/-- Blocks are ordered as their hashes are. -/
theorem Block.precedes_iff {b c : Block} :
    b.id.Precedes c.id ↔ compare b.id.hash c.id.hash = .lt :=
  (Hash.compare_eq_lt_iff (g := b.id.hash) (h := c.id.hash)).symm

namespace Engine

variable {σ : Type}

/-! ## Queues -/

/-- Every peer that stays has the queue that it had. -/
def KeepsQueues (e e' : Engine σ) : Prop :=
  ∀ (id : PeerId) (p' : Peer), e'.peers[id]? = some p' →
    ∃ p, e.peers[id]? = some p ∧ p'.toFetch = p.toFetch

/-- Where nothing changes, the queues are kept. -/
theorem KeepsQueues.refl (e : Engine σ) : KeepsQueues e e := fun _ p hp => ⟨p, hp, rfl⟩

/-- Queues that are kept twice are kept. -/
theorem KeepsQueues.trans {e e₁ e' : Engine σ} (h : KeepsQueues e e₁) (h' : KeepsQueues e₁ e') :
    KeepsQueues e e' := by
  intro id p' hp'
  obtain ⟨p₁, hp₁, later⟩ := h' id p' hp'
  obtain ⟨p, hp, first⟩ := h id p₁ hp₁
  exact ⟨p, hp, later.trans first⟩

/-- The queue of a peer after a block was taken from the fronts. -/
theorem toFetch_takeFront (hash : Hash) (p : Peer) :
    (takeFront hash p).toFetch = if heads hash p then p.toFetch.tail else p.toFetch := by
  unfold takeFront
  split <;> rfl

/-- A peer that has become idle has nothing left to fetch. -/
theorem toFetch_of_idle {hash : Hash} {p : Peer} (idle : settledFor hash p = .idle) :
    p.toFetch = [] := by
  unfold settledFor at idle
  split at idle
  next empty =>
    simp only [Bool.and_eq_true, List.isEmpty_iff] at empty
    exact empty.1.1.1
  next => split at idle <;> cases idle

/-- The peers for which settling a block means something. -/
theorem mem_settledPeers {e : Engine σ} {hash : Hash} {s : Settled} {id : PeerId} :
    id ∈ e.settledPeers hash s ↔ ∃ p, e.peers[id]? = some p ∧ settledFor hash p = s := by
  unfold settledPeers
  constructor
  · intro mem
    obtain ⟨⟨id, p⟩, listed, rfl⟩ := List.mem_map.1 mem
    obtain ⟨known, means⟩ := List.mem_filter.1 listed
    exact ⟨p, Std.TreeMap.mem_toList_iff_getElem?_eq_some.1 known, of_decide_eq_true means⟩
  · rintro ⟨p, hp, means⟩
    refine List.mem_map.2 ⟨(id, p), List.mem_filter.2 ⟨?_, decide_eq_true means⟩, rfl⟩
    exact Std.TreeMap.mem_toList_iff_getElem?_eq_some.2 hp

/-- A peer whose block in front is taken up is not idle. -/
theorem settledFor_takeFront_ne_idle {hash : Hash} {p : Peer} (front : heads hash p = true) :
    settledFor hash (takeFront hash p) ≠ .idle := by
  unfold settledFor
  rw [Std.TreeMap.isEmpty_eq_false_of_contains (contains_beingApplied_takeFront front)]
  simp only [Bool.and_false, Bool.false_and, Bool.false_eq_true, if_false]
  split <;> decide

/-- When no block is in process with a peer, none is once the block in front is settled. -/
theorem isEmpty_beingApplied_settled (b : BlockId) {p : Peer}
    (rests : p.beingApplied.isEmpty = true) :
    (settlePeer b (takeFront b.hash p)).beingApplied.isEmpty = true := by
  rcases takeFront_cases b.hash p with ⟨front, -⟩ | ⟨-, eq⟩
  · rw [settlePeer, if_neg (settledFor_takeFront_ne_idle front),
      if_pos (contains_beingApplied_takeFront front), Std.TreeMap.isEmpty_iff_forall_contains]
    intro other
    -- nothing but the block itself was put in process
    have nothing := Std.TreeMap.contains_of_isEmpty (a := other) rests
    simp [takeFront, front, Peer.process, BlockId.ofHash, Std.TreeMap.contains_erase,
      Std.TreeMap.contains_insertIfNew, nothing]
  · rw [eq, settlePeer]
    have notHere := Std.TreeMap.contains_of_isEmpty (a := b.hash) rests
    split
    · exact rests
    · rw [if_neg (Bool.eq_false_iff.1 notHere)]
      exact rests

section Ledger

variable [Ledger σ]

/-- A peer that stays when the next summary is sent keeps its queue. -/
theorem keepsQueues_nextSummary (e : Engine σ) (id : PeerId) :
    KeepsQueues e (e.nextSummary id) := by
  rcases nextSummary_cases e id with eq | s | s
  · rw [eq]
    exact .refl e
  all_goals
    intro other p' hp'
    rcases s.revised other p' hp' with ⟨eq, -⟩ | ⟨p, hp, r⟩
    · cases eq
    · cases r <;> exact ⟨_, hp, rfl⟩

/-- A catch-up that begins anew while nothing is to be fetched changes no queue. -/
theorem keepsQueues_startCatchUp {e : Engine σ} {id : PeerId}
    (fetched : ∀ p, e.peers[id]? = some p → p.toFetch = []) :
    KeepsQueues e (e.startCatchUp id) := by
  unfold startCatchUp
  split
  · refine KeepsQueues.trans (fun other p' hp' => ?_) (keepsQueues_nextSummary _ id)
    rw [restart, peers_modifyPeer] at hp'
    split at hp'
    next same =>
      subst same
      obtain ⟨p, hp, rfl⟩ := Option.map_eq_some_iff.1 hp'
      exact ⟨p, hp, (fetched p hp).symm⟩
    next => exact ⟨p', hp', rfl⟩
  · exact .refl e

/-- Summaries to several peers change no queue. -/
theorem keepsQueues_nextSummaries (e : Engine σ) (ids : List PeerId) :
    KeepsQueues e (e.nextSummaries ids) := by
  unfold nextSummaries
  induction ids generalizing e with
  | nil => exact .refl e
  | cons id rest ih => exact (keepsQueues_nextSummary e id).trans (ih _)

/-- Catch-ups that begin anew while nothing is to be fetched change no queue. -/
theorem keepsQueues_startCatchUps {e : Engine σ} {ids : List PeerId}
    (fetched : ∀ id ∈ ids, ∀ p, e.peers[id]? = some p → p.toFetch = []) :
    KeepsQueues e (e.startCatchUps ids) := by
  unfold startCatchUps
  induction ids generalizing e with
  | nil => exact .refl e
  | cons id rest ih =>
    obtain ⟨here, later⟩ := List.forall_mem_cons.1 fetched
    have first := keepsQueues_startCatchUp here
    refine first.trans (ih fun other mem p' hp' => ?_)
    obtain ⟨p, hp, kept⟩ := first other p' hp'
    exact kept.trans (later other mem p hp)

/-- **Queues when a block is submitted.**  The block that is next in line leaves the front of every
queue that it is in front of; no other queue changes, as far as the peers stay. -/
theorem toFetch_applyFetched {e e' : Engine σ} {hash : Hash} {b : Block}
    (done : (e.takeNext hash).applyFetched b = .ok e') {id : PeerId} {p' : Peer}
    (hp' : e'.peers[id]? = some p') :
    ∃ p, e.peers[id]? = some p ∧
      p'.toFetch = if heads hash p then p.toFetch.tail else p.toFetch := by
  obtain ⟨⟨r, e₁⟩, submitted, done⟩ := Checked.bind_eq_ok_iff.1 done
  have first {id : PeerId} {p₁ : Peer} (hp₁ : e₁.peers[id]? = some p₁) :
      ∃ p, e.peers[id]? = some p ∧ p₁.toFetch = (takeFront hash p).toFetch := by
    rw [revised_submitFetched submitted] at hp₁
    obtain ⟨p, hp, rfl⟩ := Option.map_eq_some_iff.1 hp₁
    refine ⟨p, hp, ?_⟩
    split
    · exact toFetch_settlePeer ..
    · rfl
  -- neither the peers that are left nor the summaries that follow change a queue
  suffices kept : KeepsQueues e₁ e' by
    obtain ⟨p₁, hp₁, later⟩ := kept id p' hp'
    obtain ⟨p, hp, eq⟩ := first hp₁
    exact ⟨p, hp, later.trans (eq.trans (toFetch_takeFront hash p))⟩
  cases r with
  | some error =>
    cases done
    intro other q hq
    rw [peers_leaveOffenders, Option.filter_eq_some_iff] at hq
    exact ⟨q, hq.1, rfl⟩
  | none =>
    cases done
    -- catch-ups begin anew only with peers that have nothing left to fetch
    have fetched : ∀ id ∈ (e.takeNext hash).settledPeers b.id.hash .idle, ∀ p₁,
        e₁.peers[id]? = some p₁ → p₁.toFetch = [] := by
      intro id mem p₁ hp₁
      obtain ⟨q, hq, idle⟩ := mem_settledPeers.1 mem
      obtain ⟨p, hp, eq⟩ := first hp₁
      have taken : (e.takeNext hash).peers[id]? = some (takeFront hash p) := by
        rw [takeNext, peers_mapPeers]
        exact congrArg (Option.map (takeFront hash)) hp
      cases hq.symm.trans taken
      rw [eq, toFetch_of_idle idle]
    exact (keepsQueues_startCatchUps fetched).trans (keepsQueues_nextSummaries _ _)

/-- **What comes to the front is higher.**  While queues are stretches, a block that is in front of
a queue after another one was submitted was in front of it before, or comes after the other one. -/
theorem fronts_applyFetched {e e' : Engine σ} {hash other : Hash} {b : Block} {id : PeerId}
    (done : (e.takeNext hash).applyFetched b = .ok e') (stretches : e.QueuesConsecutive)
    (front : e'.Fronts id other) : e.Fronts id other ∨ compare hash other = .lt := by
  obtain ⟨p', hp', front⟩ := front
  obtain ⟨p, hp, eq⟩ := toFetch_applyFetched done hp'
  rcases takeFront_cases hash p with ⟨took, a, rest, queue, rfl, -⟩ | ⟨stays, -⟩
  · refine .inr (Hash.compare_eq_lt_iff.2 (.inl ?_))
    rw [if_pos took, queue, List.tail_cons] at eq
    rw [heads, eq, Option.any_eq_true] at front
    obtain ⟨c, head, same⟩ := front
    obtain rfl : c.hash = other := of_decide_eq_true same
    have stretch : Consecutive (a :: rest) := queue ▸ stretches id p.plan (planOf_eq hp)
    have next : c.number.toNat = a.number.toNat + 1 :=
      (List.isChain_cons.1 stretch.chain).1 c head
    have low : a.hash.height = a.number := stretch.faithful a (List.mem_cons_self ..)
    have high : c.hash.height = c.number :=
      stretch.faithful c (List.mem_cons_of_mem _ (List.mem_of_mem_head? head))
    rw [low, high, UInt64.lt_iff_toNat_lt, next]
    exact Nat.lt_succ_self _
  · rw [if_neg (Bool.eq_false_iff.1 stays)] at eq
    refine .inl ⟨p, hp, ?_⟩
    rwa [heads, ← eq]

/-! ## Nothing is in process -/

omit [Ledger σ] in
/-- Whether no block is in process with any peer. -/
def AtRest (e : Engine σ) : Prop :=
  ∀ (id : PeerId) (p : Peer), e.peers[id]? = some p → p.beingApplied.isEmpty = true

/-- Only a block that is taken up is in process. -/
theorem Revision.beingApplied {e : Engine σ} {id : PeerId} {d : Deed} {p p' : Peer}
    (r : Revision e id d p p') (notSettled : d ≠ .settled) (notRefused : d ≠ .refused) :
    p'.beingApplied = p.beingApplied := by
  cases r with
  | settled => exact absurd rfl notSettled
  | refused => exact absurd rfl notRefused
  | announced p items => rw [Peer.announceAll_eq]
  | requested p batch => rw [Peer.requestBlocks_eq]
  | joined _ stored remaining elsewhere =>
    obtain ⟨_, _, _, _, eq⟩ := Peer.continueCatchUp_eq { p with summary := none } _ remaining
      elsewhere e.recent
    rw [eq]
  | _ => rfl

/-- **A block that is taken up is settled at once**, or the peers that had it in front are left. -/
theorem AtRest.step {d : Deed} {e e' : Engine σ} (s : Step d e e') (keyed : e.Keyed)
    (h : e.AtRest) : e'.AtRest := by
  intro id p' hp'
  by_cases settled : d = .settled
  · subst settled
    cases s with
    | @settle _ _ hash w hw _ done =>
      rw [revised_submitFetched done] at hp'
      obtain ⟨p, hp, rfl⟩ := Option.map_eq_some_iff.1 hp'
      rw [if_pos rfl, ← keyed hash w hw]
      exact isEmpty_beingApplied_settled w.block.id (h id p hp)
  by_cases refused : d = .refused
  · subst refused
    cases s with
    | @refuse _ e₁ hash w error hw _ done =>
      rw [peers_leaveOffenders, Option.filter_eq_some_iff, revised_submitFetched done,
        keyed hash w hw] at hp'
      obtain ⟨taken, innocent⟩ := hp'
      obtain ⟨p, hp, rfl⟩ := Option.map_eq_some_iff.1 taken
      rw [if_neg (Option.some_ne_none error)] at innocent ⊢
      rcases takeFront_cases hash p with ⟨front, -⟩ | ⟨-, eq⟩
      · rw [contains_beingApplied_takeFront front] at innocent
        cases innocent
      · rw [eq]
        exact h id p hp
  rcases s.revised id p' hp' with ⟨-, rfl⟩ | ⟨p, hp, r⟩
  · rfl
  · rw [r.beingApplied settled refused]
    exact h id p hp

/-- **Between two steps nothing is in process.** -/
theorem Run.atRest {config : Config} {ledger : σ} {clock : Clock} {start e : Engine σ}
    {past : List (Moment σ)} (run : Run start past e)
    (started : Engine.start config ledger clock = .ok start) : e.AtRest := by
  have both : e.Keyed ∧ e.AtRest := by
    refine run.invariant (I := fun e => e.Keyed ∧ e.AtRest) ⟨Run.start.keyed started, ?_⟩
      (fun s h => ⟨h.1.step s, h.2.step s h.1⟩) fun _ _ h => h
    intro id p hp
    cases (peers_of_start started id).symm.trans hp
  exact both.2

end Ledger

end Engine

end BlockRelay
