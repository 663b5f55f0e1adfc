/-
# Queues of a catch-up

What is still to be fetched from a peer is a stretch of a chain: the heights of the queue
are consecutive, and each is repeated in the hash.  A legal reply has this form, and joining it
to a queue of this form makes another one.

Most steps leave the queue of every peer and its outstanding summary alone
(`Step.samePlans`).  No step makes anything but a stretch of a queue, so that in every run each
queue is one (`Run.queues_consecutive`).
-/
import Mathlib.Data.List.DropRight
import BlockRelay.Ledger.Chain
import BlockRelay.Proofs.Legality
import BlockRelay.Proofs.Step

namespace BlockRelay

/-! ## Joining a reply -/

namespace Peer

/-- What is still to be fetched from a peer, and the summary that is outstanding. -/
def plan (p : Peer) : List BlockId × Option SummaryRequest := (p.toFetch, p.summary)

/-- Cutting a queue keeps a part from its front. -/
theorem toFetch_cutBehind_prefix (p : Peer) (first : BlockId) (stored : Bool) :
    (p.cutBehind first stored).toFetch <+: p.toFetch :=
  List.rdropWhile_prefix (fun id : BlockId => !id.same first) p.toFetch

/-- What is kept of a queue that is cut ends where the reply begins. -/
theorem toFetch_cutBehind_concat {p : Peer} {first : BlockId} {stored : Bool}
    (kept : (p.cutBehind first stored).toFetch ≠ []) :
    ∃ list last, (p.cutBehind first stored).toFetch = list ++ [last] ∧ last.hash = first.hash := by
  refine ⟨_, _, (List.dropLast_concat_getLast kept).symm, ?_⟩
  have ends := List.rdropWhile_last_not (fun id : BlockId => !id.same first) p.toFetch kept
  rw [Bool.not_eq_true, Bool.not_eq_false', BlockId.same_iff] at ends
  exact ends

/-- A queue is cut down to nothing only by a reply that begins nowhere in it. -/
theorem isIn_of_cutBehind_ne_nil {p : Peer} {first : BlockId} {stored : Bool}
    (queued : first.isIn p.toFetch = true) : (p.cutBehind first stored).toFetch ≠ [] := by
  intro nothing
  obtain ⟨id, mem, same⟩ := BlockId.isIn_iff.1 queued
  have differs := List.rdropWhile_eq_nil_iff.1 nothing id mem
  rw [Bool.not_eq_true', ← Bool.not_eq_true, BlockId.same_iff] at differs
  exact differs same.symm

/-- Joining a reply to a stretch makes a stretch. -/
theorem consecutive_joinReply {p : Peer} {ids : List (BlockId × Bool)} (elsewhere : Bool)
    (queue : Consecutive p.toFetch) (reply : Consecutive (ids.map (·.1))) :
    Consecutive (p.joinReply ids elsewhere).toFetch := by
  unfold joinReply
  split
  next =>
    cases elsewhere with
    | true => exact reply
    | false => exact reply.of_suffix ((skipStored_suffix p.bothHave _).map _)
  next => exact queue
  next first stored rest _ =>
    rw [List.map_cons] at reply
    by_cases kept : (p.cutBehind first stored).toFetch = []
    · simp only [kept, List.nil_append]
      exact reply.tail
    · obtain ⟨list, last, eq, same⟩ := toFetch_cutBehind_concat kept
      simp only [eq]
      have front : Consecutive (list ++ [last]) :=
        eq ▸ queue.of_infix (p.toFetch_cutBehind_prefix first stored).isInfix
      -- both identities are faithful, so that they agree in the height as well
      have agree : last = first := by
        rw [(front.faithful last (by simp)).eq_ofHash, same,
          ← (reply.faithful first (by simp)).eq_ofHash]
      exact front.append_tail (agree ▸ reply)

/-- Going on with a catch-up drops recent blocks from the front of the joined queue. -/
theorem toFetch_continueCatchUp_suffix (p : Peer) (ids : List (BlockId × Bool))
    (remaining : UInt64) (elsewhere : Bool) (recent : RecentBlocks) :
    (p.continueCatchUp ids remaining elsewhere recent).toFetch <:+
      (p.joinReply ids elsewhere).toFetch :=
  skipRecent_suffix recent _ _

/-- Going on with a catch-up after a stretch leaves a stretch to be fetched. -/
theorem consecutive_continueCatchUp {p : Peer} {ids : List (BlockId × Bool)}
    (remaining : UInt64) (elsewhere : Bool) (recent : RecentBlocks)
    (queue : Consecutive p.toFetch) (reply : Consecutive (ids.map (·.1))) :
    Consecutive (p.continueCatchUp ids remaining elsewhere recent).toFetch :=
  (consecutive_joinReply elsewhere queue reply).of_suffix
    (p.toFetch_continueCatchUp_suffix ids remaining elsewhere recent)

/-- Taking a block from the front leaves a stretch. -/
theorem consecutive_takeFront {p : Peer} (hash : Hash) (queue : Consecutive p.toFetch) :
    Consecutive (Engine.takeFront hash p).toFetch :=
  queue.of_suffix (Engine.toFetch_takeFront_suffix hash p)

/-- Settling a block for a peer leaves its plan alone. -/
theorem plan_settlePeer (id : BlockId) (p : Peer) : (Engine.settlePeer id p).plan = p.plan := by
  obtain ⟨_, _, eq⟩ := Engine.settlePeer_eq id p
  rw [eq]
  rfl

/-- Announcing items to a peer leaves its plan alone. -/
theorem plan_announceAll (p : Peer) (items : List Item) (now : Nat) :
    (p.announceAll items now).plan = p.plan := by
  rw [announceAll_eq]
  rfl

/-- Asking for blocks leaves the plan alone. -/
theorem plan_requestBlocks (p : Peer) (ids : List BlockId) (now : Nat) :
    (p.requestBlocks ids now).plan = p.plan := by
  rw [requestBlocks_eq]
  rfl

end Peer

/-! ## Plans stay the same -/

/-- The deeds that leave the plan of every peer alone. -/
def Deed.KeepsPlans : Deed → Prop
  | .noted .. | .tookBlock .. | .tookTransaction .. | .reserved | .requested _ | .sorted
  | .queued _ | .rested | .forgot | .internal => True
  | _ => False

namespace Engine

variable {σ : Type}

/-- The plan of a registered peer. -/
def planOf (e : Engine σ) (id : PeerId) : Option (List BlockId × Option SummaryRequest) :=
  e.view Peer.plan id

/-- The plan of a registered peer is in its record. -/
theorem planOf_eq {e : Engine σ} {id : PeerId} {p : Peer} (hp : e.peers[id]? = some p) :
    e.planOf id = some p.plan := by
  rw [planOf, view, hp, Option.map_some]

/-- A block is taken from the front of a queue only if it is there. -/
theorem takeFront_cases (hash : Hash) (p : Peer) :
    (heads hash p = true ∧ ∃ b rest, p.toFetch = b :: rest ∧ b.hash = hash ∧
        (takeFront hash p).plan = (rest, p.summary)) ∨
      heads hash p = false ∧ takeFront hash p = p := by
  unfold takeFront
  cases front : heads hash p with
  | false => exact .inr ⟨rfl, rfl⟩
  | true =>
    obtain ⟨b, head, same⟩ := (Option.any_eq_true _ _).1 front
    obtain ⟨rest, eq⟩ := List.head?_eq_some_iff.1 head
    refine .inl ⟨rfl, b, rest, eq, of_decide_eq_true same, ?_⟩
    rw [if_pos rfl, Peer.plan, Peer.process, eq]
    rfl

/-- After a removal exactly the plan of the removed peer is gone. -/
theorem planOf_remove (e : Engine σ) (id : PeerId) (r : Option Reason) (other : PeerId) :
    (e.remove id r).planOf other = if other = id then none else e.planOf other := by
  rw [planOf, view, peers_remove]
  split <;> rfl

/-- Changing a record without regard to its plan. -/
theorem planOf_modify {e e' : Engine σ} {id other : PeerId} {f : Peer → Peer}
    (peers : e'.peers = e.peers.modify id f) (keeps : ∀ p, (f p).plan = p.plan) :
    e'.planOf other = e.planOf other :=
  view_modify peers keeps other

/-- Changing every record without regard to its plan. -/
theorem planOf_map {e e' : Engine σ} {id : PeerId} {f : PeerId → Peer → Peer}
    (peers : e'.peers = e.peers.map f) (keeps : ∀ id p, (f id p).plan = p.plan) :
    e'.planOf id = e.planOf id :=
  view_map peers keeps id

/-- Replacing a record by one with the same plan. -/
theorem planOf_insert {e e' : Engine σ} {id other : PeerId} {p q : Peer}
    (hp : e.peers[id]? = some p) (peers : e'.peers = e.peers.insert id q)
    (keeps : q.plan = p.plan) :
    e'.planOf other = e.planOf other :=
  view_insert hp peers keeps other

variable [Ledger σ]

/-- Submitting an announced block leaves the plans alone. -/
theorem planOf_submitAnnounced {e e' : Engine σ} {b : Block} {r : Option Refusal}
    (done : e.submitAnnounced b = .ok (r, e')) (id : PeerId) : e'.planOf id = e.planOf id := by
  rcases submitAnnounced_cases done with ⟨-, -, rfl⟩ | ⟨result, ledger, -, result_eq⟩
  · rfl
  · cases result with
    | ok transactions =>
      obtain ⟨-, rfl⟩ := result_eq
      refine planOf_map rfl fun _ p => ?_
      split <;> rfl
    | error error =>
      obtain ⟨-, quarantine, rfl⟩ := result_eq
      rfl

/-- Submitting a transaction leaves the peers alone. -/
theorem peers_submitTransaction (e : Engine σ) (t : Transaction) :
    (e.submitTransaction t).2.peers = e.peers := by
  rcases submitTransaction_cases e t with eq | ⟨_, _, _, _, eq⟩ <;> rw [eq]

/-- **Most steps leave the plans alone.** -/
theorem Step.samePlans {d : Deed} {e e' : Engine σ} (h : Step d e e') (keeps : d.KeepsPlans)
    (id : PeerId) : e'.planOf id = e.planOf id := by
  cases h with
  | openSession | remove | restart | sendSummary | finishCatchUp | takeUp | settle | refuse =>
    exact keeps.elim
  | welcome | sendAnswer => exact planOf_modify rfl fun _ => rfl
  | @takeIn _ other _ i =>
    rcases takeIn_cases e other i with eq | ⟨_, _, eq, -⟩ <;> rw [eq]
    exact planOf_modify rfl fun _ => rfl
  | announceSpread =>
    obtain ⟨news, eq⟩ := announceSpread_eq e
    rw [eq]
    exact planOf_map rfl fun _ p => p.plan_announceAll _ _
  | reserve =>
    rw [requestReserved_eq]
    exact view_reserveAll (f := Peer.plan) (fun _ _ _ => rfl) e id
  | @serve _ other p items =>
    obtain ⟨_, _, _, _, -, eq | eq⟩ := serve_eq e other items <;> rw [eq]
    · rfl
    · exact planOf_modify rfl fun _ => rfl
  | arrive hp => exact planOf_insert hp rfl rfl
  | @submitAnnounced _ _ other p b _ hp _ _ done =>
    have replaced : { e with peers := e.peers.insert other (p.takeDelivery b.id) }.planOf id =
        e.planOf id := planOf_insert hp rfl rfl
    rw [planOf_submitAnnounced done id, replaced]
  | submitTransaction => exact planOf_modify (peers_submitTransaction ..) fun _ => rfl
  | requestBlocks =>
    rw [planOf, planOf, view, peers_requestBlocks, view]
    split
    · rw [Option.map_map]
      exact congrArg (Option.map · _) (funext fun p => p.plan_requestBlocks _ _)
    · rfl
  | forgetOutdated done =>
    obtain ⟨_, _, _, _, _, rfl⟩ := forgetOutdated_eq done
    exact planOf_map rfl fun _ _ => rfl
  | broadcast e m => cases m <;> rfl
  | measure | dropStale | due | rest | absorb | suspend | dropOrphan | advanceFlood
  | advanceClock => rfl

/-! ## Queues are stretches -/

/-- What is still to be fetched from a registered peer is a stretch. -/
def QueuesConsecutive (e : Engine σ) : Prop :=
  ∀ id plan, e.planOf id = some plan → Consecutive plan.1

omit [Ledger σ] in
/-- A change of the record of one peer. -/
theorem QueuesConsecutive.update {e e' : Engine σ} {id : PeerId}
    {plan : List BlockId × Option SummaryRequest} (h : e.QueuesConsecutive)
    (updated : ∀ other, e'.planOf other = if other = id then some plan else e.planOf other)
    (queue : Consecutive plan.1) : e'.QueuesConsecutive := by
  intro other found eq
  rw [updated] at eq
  split at eq
  · cases eq
    exact queue
  · exact h other found eq

omit [Ledger σ] in
/-- Peers that disappear leave stretches behind. -/
theorem QueuesConsecutive.of_peers {e e' : Engine σ} (h : e.QueuesConsecutive)
    (fewer : ∀ (id : PeerId) (p : Peer), e'.peers[id]? = some p → e.peers[id]? = some p) :
    e'.QueuesConsecutive := by
  intro id plan eq
  obtain ⟨p, hp, rfl⟩ := Option.map_eq_some_iff.1 eq
  exact h id p.plan (planOf_eq (fewer id p hp))

/-- The plans after the block that is next in line was taken up and submitted. -/
theorem planOf_submitFetched {e e' : Engine σ} {hash : Hash} {b : Block} {r : Option Refusal}
    (done : (e.takeNext hash).submitFetched b = .ok (r, e')) (id : PeerId) :
    e'.planOf id = e.view (fun p => (takeFront hash p).plan) id := by
  have taken : (e.takeNext hash).planOf id = e.view (fun p => (takeFront hash p).plan) id := by
    rw [planOf, view, takeNext, peers_mapPeers, Option.map_map]
    rfl
  rw [← taken]
  rcases submitFetched_cases done with ⟨-, -, rfl⟩ | ⟨result, ledger, -, result_eq⟩
  · exact planOf_map rfl fun _ => Peer.plan_settlePeer b.id
  · cases result with
    | ok =>
      obtain ⟨-, rfl⟩ := result_eq
      exact planOf_map rfl fun _ => Peer.plan_settlePeer b.id
    | error =>
      obtain ⟨-, quarantine, rfl⟩ := result_eq
      rfl

/-- Taking up the block that is next in line leaves stretches. -/
theorem QueuesConsecutive.submitFetched {e e' : Engine σ} {hash : Hash} {b : Block}
    {r : Option Refusal} (h : e.QueuesConsecutive)
    (done : (e.takeNext hash).submitFetched b = .ok (r, e')) : e'.QueuesConsecutive := by
  intro id plan eq
  rw [planOf_submitFetched done] at eq
  obtain ⟨p, hp, rfl⟩ := Option.map_eq_some_iff.1 eq
  exact Peer.consecutive_takeFront hash (h id p.plan (planOf_eq hp))

/-- **Every step leaves stretches.** -/
theorem QueuesConsecutive.step {d : Deed} {e e' : Engine σ} (s : Step d e e')
    (h : e.QueuesConsecutive) : e'.QueuesConsecutive := by
  by_cases keeps : d.KeepsPlans
  · intro id plan eq
    exact h id plan ((s.samePlans keeps id).symm.trans eq)
  have queue {id : PeerId} {p : Peer} (hp : e.peers[id]? = some p) : Consecutive p.toFetch :=
    h id p.plan (planOf_eq hp)
  cases s with
  | openSession => exact h.update (view_of_insert rfl) .nil
  | @remove id _ r =>
    refine h.of_peers fun other p hp => ?_
    rw [peers_remove] at hp
    split at hp
    · cases hp
    · exact hp
  | restart hp => exact h.update (view_of_modify hp rfl) .nil
  | sendSummary hp =>
    have stretch := queue hp
    exact h.update (view_of_modify hp rfl) stretch
  | finishCatchUp hp _ _ _ done =>
    have stretch := queue hp
    exact h.update (view_of_insert (peers_finishCatchUp done)) stretch
  | @takeUp _ _ id p s ids remaining elsewhere enough hp _ legal done =>
    have reply : Consecutive
        ((ids.map fun b => (b, Ledger.containsBlock e.ledger b)).map (·.1)) := by
      simpa [Function.comp_def] using (ChainFacts.of_judge legal).1
    have old := queue hp
    have stretch := Peer.consecutive_continueCatchUp (p := { p with summary := none }) remaining
      elsewhere e.recent old reply
    exact h.update (view_of_insert (peers_takeUp done)) stretch
  | settle _ _ done => exact h.submitFetched done
  | refuse _ _ done =>
    refine (h.submitFetched done).of_peers fun id p hp => ?_
    rw [peers_leaveOffenders] at hp
    exact (Option.filter_eq_some_iff.1 hp).1
  | welcome | sendAnswer | takeIn | measure | announceSpread | dropStale | reserve | serve
  | arrive | submitAnnounced | submitTransaction | requestBlocks | due | rest | absorb | suspend
  | dropOrphan | forgetOutdated | advanceFlood | advanceClock | broadcast =>
    exact absurd trivial keeps

/-- An engine without peers has no queues. -/
theorem QueuesConsecutive.start {config : Config} {ledger : σ} {clock : Clock}
    {e : Engine σ} (started : Engine.start config ledger clock = .ok e) : e.QueuesConsecutive := by
  intro id plan planned
  simp [planOf, view, peers_of_start started id] at planned

/-- **Queues of a run.**  Over every ledger, and whatever the peers reply, the heights of the blocks
that are still to be fetched from a peer ascend by one, each is repeated in the hash, and no hash
occurs twice. -/
theorem Run.queues_consecutive {config : Config} {ledger : σ} {clock : Clock}
    {start e : Engine σ} {past : List (Moment σ)}
    (started : Engine.start config ledger clock = .ok start) (run : Run start past e) :
    ∀ (id : PeerId) (p : Peer), e.peers[id]? = some p →
      p.toFetch.IsChain (fun a b => b.number.toNat = a.number.toNat + 1) ∧
        (∀ b ∈ p.toFetch, b.hash.height = b.number) ∧ (p.toFetch.map (·.hash)).Nodup := by
  intro id p hp
  have stretches : e.QueuesConsecutive :=
    run.invariant (.start started) (fun s h => h.step s) fun _ _ h => h
  have queue : Consecutive p.toFetch := stretches id p.plan (planOf_eq hp)
  exact ⟨queue.chain, queue.faithful, queue.nodup_hashes⟩

/-- A reply that goes on where the queue ends is joined to it. -/
theorem joined_queue_consecutive :
    ∃ (start e : Engine ChainLedger) (past : List (Moment ChainLedger)) (p : Peer),
      Engine.start {} (.ofGenesis (.genesis 0) 0 10) {} = .ok start ∧ Run start past e ∧
        e.peers[PeerId.mk 1]? = some p ∧ p.toFetch.length = 4 ∧
          p.toFetch.IsChain (fun a b => b.number.toNat = a.number.toNat + 1) ∧
            (∀ b ∈ p.toFetch, b.hash.height = b.number) ∧ (p.toFetch.map (·.hash)).Nodup := by
  obtain ⟨start, past, e, started, run, checked⟩ := exists_run {}
    (ChainLedger.ofGenesis (.genesis 0) 0 10) {}
    [.register ⟨1⟩ 4,
      .receive ⟨1⟩ (.summaryReply [(Block.bare 0).id, (Block.bare 1).id, (Block.bare 2).id] 2),
      .receive ⟨1⟩ (.summaryReply [(Block.bare 2).id, (Block.bare 3).id, (Block.bare 4).id] 0)]
    (fun (_, e) => (e.peers[PeerId.mk 1]?).any fun p => p.toFetch.length = 4)
    (by decide +kernel)
  simp only [Option.any_eq_true, decide_eq_true_eq] at checked
  obtain ⟨p, hp, four⟩ := checked
  exact ⟨start, e, past, p, started, run, hp, four, run.queues_consecutive started ⟨1⟩ p hp⟩

/-- Only the beginning of a session registers a peer. -/
theorem Step.registered {d : Deed} {e e' : Engine σ} (s : Step d e e') {id : PeerId} {p' : Peer}
    (hp' : e'.peers[id]? = some p') (old : d ≠ .opened id) : ∃ p, e.peers[id]? = some p := by
  have shown := planOf_eq hp'
  suffices ∃ plan, e.planOf id = some plan by
    obtain ⟨plan, eq⟩ := this
    obtain ⟨p, hp, -⟩ := Option.map_eq_some_iff.1 eq
    exact ⟨p, hp⟩
  by_cases keeps : d.KeepsPlans
  · exact ⟨_, (s.samePlans keeps id).symm.trans shown⟩
  -- a step that replaces the record of one registered peer registers nobody
  have known {other : PeerId} {p : Peer} (hp : e.peers[other]? = some p)
      {plan : List BlockId × Option SummaryRequest}
      (updated : e'.planOf id = if id = other then some plan else e.planOf id) :
      ∃ plan, e.planOf id = some plan := by
    by_cases same : id = other
    · subst same
      exact ⟨p.plan, planOf_eq hp⟩
    · rw [if_neg same] at updated
      exact ⟨_, updated.symm.trans shown⟩
  cases s with
  | @openSession _ other =>
    have ne : id ≠ other := fun eq => old (eq ▸ rfl)
    have same : (e.openSession other).planOf id = e.planOf id :=
      (view_of_insert (f := Peer.plan) rfl id).trans (if_neg ne)
    exact ⟨_, same.symm.trans shown⟩
  | remove r hp =>
    rw [peers_remove] at hp'
    split at hp'
    · cases hp'
    · exact ⟨p'.plan, planOf_eq hp'⟩
  | restart hp => exact known hp (view_of_modify hp rfl id)
  | sendSummary hp => exact known hp (view_of_modify hp rfl id)
  | finishCatchUp hp _ _ _ done => exact known hp (view_of_insert (peers_finishCatchUp done) id)
  | takeUp hp _ _ done => exact known hp (view_of_insert (peers_takeUp done) id)
  | settle _ _ done =>
    rw [planOf_submitFetched done] at shown
    obtain ⟨p, hp, -⟩ := Option.map_eq_some_iff.1 shown
    exact ⟨p.plan, planOf_eq hp⟩
  | refuse _ _ done =>
    rw [peers_leaveOffenders, Option.filter_eq_some_iff] at hp'
    have before := planOf_submitFetched done id
    rw [planOf_eq hp'.1] at before
    obtain ⟨p, hp, -⟩ := Option.map_eq_some_iff.1 before.symm
    exact ⟨p.plan, planOf_eq hp⟩
  | welcome | sendAnswer | takeIn | measure | announceSpread | dropStale | reserve | serve
  | arrive | submitAnnounced | submitTransaction | requestBlocks | due | rest | absorb | suspend
  | dropOrphan | forgetOutdated | advanceFlood | advanceClock | broadcast =>
    exact absurd trivial keeps

end Engine

end BlockRelay
