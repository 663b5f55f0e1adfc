/-
# Gaps in a catch-up

A queue continues the chain of a ledger if it starts at most one above the head
(`ChainLedger.Continues`).  While no reply is joined, a step changes the plan of a peer in few
ways (`Step.replan`), and none of them opens a gap (`Gapless.step`).
-/
import BlockRelay.Proofs.Records
import BlockRelay.Proofs.Stored

namespace BlockRelay

/-! ## Continuing a chain -/

namespace ChainLedger

/-- Whether a queue starts at most one above the head. -/
def Continues (l : ChainLedger) (queue : List BlockId) : Prop :=
  ∀ front ∈ queue.head?, front.number.toNat ≤ l.head.number.toNat + 1

namespace Continues

variable {l : ChainLedger} {queue : List BlockId}

/-- A queue that continues a chain continues it when it has grown. -/
theorem mono {l' : ChainLedger} (h : l.Continues queue) (grows : l.Grows l') :
    l'.Continues queue := fun front mem =>
  Nat.le_trans (h front mem) (Nat.succ_le_succ grows.head)

/-- Only the head matters. -/
theorem congr {l' : ChainLedger} (head : l'.head = l.head) :
    l'.Continues queue ↔ l.Continues queue := by
  rw [Continues, Continues, head]

/-- What follows a stored block continues the chain. -/
theorem of_stored {id : BlockId} (linear : l.Linear) (stretch : Consecutive (id :: queue))
    (stored : l.blocks.contains id.hash = true) : l.Continues queue := by
  intro front mem
  have height := linear.height_le (stretch.faithful id (List.mem_cons_self ..)) stored
  have next : front.number.toNat = id.number.toNat + 1 :=
    (List.isChain_cons.1 stretch.chain).1 front mem
  omega

/-- A queue that starts with a stored block continues the chain. -/
theorem cons_of_stored {id : BlockId} (linear : l.Linear) (faithful : id.Faithful)
    (stored : l.blocks.contains id.hash = true) : l.Continues (id :: queue) := by
  intro front mem
  cases mem
  exact Nat.le_succ_of_le (linear.height_le faithful stored)

/-- Skipping stored blocks neither opens nor closes a gap. -/
theorem skipStored_iff (linear : l.Linear) (bothHave : BlockId)
    {ids : List (BlockId × Bool)} (stretch : Consecutive (ids.map (·.1)))
    (answers : ∀ b ∈ ids, b.2 = l.blocks.contains b.1.hash) :
    l.Continues ((skipStored bothHave ids).2.map (·.1)) ↔ l.Continues (ids.map (·.1)) := by
  fun_induction skipStored bothHave ids with
  | case1 bothHave id rest ih =>
    have stored := (answers _ (List.mem_cons_self ..)).symm
    have faithful := stretch.faithful id (List.mem_cons_self ..)
    rw [ih (stretch.of_suffix (List.suffix_cons ..)) fun b mem =>
      answers b (List.mem_cons_of_mem _ mem)]
    -- with a stored block in front neither queue has a gap
    exact iff_of_true (of_stored linear stretch stored) (cons_of_stored linear faithful stored)
  | case2 => exact Iff.rfl

/-- Skipping recent blocks neither opens nor closes a gap. -/
theorem skipRecent_iff {recent : RecentBlocks} (linear : l.Linear) (bothHave : BlockId)
    (stretch : Consecutive queue)
    (stored : ∀ id, recent.contains id = true → l.blocks.contains id.hash = true) :
    l.Continues (skipRecent recent bothHave queue).2 ↔ l.Continues queue := by
  fun_induction skipRecent recent bothHave queue with
  | case1 => exact Iff.rfl
  | case2 bothHave id rest found ih =>
    have faithful := stretch.faithful id (List.mem_cons_self ..)
    rw [ih (stretch.of_suffix (List.suffix_cons ..))]
    exact iff_of_true (of_stored linear stretch (stored id found))
      (cons_of_stored linear faithful (stored id found))
  | case3 => exact Iff.rfl

end Continues

end ChainLedger

/-! ## How plans change -/

namespace Engine

variable {e e' : Engine ChainLedger}

/-- The changes of the plan of a peer while no reply is joined: a catch-up begins anew, a summary
is sent or answered, or the block in front is stored. -/
inductive Replan (e' : Engine ChainLedger) :
    List BlockId × Option SummaryRequest → List BlockId × Option SummaryRequest → Prop where
  | same (plan : List BlockId × Option SummaryRequest) : Replan e' plan plan
  | restarted (queue : List BlockId) (s : Option SummaryRequest) : Replan e' (queue, s) ([], s)
  | summarized {queue : List BlockId} {s : SummaryRequest} (nonempty : s.ids ≠ [])
    (named : ∀ b ∈ s.ids, e'.Stores b ∨ b ∈ queue) : Replan e' (queue, none) (queue, some s)
  | finished (queue : List BlockId) (s : Option SummaryRequest) :
    Replan e' (queue, s) (queue, none)
  | fetched {b : BlockId} (queue : List BlockId) (s : Option SummaryRequest)
    (stored : e'.Stores b) : Replan e' (b :: queue, s) (queue, s)

/-- The plan of a peer when the block with a hash was taken up and is stored. -/
theorem Replan.takeFront {hash : Hash} {p : Peer} (stored : e'.ledger.blocks.contains hash = true) :
    Replan e' p.plan (takeFront hash p).plan := by
  rcases takeFront_cases hash p with ⟨-, b, rest, eq, same, after⟩ | ⟨-, eq⟩
  · rw [after, Peer.plan, eq]
    exact .fetched rest p.summary (by rw [Stores, same]; exact stored)
  · rw [eq]
    exact .same p.plan

/-- **How plans change.**  In a step that neither begins the session of a peer nor joins a reply
of it, its plan changes in one of few ways. -/
theorem Step.replan {d : Deed} (s : Step d e e') (h : e.Sound) {id : PeerId}
    {plan' : List BlockId × Option SummaryRequest} (hp' : e'.planOf id = some plan')
    (old : d ≠ .opened id) (quiet : ∀ ids, d ≠ .joined id ids) :
    ∃ plan, e.planOf id = some plan ∧ Replan e' plan plan' := by
  have unchanged (same : e'.planOf id = e.planOf id) :
      ∃ plan, e.planOf id = some plan ∧ Replan e' plan plan' :=
    ⟨plan', same.symm.trans hp', .same plan'⟩
  by_cases keeps : d.KeepsPlans
  · exact unchanged (s.samePlans keeps id)
  -- a change of the record of one peer concerns this peer or another one
  have update {other : PeerId} {p : Peer} {plan : List BlockId × Option SummaryRequest}
      (hp : e.peers[other]? = some p)
      (updated : e'.planOf id = if id = other then some plan else e.planOf id)
      (change : Replan e' p.plan plan) :
      ∃ plan, e.planOf id = some plan ∧ Replan e' plan plan' := by
    by_cases same : id = other
    · subst same
      rw [if_pos rfl, hp'] at updated
      cases updated
      exact ⟨p.plan, planOf_eq hp, change⟩
    · rw [if_neg same] at updated
      exact unchanged updated
  cases s with
  | @openSession _ other =>
    have ne : id ≠ other := fun eq => old (eq ▸ rfl)
    exact unchanged ((view_of_insert (f := Peer.plan) rfl id).trans (if_neg ne))
  | remove r hp =>
    refine unchanged ?_
    rw [planOf_remove] at hp' ⊢
    split at hp'
    · cases hp'
    next ne => rw [if_neg ne]
  | restart hp => exact update hp (view_of_modify hp rfl id) (.restarted ..)
  | @sendSummary _ other p ids hp settled sample =>
    obtain ⟨nonempty, named⟩ := ChainLedger.sampleChain_eq_ok sample
    have change : Replan (e.sendSummary other ids) p.plan (p.await ids e.now).plan := by
      rw [Peer.plan, settled]
      refine .summarized nonempty fun b mem => ?_
      exact (named b mem).imp_left fun onMain => (h.linear.stored b.hash).2 ⟨b, onMain, rfl⟩
    exact update hp (view_of_modify hp rfl id) change
  | finishCatchUp hp _ _ _ done =>
    exact update hp (view_of_insert (peers_finishCatchUp done) id) (.finished ..)
  | @takeUp _ _ other p s ids _ _ _ hp _ _ done =>
    have ne : id ≠ other := fun eq => quiet ids (eq ▸ rfl)
    exact unchanged
      ((view_of_insert (f := Peer.plan) (peers_takeUp done) id).trans (if_neg ne))
  | @settle _ _ hash w hw _ done =>
    have stored : e'.ledger.blocks.contains hash = true := by
      rw [← h.keyed hash w hw]
      exact h.stores_of_settled done
    rw [planOf_submitFetched done] at hp'
    obtain ⟨p, hp, rfl⟩ := Option.map_eq_some_iff.1 hp'
    exact ⟨p.plan, planOf_eq hp, .takeFront stored⟩
  | @refuse _ e₁ hash w error hw _ done =>
    obtain ⟨p', found, rfl⟩ := Option.map_eq_some_iff.1 hp'
    rw [peers_leaveOffenders, Option.filter_eq_some_iff, revised_submitFetched done] at found
    obtain ⟨taken, innocent⟩ := found
    obtain ⟨p, hp, rfl⟩ := Option.map_eq_some_iff.1 taken
    rw [if_neg (Option.some_ne_none error)] at innocent ⊢
    rw [h.keyed hash w hw] at innocent
    -- a peer that had the block in front has it in process now, and is left
    rcases takeFront_cases hash p with ⟨front, -⟩ | ⟨-, eq⟩
    · rw [contains_beingApplied_takeFront front] at innocent
      cases innocent
    · exact ⟨p.plan, planOf_eq hp, by rw [eq]; exact .same p.plan⟩
  | welcome | sendAnswer | takeIn | measure | announceSpread | dropStale | reserve | serve
  | arrive | submitAnnounced | submitTransaction | requestBlocks | due | rest | absorb | suspend
  | dropOrphan | forgetOutdated | advanceFlood | advanceClock | broadcast =>
    exact absurd trivial keeps

/-! ## Steps that join no reply -/

/-- Whether the queue of every registered peer continues the chain. -/
def Gapless (e : Engine ChainLedger) : Prop :=
  ∀ (id : PeerId) (p : Peer), e.peers[id]? = some p → e.ledger.Continues p.toFetch

/-- The queues are those of the plans. -/
theorem gapless_iff_planOf : e.Gapless ↔
    ∀ id plan, e.planOf id = some plan → e.ledger.Continues plan.1 := by
  constructor
  · intro h id plan planned
    obtain ⟨p, hp, rfl⟩ := Option.map_eq_some_iff.1 planned
    exact h id p hp
  · intro h id p hp
    exact h id p.plan (planOf_eq hp)

/-- A change of a plan opens no gap. -/
theorem Replan.continues {plan plan' : List BlockId × Option SummaryRequest}
    (r : Replan e' plan plan') (linear : e'.ledger.Linear) (stretch : Consecutive plan.1)
    (h : e'.ledger.Continues plan.1) : e'.ledger.Continues plan'.1 := by
  cases r with
  | same | summarized | finished => exact h
  | restarted => exact nofun
  | fetched queue s stored => exact .of_stored linear stretch stored

/-- **Without a reply no gap opens.** -/
theorem Gapless.step {d : Deed} (s : Step d e e') (sound : e.Sound)
    (quiet : ∀ id ids, d ≠ .joined id ids) (h : e.Gapless) : e'.Gapless := by
  have grows := s.learns.ledger sound.linear
  rw [gapless_iff_planOf] at h ⊢
  intro id plan' hp'
  by_cases old : d = .opened id
  · subst old
    cases s
    have fresh : (e.openSession id).planOf id = some ([], none) :=
      (view_of_insert (f := Peer.plan) rfl id).trans (if_pos rfl)
    cases fresh.symm.trans hp'
    exact nofun
  · obtain ⟨plan, hp, change⟩ := s.replan sound hp' old (quiet id)
    exact change.continues grows.linear (sound.queues id plan hp) ((h id plan hp).mono grows)

/-- A course without a reply opens no gap. -/
theorem Gapless.course {allowed : Deed → Prop} (c : Course allowed e e') (sound : e.Sound)
    (held : ∀ b, allowed (.queued (.block b)) → e.Stores b.id)
    (quiet : ∀ id ids, ¬ allowed (.joined id ids)) (h : e.Gapless) : e'.Gapless := by
  induction c with
  | refl => exact h
  | tail first last ih =>
    obtain ⟨d, allows, last⟩ := last
    have here := (sound.course first held).1
    exact ih.step last here fun id ids joined => quiet id ids (joined ▸ allows)

end Engine

end BlockRelay
