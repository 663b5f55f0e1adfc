/-
# Arrived blocks

A block of a catch-up that a peer delivers has arrived, then waits, and is taken up when it is
next in line.  Few steps have to do with this; `Engine.Work` has one constructor for each of them,
and all others leave it alone (`Step.work`).

A block arrives from a peer that was asked for it, and it waits under its own hash (`Step.hands`).
-/
import BlockRelay.Proofs.Step

namespace BlockRelay.Engine

variable {σ : Type}

/-! ## What is in hand -/

/-- Whether a block of a catch-up was delivered and has not been taken up. -/
def InHand (e : Engine σ) (w : WaitingBlock) : Prop :=
  w ∈ e.arrived ∨ ∃ hash : Hash, e.waiting[hash]? = some w

/-- Whether every waiting block waits under its own hash. -/
def Keyed (e : Engine σ) : Prop :=
  ∀ (hash : Hash) (w : WaitingBlock), e.waiting[hash]? = some w → w.block.id.hash = hash

/-- Where the delivered blocks after a step come from. -/
structure HandsFrom (d : Deed) (e e' : Engine σ) : Prop where
  arrived : ∀ w ∈ e'.arrived, w ∈ e.arrived ∨ d = .tookBlock w.origin w.block ∧
    ∃ p, e.peers[w.origin]? = some p ∧ p.blocksAsked.contains w.block.id.hash = true
  waiting : ∀ (hash : Hash) (w : WaitingBlock), e'.waiting[hash]? = some w →
    e.waiting[hash]? = some w ∨ w ∈ e.arrived ∧ w.block.id.hash = hash ∧ e'.arrived = []

/-- Nothing is delivered, and what waited still waits, or does not wait any more. -/
theorem HandsFrom.fewer {d : Deed} {e e' : Engine σ} (arrived : e'.arrived = e.arrived)
    (waiting : ∀ (hash : Hash) (w : WaitingBlock),
      e'.waiting[hash]? = some w → e.waiting[hash]? = some w) :
    HandsFrom d e e' :=
  ⟨fun _ mem => .inl (arrived ▸ mem), fun hash w hw => .inl (waiting hash w hw)⟩

/-- Nothing is delivered, and what waited still waits. -/
theorem HandsFrom.same {d : Deed} {e e' : Engine σ} (arrived : e'.arrived = e.arrived)
    (waiting : e'.waiting = e.waiting) : HandsFrom d e e' :=
  .fewer arrived fun _ _ hw => waiting ▸ hw

/-- Nothing is delivered, and what waited under one hash does not wait any more. -/
theorem HandsFrom.erase {d : Deed} {e e' : Engine σ} {hash : Hash}
    (arrived : e'.arrived = e.arrived) (waiting : e'.waiting = e.waiting.erase hash) :
    HandsFrom d e e' :=
  .fewer arrived fun other w hw => by
    rw [waiting, Std.TreeMap.getElem?_erase] at hw
    split at hw
    · cases hw
    · exact hw

/-! ## One step -/

/-- What is in hand is the same, what the cache of requests holds, whether a pass over the waiting
blocks is due, and the time. -/
structure SameWork (e e' : Engine σ) : Prop where
  arrived : e'.arrived = e.arrived
  waiting : e'.waiting = e.waiting
  requested : e'.requested = e.requested
  applyDue : e'.applyDue = e.applyDue
  clock : e'.clock = e.clock

variable [Ledger σ]

/-- What a step does to the blocks of a catch-up, apart from the records of the peers. -/
inductive Work : Deed → Engine σ → Engine σ → Prop where
  /-- Nothing. -/
  | same {d : Deed} {e e' : Engine σ} (h : SameWork e e') : Work d e e'
  /-- A peer has left, and what it was asked for is given back. -/
  | left {e : Engine σ} {id : PeerId} {p : Peer} {r : Option Reason}
      (requested : AgingCache Hash Unit) (hp : e.peers[id]? = some p)
      (h : SameWork { e with requested := requested } (e.remove id r)) :
      Work (.left id) e (e.remove id r)
  /-- A peer is asked for blocks. -/
  | asked {e : Engine σ} {id : PeerId} {batch : List BlockId} (requested : AgingCache Hash Unit)
      (h : SameWork { e with requested := requested } (e.requestBlocks id batch)) :
      Work (.requested id) e (e.requestBlocks id batch)
  /-- A block arrives. -/
  | arrived {e : Engine σ} {id : PeerId} {p : Peer} {b : Block} (hp : e.peers[id]? = some p)
      (asked : p.blocksAsked.contains b.id.hash = true) :
      Work (.tookBlock id b) e
        ({ e with peers := e.peers.insert id (p.takeDelivery b.id) }.arrive id b)
  /-- Arrived blocks are put with those that wait. -/
  | absorbed (e : Engine σ) : Work .internal e e.absorb
  /-- A waiting block is dropped. -/
  | dropped {e : Engine σ} {hash : Hash} {w : WaitingBlock} (hw : e.waiting[hash]? = some w) :
      Work .internal e (e.dropOrphan hash)
  /-- The block that is next in line is taken up, and some peers are left. -/
  | takenUp {d : Deed} {e e₁ : Engine σ} {hash : Hash} {w : WaitingBlock} {r : Option Refusal}
      {leaving : List (PeerId × Reason)} {applyDue : Bool} (requested : AgingCache Hash Unit)
      (deed : d = .settled ∨ d = .refused) (hw : e.waiting[hash]? = some w)
      (done : (e.takeNext hash).submitFetched w.block = .ok (r, e₁))
      (kept : e.applyDue = true → applyDue = true)
      (h : SameWork
        { e with
          waiting := e.waiting.erase hash
          requested := requested
          applyDue := applyDue } (e₁.disconnectAll leaving)) :
      Work d e (e₁.disconnectAll leaving)
  /-- A pass over the waiting blocks becomes due. -/
  | due {e e' : Engine σ} {applyDue : Bool} (kept : e.applyDue = true → applyDue = true)
      (h : SameWork { e with applyDue := applyDue } e') : Work .internal e e'
  /-- A pass over the waiting blocks is not due any more. -/
  | rested (e : Engine σ) : Work .rested e { e with applyDue := false }
  /-- Requests that are expired are forgotten. -/
  | purged {e e' : Engine σ}
      (h : SameWork { e with requested := (e.requested.purge e.now).2 } e') : Work .forgot e e'
  /-- Time passes. -/
  | later (e : Engine σ) (ms : Nat) : Work .internal e (e.advanceClock ms)

/-- Taking up the block that is next in line takes it from those that wait, and gives it back. -/
theorem work_submitFetched {e e' : Engine σ} {hash : Hash} {b : Block} {r : Option Refusal}
    (done : (e.takeNext hash).submitFetched b = .ok (r, e')) :
    ∃ applyDue, (e.applyDue = true → applyDue = true) ∧ SameWork
      { e with
        waiting := e.waiting.erase hash
        requested := e.requested.erase b.id.hash
        applyDue := applyDue } e' := by
  rcases submitFetched_cases done with ⟨-, -, rfl⟩ | ⟨result, ledger, -, result_eq⟩
  · exact ⟨e.applyDue, id, rfl, rfl, rfl, rfl, rfl⟩
  · cases result with
    | ok =>
      obtain ⟨-, rfl⟩ := result_eq
      exact ⟨true, fun _ => rfl, rfl, rfl, rfl, rfl, rfl⟩
    | error =>
      obtain ⟨-, quarantine, rfl⟩ := result_eq
      exact ⟨true, fun _ => rfl, rfl, rfl, rfl, rfl, rfl⟩

omit [Ledger σ] in
/-- When several peers are left, what they were asked for is given back. -/
theorem work_disconnectAll (e : Engine σ) (leaving : List (PeerId × Reason)) :
    SameWork { e with requested := (e.disconnectAll leaving).requested }
      (e.disconnectAll leaving) := by
  obtain ⟨_, _, _, _, _, _, eq⟩ := disconnectAll_eq e leaving
  rw [eq]
  exact ⟨rfl, rfl, rfl, rfl, rfl⟩

/-- The block that is next in line is taken up, and some peers are left. -/
theorem Work.takeUp {d : Deed} {e e₁ : Engine σ} {hash : Hash} {w : WaitingBlock}
    {r : Option Refusal} (deed : d = .settled ∨ d = .refused) (hw : e.waiting[hash]? = some w)
    (done : (e.takeNext hash).submitFetched w.block = .ok (r, e₁))
    (leaving : List (PeerId × Reason)) : Work d e (e₁.disconnectAll leaving) := by
  obtain ⟨applyDue, kept, taken⟩ := work_submitFetched done
  have left := work_disconnectAll e₁ leaving
  exact .takenUp (e₁.disconnectAll leaving).requested deed hw done kept
    { arrived := left.arrived.trans taken.arrived
      waiting := left.waiting.trans taken.waiting
      requested := rfl
      applyDue := left.applyDue.trans taken.applyDue
      clock := left.clock.trans taken.clock }

/-- **Most steps leave the work alone**, and the others are those of `Work`. -/
theorem Step.work {d : Deed} {e e' : Engine σ} (s : Step d e e') : Work d e e' := by
  cases s with
  | @remove _ id p r hp =>
    obtain ⟨_, _, _, eq⟩ := remove_eq hp r
    refine .left (e.remove id r).requested hp ?_
    rw [eq]
    exact ⟨rfl, rfl, rfl, rfl, rfl⟩
  | @requestBlocks _ id p batch =>
    obtain ⟨_, _, eq⟩ := requestBlocks_eq e id batch
    refine .asked (e.requestBlocks id batch).requested ?_
    rw [eq]
    exact ⟨rfl, rfl, rfl, rfl, rfl⟩
  | arrive hp asked => exact .arrived hp asked
  | absorb => exact .absorbed e
  | dropOrphan hw => exact .dropped hw
  | settle hw _ done => exact .takeUp (.inl rfl) hw done []
  | refuse hw _ done => exact .takeUp (.inr rfl) hw done _
  | due _ _ kept => exact .due kept ⟨rfl, rfl, rfl, rfl, rfl⟩
  | rest => exact .rested e
  | advanceClock _ ms => exact .later e ms
  | forgetOutdated done =>
    obtain ⟨retention, -, done⟩ := Checked.bind_eq_ok_iff.1 done
    cases done
    exact .purged ⟨rfl, rfl, rfl, rfl, rfl⟩
  | finishCatchUp _ _ _ _ done =>
    obtain ⟨_, rfl | ⟨_, rfl⟩⟩ := finishCatchUp_cases done <;>
      exact .same ⟨rfl, rfl, rfl, rfl, rfl⟩
  | takeUp _ _ _ done =>
    obtain ⟨_, _, rfl | ⟨_, rfl⟩⟩ := takeUp_cases done <;> exact .same ⟨rfl, rfl, rfl, rfl, rfl⟩
  | @takeIn _ id _ i =>
    rcases takeIn_cases e id i with eq | ⟨_, _, eq, -⟩ <;> rw [eq] <;>
      exact .same ⟨rfl, rfl, rfl, rfl, rfl⟩
  | announceSpread =>
    obtain ⟨_, eq⟩ := announceSpread_eq e
    rw [eq]
    exact .same ⟨rfl, rfl, rfl, rfl, rfl⟩
  | reserve =>
    obtain ⟨_, _, eq⟩ := reserveAll_eq e
    rw [requestReserved_eq, eq]
    exact .same ⟨rfl, rfl, rfl, rfl, rfl⟩
  | @serve _ id p items =>
    obtain ⟨_, _, _, _, -, eq | eq⟩ := serve_eq e id items <;> rw [eq] <;>
      exact .same ⟨rfl, rfl, rfl, rfl, rfl⟩
  | submitAnnounced _ _ _ done =>
    obtain ⟨_, _, _, _, _, _, _, _, _, rfl⟩ := submitAnnounced_eq done
    exact .same ⟨rfl, rfl, rfl, rfl, rfl⟩
  | @submitTransaction _ id p t =>
    rcases submitTransaction_cases (e.modifyPeer id fun p =>
        { p with reserved := p.reserved.erase t.item }) t with eq | ⟨_, _, _, _, eq⟩ <;>
      rw [eq] <;> exact .same ⟨rfl, rfl, rfl, rfl, rfl⟩
  | broadcast e m => cases m <;> exact .same ⟨rfl, rfl, rfl, rfl, rfl⟩
  | openSession | welcome | restart | sendSummary | sendAnswer | measure | dropStale | suspend
  | advanceFlood => exact .same ⟨rfl, rfl, rfl, rfl, rfl⟩

/-- **Where delivered blocks come from.**  A block arrives from a peer that was asked for it, and
waits only after it arrived. -/
theorem Step.hands {d : Deed} {e e' : Engine σ} (s : Step d e e') : HandsFrom d e e' := by
  cases s.work with
  | @arrived _ id p b hp asked =>
    refine ⟨fun w mem => ?_, fun hash w hw => .inl hw⟩
    rcases List.mem_append.1 mem with old | new
    · exact .inl old
    · cases List.mem_singleton.1 new
      exact .inr ⟨rfl, p, hp, asked⟩
  | absorbed =>
    refine ⟨fun w mem => (List.not_mem_nil mem).elim, fun hash w hw => ?_⟩
    exact (getElem?_foldl_insert hw).imp_right fun ⟨mem, same⟩ => ⟨mem, same, rfl⟩
  | dropped => exact .erase rfl rfl
  | takenUp _ _ _ _ _ h => exact .erase h.arrived h.waiting
  | same h | left _ _ h | asked _ h | due _ h | purged h => exact .same h.arrived h.waiting
  | rested | later => exact .same rfl rfl

/-- An engine starts with nothing in hand. -/
theorem not_inHand_of_start {config : Config} {ledger : σ} {clock : Clock} {e : Engine σ}
    (started : Engine.start config ledger clock = .ok e) (w : WaitingBlock) : ¬ e.InHand w := by
  obtain ⟨_, -, eq⟩ := Checked.bind_eq_ok_iff.1 started
  cases eq
  rintro (mem | ⟨hash, hw⟩)
  · cases mem
  · cases Std.TreeMap.getElem?_emptyc.symm.trans hw

/-- A block is in hand after a step only if it was before, or is delivered by a peer that was
asked for it. -/
theorem InHand.of_step {d : Deed} {e e' : Engine σ} {w : WaitingBlock} (s : Step d e e')
    (h : e'.InHand w) :
    e.InHand w ∨ d = .tookBlock w.origin w.block ∧
      ∃ p, e.peers[w.origin]? = some p ∧ p.blocksAsked.contains w.block.id.hash = true := by
  rcases h with mem | ⟨hash, hw⟩
  · exact (s.hands.arrived w mem).imp_left .inl
  · rcases s.hands.waiting hash w hw with hw | ⟨mem, -⟩
    · exact .inl (.inr ⟨hash, hw⟩)
    · exact .inl (.inl mem)

/-- Without a delivery nothing comes into hand. -/
theorem InHand.of_course {allowed : Deed → Prop} {e e' : Engine σ} {w : WaitingBlock}
    (c : Course allowed e e') (quiet : ∀ id b, ¬ allowed (.tookBlock id b)) (h : e'.InHand w) :
    e.InHand w := by
  induction c with
  | refl => exact h
  | tail _ last ih =>
    obtain ⟨d, allows, last⟩ := last
    rcases h.of_step last with h | ⟨rfl, -⟩
    · exact ih h
    · exact absurd allows (quiet _ _)

/-- Every step leaves waiting blocks under their own hashes. -/
theorem Keyed.step {d : Deed} {e e' : Engine σ} (s : Step d e e') (h : e.Keyed) : e'.Keyed := by
  intro hash w hw
  rcases s.hands.waiting hash w hw with hw | ⟨-, same, -⟩
  · exact h hash w hw
  · exact same

/-- **In every run waiting blocks wait under their own hashes.** -/
theorem Run.keyed {config : Config} {ledger : σ} {clock : Clock} {start e : Engine σ}
    {past : List (Moment σ)} (run : Run start past e)
    (started : Engine.start config ledger clock = .ok start) : e.Keyed := by
  refine run.invariant (I := Keyed) (fun hash w hw => ?_) (fun s h => h.step s) fun _ _ h => h
  exact (not_inHand_of_start started w (.inr ⟨hash, hw⟩)).elim

end BlockRelay.Engine
