/-
# Phases

The phase of a peer is written apart from what it stands for.  `Peer.InPhase` says what a phase
stands for, and `Run.phase_agrees` that it does so for every registered peer of every run.

While a session or a catch-up begins, the phase lags behind.  A peer that has just connected has
no phase, and one that is caught up with again keeps its old phase until the summary is sent.
So the invariant is one of moves, not of steps.
-/
import BlockRelay.Proofs.Records

namespace BlockRelay

/-- The record of a peer is as its phase says. -/
structure Peer.InPhase (p : Peer) : Prop where
  caughtUp : p.phase = .caughtUp → p.toFetch = [] ∧ p.unfetched = 0 ∧ p.needFromPeer = false
  asking : p.summary.isSome = true → p.phase = .summarySent ∨ p.phase = .fetching
  sent : p.phase = .summarySent → p.summary.isSome = true
  begun : p.phase ≠ .idle

namespace Peer.InPhase

variable {p : Peer}

/-- No summary is outstanding once a peer is caught up with. -/
theorem summary_eq_none (h : p.InPhase) (done : p.phase = .caughtUp) : p.summary = none := by
  rw [← Option.not_isSome_iff_eq_none]
  intro outstanding
  rcases h.asking outstanding with phase | phase <;> simp [done] at phase

/-- Blocks may be taken from the queue, as long as the rest of what the phase is about stays. -/
theorem of_shorter {p' : Peer} (h : p.InPhase) (phase : p'.phase = p.phase)
    (summary : p'.summary = p.summary) (unfetched : p'.unfetched = p.unfetched)
    (needFromPeer : p'.needFromPeer = p.needFromPeer) (queue : p'.toFetch <:+ p.toFetch) :
    p'.InPhase where
  caughtUp done := by
    obtain ⟨nothing, left, needed⟩ := h.caughtUp (phase ▸ done)
    rw [nothing, List.suffix_nil] at queue
    exact ⟨queue, unfetched.trans left, needFromPeer.trans needed⟩
  asking outstanding := by
    rw [phase]
    exact h.asking (summary ▸ outstanding)
  sent phase' := by
    rw [summary]
    exact h.sent (phase ▸ phase')
  begun := phase ▸ h.begun

/-- A peer that awaits a reply is in phase, whatever its phase was. -/
theorem await (p : Peer) (ids : List BlockId) (now : Nat) : (p.await ids now).InPhase := by
  by_cases fetching : p.phase = .fetching <;> constructor <;> simp [Peer.await, fetching]

/-- A catch-up that begins anew leaves the phase of a peer that awaits a reply. -/
theorem restart (p : Peer) (genesis : BlockId) (outstanding : p.summary.isSome = true)
    (asking : p.phase = .summarySent ∨ p.phase = .fetching) : (p.restart genesis).InPhase where
  caughtUp done := by rcases asking with phase | phase <;> simp [Peer.restart, phase] at done
  asking _ := asking
  sent _ := outstanding
  begun := by rcases asking with phase | phase <;> simp [Peer.restart, phase]

/-- The end of a catch-up with nothing left to fetch. -/
theorem endCatchUp (fetched : p.toFetch = []) (claimed : p.unfetched = 0)
    (answered : p.summary = none) : p.endCatchUp.InPhase := by
  constructor <;> simp [Peer.endCatchUp, fetched, claimed, answered]

/-- A reply that was joined leaves blocks to fetch or blocks that were not named yet, or else the
peer is caught up with. -/
theorem continueCatchUp (answered : p.summary = none) (ids : List (BlockId × Bool))
    (remaining : UInt64) (elsewhere : Bool) (recent : RecentBlocks) :
    (p.continueCatchUp ids remaining elsewhere recent).InPhase := by
  have summary : (p.continueCatchUp ids remaining elsewhere recent).summary = none :=
    (p.summary_continueCatchUp ids remaining elsewhere recent).trans answered
  unfold Peer.continueCatchUp at summary ⊢
  dsimp only at summary ⊢
  by_cases finished : remaining = 0 ∧
      (skipRecent recent (p.joinReply ids elsewhere).bothHave
        (p.joinReply ids elsewhere).toFetch).2 = [] <;>
    constructor <;> simp [finished, summary]

end Peer.InPhase

namespace Engine

variable {σ : Type} [Ledger σ]

/-- Every registered peer is in phase. -/
def InPhase (e : Engine σ) : Prop :=
  ∀ (id : PeerId) (p : Peer), e.peers[id]? = some p → p.InPhase

/-- A revision keeps a peer in phase, unless a catch-up begins. -/
theorem Revision.inPhase {e : Engine σ} {id : PeerId} {d : Deed} {p p' : Peer}
    (r : Revision e id d p p') (plain : d.IsPlain) (h : p.InPhase) : p'.InPhase := by
  cases r with
  | welcomed fresh =>
    subst fresh
    exact absurd rfl h.begun
  | restarted => exact plain.elim
  | summarized => exact .await p _ _
  | finished asked fetched claimed => exact .endCatchUp fetched claimed rfl
  | joined asked => exact .continueCatchUp rfl _ _ _ _
  | announced p items =>
    rw [Peer.announceAll_eq]
    exact h.of_shorter rfl rfl rfl rfl (List.suffix_refl _)
  | requested p batch =>
    rw [Peer.requestBlocks_eq]
    exact h.of_shorter rfl rfl rfl rfl (List.suffix_refl _)
  | settled p hash b =>
    obtain ⟨_, _, settled⟩ := settlePeer_eq b (takeFront hash p)
    obtain ⟨_, _, shorter, taken⟩ := takeFront_eq hash p
    rw [settled, taken]
    exact h.of_shorter rfl rfl rfl rfl shorter
  | refused p hash =>
    obtain ⟨_, _, shorter, taken⟩ := takeFront_eq hash p
    rw [taken]
    exact h.of_shorter rfl rfl rfl rfl shorter
  | same | answered | noted | reserved | served | accepted | tookBlock | tookTransaction
  | forgot => exact h.of_shorter rfl rfl rfl rfl (List.suffix_refl _)

/-! ## Beginnings -/

/-- A peer that the next summary was due to awaits a reply, unless it was left. -/
theorem isSome_summary_nextSummary {e : Engine σ} {id : PeerId} {p' : Peer}
    (hp' : (e.nextSummary id).peers[id]? = some p') : p'.summary.isSome = true := by
  unfold nextSummary at hp'
  split at hp'
  next unknown =>
    rw [unknown] at hp'
    cases hp'
  next p hp =>
    split at hp'
    next outstanding =>
      rw [hp] at hp'
      cases hp'
      exact outstanding
    next =>
      split at hp'
      · have awaits : (e.modifyPeer id fun p => p.await _ e.now).peers[id]? = some p' := hp'
        rw [peers_modifyPeer, if_pos rfl, hp] at awaits
        cases awaits
        rfl
      · rw [disconnect, peers_remove, if_pos rfl] at hp'
        cases hp'

/-- A catch-up that begins anew puts the peer in phase, if a summary is outstanding only in the
phases for that. -/
theorem inPhase_startCatchUp {e : Engine σ} {id : PeerId} {p' : Peer}
    (asking : ∀ p : Peer, e.peers[id]? = some p → p.summary.isSome = true →
      p.phase = .summarySent ∨ p.phase = .fetching)
    (hp' : (e.startCatchUp id).peers[id]? = some p') : p'.InPhase := by
  unfold startCatchUp at hp'
  split at hp'
  next =>
    obtain ⟨p, hp, same | ⟨-, ids, rfl⟩⟩ := record_nextSummary hp'
    · -- the record is as the restart left it, so a summary was outstanding before
      have outstanding := isSome_summary_nextSummary hp'
      rw [restart, peers_modifyPeer, if_pos rfl] at hp
      obtain ⟨q, hq, rfl⟩ := Option.map_eq_some_iff.1 hp
      subst same
      exact .restart q e.genesis outstanding (asking q hq outstanding)
    · exact .await p ids _
  next unknown => exact absurd (isRegistered_iff.2 ⟨p', hp'⟩) unknown

/-- A catch-up with one peer leaves the others alone. -/
theorem record_startCatchUp {e : Engine σ} {id other : PeerId} {p' : Peer} (ne : other ≠ id)
    (hp' : (e.startCatchUp id).peers[other]? = some p') : e.peers[other]? = some p' := by
  unfold startCatchUp at hp'
  split at hp'
  next =>
    obtain ⟨p, hp, rfl | ⟨same, -⟩⟩ := record_nextSummary hp'
    · rwa [restart, peers_modifyPeer, if_neg ne] at hp
    · exact absurd same ne
  next => exact hp'

/-- The beginning of a session puts the peer in phase, and leaves the others alone. -/
theorem inPhase_register {e : Engine σ} {id other : PeerId} {height : UInt64} {p' : Peer}
    (hp' : (e.register id height).peers[other]? = some p') :
    if other = id then p'.InPhase else e.peers[other]? = some p' := by
  have opened (other : PeerId) : ((e.remove id none).openSession id).peers[other]? =
      if other = id then
        some (Peer.connected (e.remove id none).genesis (e.remove id none).now)
      else e.peers[other]? := by
    by_cases same : other = id <;> simp [peers_openSession, peers_remove, same]
  simp only [register] at hp'
  by_cases same : other = id
  · subst same
    rw [if_pos rfl]
    split at hp'
    · refine inPhase_startCatchUp (fun p hp outstanding => ?_) hp'
      rw [opened, if_pos rfl] at hp
      cases hp
      cases outstanding
    · rw [peers_modifyPeer, if_pos rfl, opened, if_pos rfl] at hp'
      cases hp'
      constructor <;> simp [Peer.connected]
  · rw [if_neg same]
    split at hp'
    · rw [← record_startCatchUp same hp', opened, if_neg same]
    · rwa [peers_modifyPeer, if_neg same, opened, if_neg same] at hp'

/-! ## Runs -/

/-- A move keeps every peer in phase. -/
theorem InPhase.move {d : Deed} {e e' : Engine σ} (m : Move d e e') (h : e.InPhase) :
    e'.InPhase := by
  intro other p' hp'
  cases m with
  | step s plain =>
    rcases s.revised other p' hp' with ⟨rfl, -⟩ | ⟨p, hp, r⟩
    · exact plain.elim
    · exact r.inPhase plain (h other p hp)
  | startCatchUp _ id =>
    by_cases same : other = id
    · subst same
      exact inPhase_startCatchUp (fun p hp => (h other p hp).asking) hp'
    · exact h other p' (record_startCatchUp same hp')
  | register _ id height =>
    have registered := inPhase_register hp'
    split at registered
    · exact registered
    · exact h other p' registered

/-- **Phases of a run.**  Between operations, no registered peer is without a phase.  One that is
caught up with has an empty queue, nothing left to name, nothing that is needed from it and no
summary outstanding.  A summary is outstanding only in the phases in which a catch-up goes on, and
always while the first reply is awaited. -/
theorem Run.phase_agrees {config : Config} {ledger : σ} {clock : Clock} {start e : Engine σ}
    {past : List (Moment σ)} (started : Engine.start config ledger clock = .ok start)
    (run : Run start past e) (id : PeerId) (p : Peer) (hp : e.peers[id]? = some p) :
    (p.phase = .caughtUp →
        p.toFetch = [] ∧ p.unfetched = 0 ∧ p.needFromPeer = false ∧ p.summary = none) ∧
      (p.summary ≠ none → p.phase = .summarySent ∨ p.phase = .fetching) ∧
      (p.phase = .summarySent → p.summary ≠ none) ∧ p.phase ≠ .idle := by
  have all : e.InPhase := by
    refine run.invariant_of_moves (fun id p hp => ?_) (fun m h => h.move m) fun _ _ h => h
    rw [peers_of_start started] at hp
    cases hp
  have h := all id p hp
  rw [← Option.isSome_iff_ne_none]
  refine ⟨fun done => ?_, h.asking, h.sent, h.begun⟩
  obtain ⟨fetched, claimed, needed⟩ := h.caughtUp done
  exact ⟨fetched, claimed, needed, h.summary_eq_none done⟩

/-- A catch-up with a peer that is caught up with begins anew and ends with a reply that brings
nothing new.  Another peer has not replied yet. -/
theorem phase_agrees_caughtUp :
    ∃ (start e : Engine ChainLedger) (past : List (Moment ChainLedger)) (p q : Peer),
      Engine.start {} (.ofGenesis (.genesis 0) 0 10) {} = .ok start ∧ Run start past e ∧
        e.peers[PeerId.mk 1]? = some p ∧ p.phase = .caughtUp ∧
          (p.toFetch = [] ∧ p.unfetched = 0 ∧ p.needFromPeer = false ∧ p.summary = none) ∧
        e.peers[PeerId.mk 2]? = some q ∧ q.phase = .summarySent ∧ q.summary ≠ none := by
  obtain ⟨start, past, e, started, run, checked⟩ := exists_run {}
    (ChainLedger.ofGenesis (.genesis 0) 0 10) {}
    [.register ⟨1⟩ 0, .startCatchUp ⟨1⟩, .receive ⟨1⟩ (.summaryReply [(Block.bare 0).id] 0),
      .register ⟨2⟩ 4]
    (fun (_, e) => (e.peers[PeerId.mk 1]?).any (·.phase = .caughtUp) &&
      (e.peers[PeerId.mk 2]?).any (·.phase = .summarySent))
    (by decide +kernel)
  simp only [Bool.and_eq_true, Option.any_eq_true, decide_eq_true_eq] at checked
  obtain ⟨⟨p, hp, caughtUp⟩, q, hq, sent⟩ := checked
  exact ⟨start, e, past, p, q, started, run, hp, caughtUp,
    (run.phase_agrees started ⟨1⟩ p hp).1 caughtUp, hq, sent,
    (run.phase_agrees started ⟨2⟩ q hq).2.2.1 sent⟩

end Engine

end BlockRelay
