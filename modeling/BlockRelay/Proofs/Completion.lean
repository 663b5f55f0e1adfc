/-
# The end of a catch-up

A catch-up with a peer ends when a reply leaves nothing to be fetched.  All that the reply names
is stored by then: what is skipped in front of a queue is stored or recent, and a queue is cut
down to nothing only by a reply that starts at a stored block (`stores_of_receiveReply`).

An answer that says that nothing is left ends at the head of the peer, or is empty.  An empty
answer comes from a ledger that knows none of what the summary names; but the summary starts
with a stored block (`Run.anchored`), so that a ledger on the same chain is behind ours.  In both
cases we have what the peer had (`stores_head_of_caughtUp`).
-/
import BlockRelay.Proofs.Outruns
import BlockRelay.Proofs.Prefixes
import BlockRelay.Proofs.Records

namespace BlockRelay

/-! ## Skipping -/

/-- If recent blocks are all that there is, then everything is recent. -/
theorem contains_of_skipRecent_eq_nil {recent : RecentBlocks} {bothHave : BlockId}
    {ids : List BlockId} (skipped : (skipRecent recent bothHave ids).2 = []) :
    ∀ id ∈ ids, recent.contains id = true := by
  induction ids generalizing bothHave with
  | nil => exact nofun
  | cons id rest ih =>
    unfold skipRecent at skipped
    split at skipped
    next recent => exact List.forall_mem_cons.2 ⟨recent, ih skipped⟩
    next => cases skipped

/-- What is not stored is not skipped. -/
theorem mem_skipStored (bothHave : BlockId) {ids : List (BlockId × Bool)} {b : BlockId × Bool}
    (mem : b ∈ ids) : b.2 = true ∨ b ∈ (skipStored bothHave ids).2 := by
  fun_induction skipStored bothHave ids with
  | case1 _ id rest ih =>
    rcases List.mem_cons.1 mem with rfl | mem
    · exact .inl rfl
    · exact ih mem
  | case2 => exact .inr mem

namespace Peer

/-- The last block of a reply is stored, or it is still to be fetched after the reply was joined,
unless it is the only one and begins nowhere in the queue. -/
theorem getLast_joinReply (p : Peer) {ids : List (BlockId × Bool)} (elsewhere : Bool)
    {last : BlockId × Bool} (ends : ids.getLast? = some last) :
    last.2 = true ∨ (∃ b ∈ (p.joinReply ids elsewhere).toFetch, b.hash = last.1.hash) ∨
      p.toFetch ≠ [] ∧ ids = [last] ∧ last.1.isIn p.toFetch = false := by
  have mem := List.mem_of_getLast? ends
  by_cases nothing : p.toFetch = []
  · rw [toFetch_joinReply_of_nil nothing]
    cases elsewhere with
    | true => exact .inr (.inl ⟨last.1, List.mem_map_of_mem mem, rfl⟩)
    | false =>
      refine (mem_skipStored p.bothHave mem).imp_right fun kept => ?_
      exact .inl ⟨last.1, List.mem_map_of_mem kept, rfl⟩
  · obtain ⟨⟨first, stored⟩, rest, rfl⟩ := List.exists_cons_of_ne_nil (List.ne_nil_of_mem mem)
    rw [toFetch_joinReply_cons nothing]
    cases rest with
    | nil =>
      cases ends
      by_cases kept : (p.cutBehind first stored).toFetch = []
      · -- the queue was cut down to nothing, so that the reply begins nowhere in it
        refine .inr (.inr ⟨nothing, rfl, Bool.eq_false_iff.2 fun queued => ?_⟩)
        exact isIn_of_cutBehind_ne_nil queued kept
      · obtain ⟨list, last, eq, same⟩ := toFetch_cutBehind_concat kept
        exact .inr (.inl ⟨last, by simp [eq], same⟩)
    | cons next rest =>
      rw [List.getLast?_cons_cons] at ends
      have later : last.1 ∈ (next :: rest).map (·.1) :=
        List.mem_map_of_mem (List.mem_of_getLast? ends)
      exact .inr (.inl ⟨last.1, List.mem_append_right _ later, rfl⟩)

/-- Going on with a catch-up ends it only if nothing is left, and all that is to be fetched is
recent. -/
theorem of_needFromPeer_continueCatchUp {p : Peer} {ids : List (BlockId × Bool)}
    {remaining : UInt64} {elsewhere : Bool} {recent : RecentBlocks} (needed : p.needFromPeer = true)
    (finished : (p.continueCatchUp ids remaining elsewhere recent).needFromPeer = false) :
    remaining = 0 ∧
      ∀ b ∈ (p.joinReply ids elsewhere).toFetch, recent.contains b = true := by
  have joined : (p.joinReply ids elsewhere).needFromPeer = true := by
    obtain ⟨_, _, eq⟩ := p.joinReply_eq ids elsewhere
    rw [eq]
    exact needed
  simp only [continueCatchUp, joined, Bool.true_and, Bool.not_eq_false', Bool.and_eq_true,
    decide_eq_true_eq, List.isEmpty_iff] at finished
  exact ⟨finished.1, contains_of_skipRecent_eq_nil finished.2⟩

end Peer

namespace Engine

variable {e e' : Engine ChainLedger}

/-! ## Summaries -/

/-- Every outstanding summary starts with a stored block. -/
def Anchored (e : Engine ChainLedger) : Prop :=
  ∀ (id : PeerId) (p : Peer) (s : SummaryRequest), e.peers[id]? = some p → p.summary = some s →
    ∃ first, s.ids.head? = some first ∧ first.Faithful ∧ e.Stores first

/-- No step sends a summary that starts with a block which is not stored. -/
theorem Anchored.step {d : Deed} (s : Step d e e') (linear : e.ledger.Linear) (h : e.Anchored) :
    e'.Anchored := by
  intro id p' request hp' outstanding
  have grows := s.learns.ledger linear
  suffices ∃ first, request.ids.head? = some first ∧ first.Faithful ∧ e.Stores first by
    obtain ⟨first, starts, faithful, stored⟩ := this
    exact ⟨first, starts, faithful, grows.stored _ stored⟩
  rcases s.revised id p' hp' with ⟨-, rfl⟩ | ⟨p, hp, r⟩
  · cases outstanding
  · rcases r.summary_cases outstanding with old | ⟨-, sample⟩
    · exact h id p request hp old
    · obtain ⟨first, starts, mem⟩ := ChainLedger.head?_sampleChain sample
      obtain ⟨i, found⟩ := Array.getElem?_of_mem mem
      exact ⟨first, starts, (linear.height found).2, (linear.stored _).2 ⟨first, mem, rfl⟩⟩

/-- **In a local run every outstanding summary starts with a stored block.** -/
theorem Run.anchored {config : Config} {ledger : ChainLedger} {clock : Clock}
    {start : Engine ChainLedger} {past : List (Moment ChainLedger)} (run : Run start past e)
    (started : Engine.start config ledger clock = .ok start) (linear : ledger.Linear)
    (loc : ∀ m ∈ past, m.Local) : e.Anchored := by
  induction run with
  | start =>
    intro id p s hp
    cases (peers_of_start started id).symm.trans hp
  | @meddle past e ledger before ih =>
    obtain ⟨here, earlier⟩ := List.forall_mem_cons.1 loc
    have grows := (before.sound started linear earlier).linear.grows_calls here
    intro id p s hp outstanding
    obtain ⟨first, starts, faithful, stored⟩ := ih earlier id p s hp outstanding
    exact ⟨first, starts, faithful, grows.stored _ stored⟩
  | @perform past e e' op answer before done ih =>
    obtain ⟨-, earlier⟩ := List.forall_mem_cons.1 loc
    have sound := before.sound started linear earlier
    suffices e'.ledger.Linear ∧ e'.Anchored from this.2
    refine (course_perform done).preserves (I := fun e => e.ledger.Linear ∧ e.Anchored) ?_
      ⟨sound.linear, ih earlier⟩
    rintro d e₁ e₂ - s ⟨linear, anchored⟩
    exact ⟨(s.learns.ledger linear).linear, anchored.step s linear⟩

/-! ## Replies -/

/-- How a reply ends a catch-up: it is legal, and it says that nothing is left.  It names nothing
new, or all that is to be fetched after it was joined is recent. -/
theorem ends_receiveReply {id : PeerId} {ids : List BlockId} {remaining : UInt64} {p p' : Peer}
    (hp : e.peers[id]? = some p) (needed : p.needFromPeer = true)
    (done : e.receiveReply id ids remaining = .ok e') (hp' : e'.peers[id]? = some p')
    (finished : p'.needFromPeer = false) :
    ∃ s, p.summary = some s ∧
      e.chainFacts.judge e.config.net e.clock.wallTime s.ids ids remaining = .ok (.ok ()) ∧
      remaining = 0 ∧
      let stored := ids.map fun b => (b, Ledger.containsBlock e.ledger b)
      (p.nothingNew stored = true ∨
        ∃ elsewhere, ∀ b ∈ ({ p with summary := none }.joinReply stored elsewhere).toFetch,
          e.recent.contains b = true) := by
  rcases receiveReply_cases hp done with rfl | ⟨s, hs, legal, ⟨zero, nothing, -⟩ | joined⟩
  · -- the session has ended
    rw [disconnect, peers_remove, if_pos rfl] at hp'
    cases hp'
  · exact ⟨s, hs, legal, zero, .inl nothing⟩
  · obtain ⟨elsewhere, enough, e₁, taken, followed⟩ := joined
    have hp₁ : e₁.peers[id]? = some ({ p with summary := none }.continueCatchUp
        (ids.map fun b => (b, Ledger.containsBlock e.ledger b)) remaining elsewhere e.recent) := by
      rw [peers_takeUp taken, Std.TreeMap.getElem?_insert_self]
    have ended : ({ p with summary := none }.continueCatchUp
        (ids.map fun b => (b, Ledger.containsBlock e.ledger b)) remaining elsewhere
        e.recent).needFromPeer = false := by
      rcases followed with rfl | rfl
      · cases hp₁.symm.trans hp'
        exact finished
      · obtain ⟨q, hq, same⟩ := record_nextSummary hp'
        cases hp₁.symm.trans hq
        rcases same with rfl | ⟨-, _, rfl⟩ <;> exact finished
    obtain ⟨zero, all⟩ :=
      Peer.of_needFromPeer_continueCatchUp (p := { p with summary := none }) needed ended
    exact ⟨s, hs, legal, zero, .inr ⟨elsewhere, all⟩⟩

/-- **A reply that ends a catch-up.**  It says that nothing is left, and its last block is
stored. -/
theorem stores_of_receiveReply {lost : SummaryRequest → BlockId → Prop} {id : PeerId}
    {ids : List BlockId} {remaining : UInt64} {p p' : Peer} (sound : e.Sound)
    (hp : e.peers[id]? = some p) (accounts : Accounts lost e p.plan)
    (needed : p.needFromPeer = true) (done : e.receiveReply id ids remaining = .ok e')
    (hp' : e'.peers[id]? = some p') (finished : p'.needFromPeer = false) :
    remaining = 0 ∧ ∀ last, ids.getLast? = some last → e.Stores last := by
  obtain ⟨s, hs, legal, zero, ended⟩ := ends_receiveReply hp needed done hp' finished
  refine ⟨zero, fun last ends => ?_⟩
  rcases ended with nothing | ⟨elsewhere, all⟩
  · cases ids with
    | nil => cases ends
    | cons b rest =>
      cases rest with
      | nil =>
        cases ends
        exact stores_of_nothingNew nothing
      | cons => simp [Peer.nothingNew] at nothing
  · have answered : (ids.map fun b => (b, Ledger.containsBlock e.ledger b)).getLast? =
        some (last, Ledger.containsBlock e.ledger last) := by
      rw [List.getLast?_map, ends, Option.map_some]
    rcases Peer.getLast_joinReply { p with summary := none } elsewhere answered with
      stored | ⟨b, mem, same⟩ | ⟨queued, only, absent⟩
    · exact stored
    · rw [Stores, ← same]
      exact sound.stores_of_contains (all b mem)
    · -- the only block begins nowhere in the queue, so that the summary named it as stored
      have single : ids = [last] := by
        have list := map_fst_answers ids (Ledger.containsBlock e.ledger)
        rw [only] at list
        exact list.symm
      have starts := (ChainFacts.of_judge legal).2 last (by rw [single]; rfl)
      rcases accounts.start hs starts with stored | found | ⟨empty, -⟩
      · exact stored
      · exact absurd found (Bool.eq_false_iff.1 absent)
      · exact absurd empty queued

/-! ## The end of a catch-up -/

/-- **A catch-up that ends is complete.**  In a local run over a ledger in memory, let a reply to
the outstanding summary be what another ledger with the same genesis block answers, with as many
blocks left as this answer says, and let the one main chain be a prefix of the other one when
the reply is handled.  If the reply ends the catch-up, then our ledger stores what was the head
of the other one when it answered. -/
theorem stores_head_of_caughtUp {config : Config} {clock : Clock} {genesis : Block}
    {solidifyDepth solidifyDepth' batch batch' : Nat} {ledger asked now : ChainLedger}
    {start : Engine ChainLedger} {past : List (Moment ChainLedger)} (zero : genesis.number = 0)
    (calls : (ChainLedger.ofGenesis genesis solidifyDepth batch).Calls ledger)
    (started : Engine.start config ledger clock = .ok start) (run : Run start past e)
    (loc : ∀ m ∈ past, m.Local) {id : PeerId} {p p' : Peer} {s : SummaryRequest}
    {ids : List BlockId} {answer : Outcome} (hp : e.peers[id]? = some p)
    (outstanding : p.summary = some s) (needed : p.needFromPeer = true)
    (grown : (ChainLedger.ofGenesis genesis solidifyDepth' batch').Calls asked)
    (answered : asked.idsBeyond s.ids = .ok ids) (since : asked.Calls now)
    (comparable : e.ledger.Below now ∨ now.Below e.ledger)
    (done : e.perform (.receive id (.summaryReply ids (remainingFor asked.head s.ids ids))) =
      .ok (answer, e'))
    (hp' : e'.peers[id]? = some p') (finished : p'.needFromPeer = false) :
    e'.Stores asked.head := by
  have linear := ((ChainLedger.Linear.ofGenesis zero solidifyDepth batch).grows_calls calls).linear
  have sound := run.sound started linear loc
  have grows := (sound.course (course_perform done) (fun b queued => nomatch queued)).2
  have planned : e.planOf id = some p.plan := planOf_eq hp
  have received := receive_of_perform done
  rw [receive, if_pos (isRegistered_iff.2 ⟨p, hp⟩)] at received
  obtain ⟨complete, ends⟩ := stores_of_receiveReply sound hp
    (run.accounts started linear loc planned) needed received hp' finished
  suffices e.Stores asked.head from grows.stored _ this
  cases nonempty : ids.getLast? with
  | some last =>
    -- an answer that leaves nothing ends at the head of the ledger that gave it
    have other := ((ChainLedger.Linear.ofGenesis zero solidifyDepth' batch').grows_calls grown).linear
    have top : last = asked.head :=
      ChainLedger.getLast?_idsBeyond other (ChainLedger.batch_pos grown) answered complete nonempty
    exact top ▸ ends last nonempty
  | none =>
    rw [List.getLast?_eq_none_iff] at nonempty
    subst nonempty
    obtain ⟨first, starts, faithful, stored⟩ :=
      run.anchored started linear loc id p s hp outstanding
    have before := ChainLedger.below_calls since
    have comparable : e.ledger.Below asked ∨ asked.Below e.ledger := by
      rcases comparable with behind | ahead
      · exact behind.total before
      · exact .inr (before.trans ahead)
    have below := ChainLedger.below_of_idsBeyond_eq_nil answered comparable
      (List.mem_of_head? starts) (sound.linear.onMain_of_stored faithful stored)
    exact (sound.linear.stored _).2 ⟨asked.head, below.head_mem, rfl⟩

/-- A catch-up with a peer that has one block more than we have, up to the summary that follows
when this block has been applied. -/
def caughtUpByOne : List Operation :=
  [.register ⟨1⟩ 1, .receive ⟨1⟩ (.summaryReply [(Block.bare 0).id, (Block.bare 1).id] 0),
    .issueRequests, .receive ⟨1⟩ (.block (.bare 1)), .applyWaiting]

/-- Whether the peer is still caught up with, and its answer to the summary ends this. -/
def endsCatchUp (e : Engine ChainLedger) (asked : ChainLedger) : Bool :=
  (e.peers[PeerId.mk 1]?).any fun p => p.needFromPeer && p.summary.any fun s =>
    (asked.idsBeyond s.ids).toOption.any fun ids =>
      (e.perform (.receive ⟨1⟩ (.summaryReply ids (remainingFor asked.head s.ids ids)))).toOption.any
        fun r => (r.2.peers[PeerId.mk 1]?).any fun p' => !p'.needFromPeer

/-- Whether a run is ordinary, leads to the main chain of `asked`, and the catch-up with the
peer ends next. -/
def endsWith (asked : ChainLedger) (r : List (Moment ChainLedger) × Engine ChainLedger) : Bool :=
  r.1.all isOrdinary && asked.main = r.2.ledger.main && endsCatchUp r.2 asked

/-- The ledger of the peer, and what is checked about the catch-up with it. -/
theorem exists_caughtUpByOne :
    ∃ (asked : ChainLedger) (start e : Engine ChainLedger) (past : List (Moment ChainLedger)),
      (ChainLedger.ofGenesis (.genesis 0) 0 10).Calls asked ∧
        Engine.start {} (.ofGenesis (.genesis 0) 0 10) {} = .ok start ∧ Run start past e ∧
          (∀ m ∈ past, m.Local) ∧ e.ledger.Below asked ∧ endsCatchUp e asked = true := by
  have checked : ((ChainLedger.ofGenesis (.genesis 0) 0 10).applyBlock (.bare 1)).toOption.any
      (fun r => ((Engine.start {} (ChainLedger.ofGenesis (.genesis 0) 0 10) {}).bind
        fun e => e.trace caughtUpByOne []).toOption.any (endsWith r.2)) = true := by
    decide +kernel
  obtain ⟨⟨_, asked⟩, applied, checked⟩ := (Option.any_eq_true _ _).1 checked
  rw [Checked.toOption_eq_some_iff] at applied
  obtain ⟨start, past, e, started, run, checked⟩ := exists_run _ _ _ _ _ checked
  simp only [endsWith, Bool.and_eq_true, List.all_eq_true, decide_eq_true_eq] at checked
  obtain ⟨⟨ordinary, main⟩, ends⟩ := checked
  exact ⟨asked, start, e, past, .single (.applyBlock applied), started, run,
    fun m mem => local_of_isOrdinary (ordinary m mem), .of_main main, ends⟩

/-- The catch-up with the peer ends, and its one block is stored. -/
theorem caught_up_by_one :
    ∃ (asked : ChainLedger) (start e e' : Engine ChainLedger) (past : List (Moment ChainLedger))
      (p p' : Peer) (s : SummaryRequest) (ids : List BlockId) (answer : Outcome),
      (ChainLedger.ofGenesis (.genesis 0) 0 10).Calls asked ∧
        Engine.start {} (.ofGenesis (.genesis 0) 0 10) {} = .ok start ∧ Run start past e ∧
          (∀ m ∈ past, m.Local) ∧ e.peers[PeerId.mk 1]? = some p ∧ p.summary = some s ∧
            p.needFromPeer = true ∧ asked.idsBeyond s.ids = .ok ids ∧
              e.perform (.receive ⟨1⟩ (.summaryReply ids (remainingFor asked.head s.ids ids))) =
                .ok (answer, e') ∧
                e'.peers[PeerId.mk 1]? = some p' ∧ p'.needFromPeer = false ∧
                  e'.Stores asked.head := by
  obtain ⟨asked, start, e, past, grown, started, run, loc, below, ends⟩ := exists_caughtUpByOne
  simp only [endsCatchUp, Option.any_eq_true, Checked.toOption_eq_some_iff, Bool.and_eq_true,
    Bool.not_eq_true'] at ends
  obtain ⟨p, hp, needed, s, outstanding, ids, answered, ⟨answer, e'⟩, done, p', hp', finished⟩ :=
    ends
  have stored := stores_head_of_caughtUp rfl .refl started run loc hp outstanding needed grown
    answered .refl (.inl below) done hp' finished
  exact ⟨asked, start, e, e', past, p, p', s, ids, answer, grown, started, run, loc, hp,
    outstanding, needed, answered, done, hp', finished, stored⟩

end Engine

end BlockRelay
