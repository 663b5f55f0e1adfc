/-
# Summary rounds

A round is a summary, the answer to it, and the reply as it is received.  The two sides are on one
chain, and one of them is ahead: what it has above our head is what we lack, and the queue of its
record is a first part of this (`Engine.Pursues`).

One round makes the queue longer by what the answer names beyond the end of the queue, and nothing
else (`Pursues.continueCatchUp`).  The sum of what is queued and of what is claimed to be left is
then the distance of the two heads (`Pursues.receiveReply`), however the summary was sampled, and
however short the answer was cut.
-/
import BlockRelay.Proofs.Counts
import BlockRelay.Proofs.Segments
import BlockRelay.Proofs.Stored
import BlockRelay.Proofs.ValidChain

namespace BlockRelay.Engine

variable {e e' f : Engine ChainLedger} {c : ChainLedger} {id me : PeerId} {p q : Peer}
  {s : SummaryRequest} {summary : List BlockId} {tip : BlockId} {remaining : UInt64}
  {top high : Nat}

/-! ## The side that is ahead -/

/-- **The answer.**  A summary whose last block is on the main chain is answered, whoever asks, and
nothing else happens. -/
theorem answerSummary_eq (linear : f.ledger.Linear) (hq : f.peers[me]? = some q)
    (ends : summary.getLast? = some tip) (found : f.ledger.main[top]? = some tip) :
    f.answerSummary me summary =
      (f.ledger.idsBeyond summary).map fun ids => f.sendAnswer me summary ids := by
  have stored : f.ledger.blocks.contains tip.hash = true :=
    (linear.stored _).2 ⟨tip, Array.mem_of_getElem? found, rfl⟩
  have known : (summary.getLast?.any fun last => !Ledger.containsBlock f.ledger last) = false := by
    rw [ends, Option.any_some]
    show (!f.ledger.blocks.contains tip.hash) = false
    rw [stored]
    rfl
  have missing : f.missingFor summary = f.ledger.idsBeyond summary := by
    change ((f.ledger.idsBeyond summary).map _ >>= _) = _
    cases f.ledger.idsBeyond summary <;> rfl
  unfold answerSummary
  rw [missing]
  cases answer : f.ledger.idsBeyond summary with
  | error => rfl
  | ok ids =>
    have revocable : ids.isEmpty = true →
        (summary.head?.map fun first => Ledger.canRewindTo f.ledger first.number) ≠ some false := by
      -- with the first block alone, the solidified block has height zero
      intro nothing eq
      obtain ⟨first, -, low⟩ := Option.map_eq_some_iff.1 eq
      have short : f.ledger.headIndex = 0 := by
        by_contra long
        rw [linear.idsBeyond_eq ends found answer, if_neg long] at nothing
        cases nothing
      have solid : f.ledger.main[0]? = some f.ledger.solidified := by
        have at_zero : f.ledger.headIndex - f.ledger.solidifyDepth = 0 := by omega
        have pos := f.ledger.main_pos
        rw [Array.getElem?_eq_getElem pos, ChainLedger.solidified]
        simp only [at_zero]
      have zero : f.ledger.solidified.number ≤ first.number := by
        rw [UInt64.le_iff_toNat_le, (linear.height solid).1]
        exact Nat.zero_le _
      exact of_decide_eq_false low zero
    dsimp only [bind, Except.bind]
    rw [hq, known]
    dsimp only
    rw [Bool.and_false, Bool.false_and, if_neg Bool.false_ne_true, if_neg]
    · rfl
    · rw [Bool.and_eq_true, beq_iff_eq]
      exact fun both => revocable both.1 both.2

/-- The answer as it is carried out. -/
theorem perform_summaryRequest (linear : f.ledger.Linear) (hq : f.peers[me]? = some q)
    (ends : summary.getLast? = some tip) (found : f.ledger.main[top]? = some tip) :
    f.perform (.receive me (.summaryRequest summary)) =
      (f.ledger.idsBeyond summary).map fun ids => (.done, f.sendAnswer me summary ids) := by
  have heard : f.receive me (.summaryRequest summary) = f.answerSummary me summary :=
    if_pos (isRegistered_iff.2 ⟨q, hq⟩)
  rw [perform, heard, answerSummary_eq linear hq ends found]
  cases f.ledger.idsBeyond summary <;> rfl

/-! ## The side that catches up -/

/-- The record of a peer that was sent a summary. -/
theorem peers_sendSummary (hp : e.peers[id]? = some p) (summary : List BlockId) :
    (e.sendSummary id summary).peers[id]? = some (p.await summary e.now) := by
  have modified := peers_modifyPeer e id (fun p => p.await summary e.now) id
  rw [if_pos rfl, hp] at modified
  exact modified

/-- A catch-up with the only peer that has anything for us, on a chain that ours is the lower part
of.  What is queued is what the chain has above our head and up to the height `top`. -/
structure Pursues (e : Engine ChainLedger) (c : ChainLedger) (id : PeerId) (p : Peer)
    (top : Nat) : Prop where
  linear : e.ledger.Linear
  whole : c.Linear
  below : e.ledger.Below c
  low : e.ledger.headIndex ≤ top
  high : top ≤ c.headIndex
  queue : p.toFetch = c.segment e.ledger.headIndex top
  shared : p.bothHave.same e.ledger.first = true ∨ p.bothHave = e.ledger.head
  alone : ∀ (other : PeerId) (q : Peer), e.peers[other]? = some q → other ≠ id → q.toFetch = []
  recent : ∀ b ∈ e.recent.ids, b ∈ e.ledger.main

namespace Pursues

/-- The chain has our head at its height. -/
theorem base (h : e.Pursues c id p top) : c.main[e.ledger.headIndex]? = some e.ledger.head :=
  h.below.getElem? e.ledger.getElem?_headIndex

/-- The last block to be fetched, or our head, is where the chain has been followed to. -/
theorem ends (h : e.Pursues c id p top) :
    (e.ledger.head :: p.toFetch).getLast? = c.main[top]? := by
  rw [h.queue]
  exact ChainLedger.getLast?_segment h.base h.low h.high

/-- What the chain has at the end of the queue. -/
theorem exists_tip (h : e.Pursues c id p top) : ∃ tip, c.main[top]? = some tip := by
  have size := c.size_main
  have high := h.high
  exact ⟨_, Array.getElem?_eq_getElem (by omega)⟩

/-- A catch-up stays what it is when the chain, the recent blocks and the queues stay. -/
theorem congr {p' : Peer} (h : e.Pursues c id p top) (main : e'.ledger.main = e.ledger.main)
    (blocks : e'.ledger.blocks = e.ledger.blocks) (recent : e'.recent = e.recent)
    (others : ∀ other, other ≠ id → e'.peers[other]? = e.peers[other]?)
    (queue : p'.toFetch = p.toFetch) (shared : p'.bothHave = p.bothHave) :
    e'.Pursues c id p' top := by
  have head : e'.ledger.head = e.ledger.head := by simp only [ChainLedger.head, main]
  have first : e'.ledger.first = e.ledger.first := by simp only [ChainLedger.first, main]
  have index : e'.ledger.headIndex = e.ledger.headIndex := by
    simp only [ChainLedger.headIndex, main]
  refine ⟨(h.linear.grows_of_same main blocks).linear, h.whole,
    (ChainLedger.Below.of_main main.symm).trans h.below, ?_, h.high, ?_, ?_, ?_, ?_⟩
  · rw [index]
    exact h.low
  · rw [index, queue]
    exact h.queue
  · rw [shared, head, first]
    exact h.shared
  · intro other q hq ne
    rw [others other ne] at hq
    exact h.alone other q hq ne
  · rw [recent, main]
    exact h.recent

/-- **The summary.**  The next summary is sent, and ends where the queue does. -/
theorem nextSummary (h : e.Pursues c id p top) (hp : e.peers[id]? = some p)
    (free : p.summary = none) :
    ∃ summary, summary ≠ [] ∧ summary.getLast? = c.main[top]? ∧
      e.nextSummary id = e.sendSummary id summary := by
  obtain ⟨summary, sampled, ends⟩ := h.linear.sampleChain_head h.shared p.toFetch
  refine ⟨summary, (ChainLedger.sampleChain_eq_ok sampled).1, ends.trans h.ends, ?_⟩
  have sampled : Ledger.sampleChain e.ledger p.bothHave p.toFetch = .ok summary := sampled
  unfold Engine.nextSummary
  simp only [hp, free, Option.isSome_none, Bool.false_eq_true, if_false, sampled]

/-- A summary is sent, and the catch-up stays what it is. -/
theorem sendSummary (h : e.Pursues c id p top) (summary : List BlockId) :
    (e.sendSummary id summary).Pursues c id (p.await summary e.now) top := by
  refine h.congr rfl rfl rfl (fun other ne => ?_) rfl rfl
  have modified := peers_modifyPeer e id (fun p => p.await summary e.now) other
  rw [if_neg ne] at modified
  exact modified

/-- A ledger has stored just the blocks of the chain up to its head. -/
theorem stored_iff (h : e.Pursues c id p top) {i : Nat} {b : BlockId}
    (found : c.main[i]? = some b) :
    Ledger.containsBlock e.ledger b = true ↔ i ≤ e.ledger.headIndex :=
  h.below.stored_iff h.linear h.whole found

/-- What is above our head is not recent. -/
theorem fresh (h : e.Pursues c id p top) {low : Nat} (le : e.ledger.headIndex ≤ low) :
    ∀ b ∈ c.segment low high, e.recent.contains b = false := by
  intro b mem
  obtain ⟨i, above, -, found⟩ := ChainLedger.mem_segment.1 mem
  rw [Bool.eq_false_iff]
  intro listed
  obtain ⟨other, known, same⟩ := BlockId.isIn_iff.1 listed
  have stored : Ledger.containsBlock e.ledger b = true :=
    (h.linear.stored _).2 ⟨other, h.recent other known, same.symm⟩
  have low := (h.stored_iff found).1 stored
  omega

/-- Nobody else is about to deliver anything. -/
theorem frontElsewhere (h : e.Pursues c id p top) (ids : List BlockId) :
    e.frontElsewhere id ids = false := by
  rw [Bool.eq_false_iff]
  intro elsewhere
  obtain ⟨first, -, found⟩ := (Option.any_eq_true _ _).1 elsewhere
  obtain ⟨⟨other, q⟩, mem, fits⟩ := List.any_eq_true.1 found
  have hq : e.peers[other]? = some q := Std.TreeMap.mem_toList_iff_getElem?_eq_some.1 mem
  rw [Bool.and_eq_true, decide_eq_true_eq] at fits
  rw [h.alone other q hq fits.1] at fits
  cases fits.2

/-- **The reply.**  A reply that starts at the end of the queue makes it reach higher. -/
theorem continueCatchUp (h : e.Pursues c id p top) (found : c.main[top]? = some tip)
    (le : top ≤ high) (reach : high ≤ c.headIndex) (remaining : UInt64) :
    p.continueCatchUp ((tip :: c.segment top high).map fun b =>
        (b, Ledger.containsBlock e.ledger b)) remaining false e.recent =
      { p with
        toFetch := c.segment e.ledger.headIndex high
        bothHave := if e.ledger.headIndex = top then tip else p.bothHave
        unfetched := remaining
        needFromPeer := p.needFromPeer && !(remaining = 0 && e.ledger.headIndex = high)
        phase := if remaining = 0 && e.ledger.headIndex = high then .caughtUp else .fetching } :=
  Peer.continueCatchUp_segment found h.low le reach h.queue
    (fun _ _ found => h.stored_iff found) (h.fresh (Nat.le_refl _))

/-- When a reply was joined, the catch-up has come to where the reply ends. -/
theorem joined (h : e.Pursues c id p top) (found : c.main[top]? = some tip) (le : top ≤ high)
    (reach : high ≤ c.headIndex) (remaining : UInt64) :
    e.Pursues c id (p.continueCatchUp ((tip :: c.segment top high).map fun b =>
      (b, Ledger.containsBlock e.ledger b)) remaining false e.recent) high := by
  rw [h.continueCatchUp found le reach]
  refine ⟨h.linear, h.whole, h.below, h.low.trans le, reach, rfl, ?_, h.alone, h.recent⟩
  dsimp only
  split
  next alike =>
    -- the reply starts at our head
    rw [← alike, h.base] at found
    exact .inr (Option.some.inj found).symm
  next => exact h.shared

/-- An empty reply while nothing is queued leaves nothing to be fetched. -/
theorem joined_nil (h : e.Pursues c id p top) (nothing : p.toFetch = []) (remaining : UInt64) :
    e.Pursues c id (p.continueCatchUp [] remaining false e.recent) top := by
  have joined : p.joinReply [] false = { p with toFetch := [], bothHave := p.bothHave } := by
    unfold Peer.joinReply
    rw [nothing]
    rfl
  unfold Peer.continueCatchUp
  rw [joined]
  exact ⟨h.linear, h.whole, h.below, h.low, h.high, nothing.symm.trans h.queue, h.shared, h.alone,
    h.recent⟩

/-- Counting is possible as soon as it is for the record of the peer. -/
theorem exists_maxUnsynced (h : e.Pursues c id p top) {p' : Peer} (fits : p'.CountFits) :
    ∃ n, maxUnsynced { e with peers := e.peers.insert id p' } = .ok n := by
  refine countsFit_iff.1 fun other r hr => ?_
  rw [Std.TreeMap.getElem?_insert] at hr
  simp only [Std.LawfulEqCmp.compare_eq_iff_eq] at hr
  split at hr
  next =>
    cases hr
    exact fits
  next ne =>
    show r.unfetched.toNat + r.toFetch.length < wordBound
    rw [h.alone other r hr (Ne.symm ne)]
    exact r.unfetched.toNat_lt

/-- A catch-up goes on with a record that was put in place of the old one. -/
theorem inserted (h : e.Pursues c id p top) {p' : Peer} (peers : e'.peers = e.peers.insert id p')
    (queue : p'.toFetch = p.toFetch) (shared : p'.bothHave = p.bothHave)
    (main : e'.ledger.main = e.ledger.main) (blocks : e'.ledger.blocks = e.ledger.blocks)
    (recent : e'.recent = e.recent) :
    e'.peers[id]? = some p' ∧ e'.Pursues c id p' top := by
  constructor
  · rw [peers, Std.TreeMap.getElem?_insert_self]
  · refine h.congr main blocks recent (fun other ne => ?_) queue shared
    rw [peers, Std.TreeMap.getElem?_insert, if_neg]
    exact fun same => ne (Std.LawfulEqCmp.eq_of_compare same).symm

/-- The catch-up with a peer whose record can be counted is ended. -/
theorem finish (h : e.Pursues c id p top) (fits : p.CountFits) :
    ∃ e', e.finishCatchUp id p = .ok e' ∧ e'.peers[id]? = some p.endCatchUp ∧
      e'.Pursues c id p.endCatchUp top := by
  have done : ∃ e', e.finishCatchUp id p = .ok e' := by
    have fits : p.endCatchUp.CountFits := fits
    obtain ⟨n, counted⟩ := h.exists_maxUnsynced fits
    exact ⟨_, Checked.bind_eq_ok_iff.2 ⟨n, counted, rfl⟩⟩
  obtain ⟨e', done⟩ := done
  refine ⟨e', done, ?_⟩
  obtain ⟨_, rfl | ⟨_, rfl⟩⟩ := finishCatchUp_cases done <;>
    exact h.inserted rfl rfl rfl rfl rfl rfl

/-- The catch-up with a peer whose record can be counted goes on, and a summary may follow. -/
theorem resume (h : e.Pursues c id p top) (free : p.summary = none) (fits : p.CountFits)
    (enough : Bool) :
    ∃ e' p', (e.takeUp id p enough >>= fun e₁ =>
        .ok (if enough then e₁ else e₁.nextSummary id) : Checked (Engine ChainLedger)) = .ok e' ∧
      e'.peers[id]? = some p' ∧ p'.unfetched = p.unfetched ∧ p'.toFetch = p.toFetch ∧
        e'.Pursues c id p' top := by
  have done : ∃ e₁, e.takeUp id p enough = .ok e₁ := by
    obtain ⟨n, counted⟩ := h.exists_maxUnsynced fits
    exact ⟨_, Checked.bind_eq_ok_iff.2 ⟨n, counted, rfl⟩⟩
  obtain ⟨e₁, done⟩ := done
  have kept : e₁.peers[id]? = some p ∧ e₁.Pursues c id p top := by
    obtain ⟨_, _, rfl | ⟨_, rfl⟩⟩ := takeUp_cases done <;> exact h.inserted rfl rfl rfl rfl rfl rfl
  obtain ⟨hp, pursues⟩ := kept
  rw [done]
  cases enough with
  | true => exact ⟨e₁, p, rfl, hp, rfl, rfl, pursues⟩
  | false =>
    obtain ⟨summary, -, -, sent⟩ := pursues.nextSummary hp free
    refine ⟨e₁.nextSummary id, p.await summary e₁.now, rfl, ?_, rfl, rfl, ?_⟩
    · rw [sent]
      exact peers_sendSummary hp summary
    · rw [sent]
      exact pursues.sendSummary summary

/-- The answer of the chain to a summary that ends where the queue does is legal, if the chain is
not higher than what can exist by now. -/
theorem legal (h : e.Pursues c id p top) (ends : summary.getLast? = c.main[top]?)
    {ids : List BlockId} (answered : c.idsBeyond summary = .ok ids)
    (bounded : e.ledger.head.number ≠ 0 → ∃ bound,
      e.chainFacts.futureBound e.config.net e.clock.wallTime = .ok bound ∧
        c.head.number.toNat ≤ bound) :
    e.chainFacts.judge e.config.net e.clock.wallTime summary ids (remainingFor c.head summary ids) =
      .ok (.ok ()) := by
  obtain ⟨tip, found⟩ := h.exists_tip
  have named : summary ≠ [] := by
    rintro nothing
    rw [nothing, found] at ends
    cases ends
  exact (h.whole.answers named answered).legal named bounded

/-- **What an answer does.**  The answer of the chain to the outstanding summary makes the queue
reach a batch higher, or up to the head of the chain.  What is left is counted. -/
theorem receiveReply (h : e.Pursues c id p top) (hp : e.peers[id]? = some p)
    (asked : p.summary = some s) (batch : 1 ≤ c.batch) (ends : s.ids.getLast? = c.main[top]?)
    {ids : List BlockId} (answered : c.idsBeyond s.ids = .ok ids)
    (bounded : e.ledger.head.number ≠ 0 → ∃ bound,
      e.chainFacts.futureBound e.config.net e.clock.wallTime = .ok bound ∧
        c.head.number.toNat ≤ bound) :
    ∃ e' p', e.receiveReply id ids (remainingFor c.head s.ids ids) = .ok e' ∧
      e'.peers[id]? = some p' ∧ e'.Pursues c id p' (min c.headIndex (top + c.batch)) ∧
        p'.toFetch = c.segment e.ledger.headIndex (min c.headIndex (top + c.batch)) ∧
        p'.unsynced = .ok (c.headIndex - e.ledger.headIndex) := by
  have legal := h.legal ends answered bounded
  obtain ⟨tip, found⟩ := h.exists_tip
  rw [found] at ends
  have low := h.low
  have reach := h.high
  have le : top ≤ min c.headIndex (top + c.batch) := by omega
  have le' : min c.headIndex (top + c.batch) ≤ c.headIndex := by omega
  have left := h.whole.remainingFor_eq batch ends found answered
  have answer := h.whole.idsBeyond_eq ends found answered
  generalize remainingFor c.head s.ids ids = remaining at legal left ⊢
  rw [receiveReply_eq_of_legal hp asked legal]
  -- the record after the reply was joined
  have free : e.Pursues c id { p with summary := none } top :=
    ⟨h.linear, h.whole, h.below, h.low, h.high, h.queue, h.shared, h.alone, h.recent⟩
  have joined : e.Pursues c id ({ p with summary := none }.continueCatchUp
      (ids.map fun b => (b, Ledger.containsBlock e.ledger b)) remaining false e.recent)
        (min c.headIndex (top + c.batch)) := by
    split at answer
    next short =>
      have same : min c.headIndex (top + c.batch) = top := by omega
      have level : e.ledger.headIndex = top := by omega
      rw [answer, same]
      refine free.joined_nil ?_ remaining
      rw [h.queue, level, ChainLedger.segment_self]
    next =>
      rw [answer]
      exact free.joined found le le' remaining
  have height : c.head.number.toNat = c.headIndex := h.whole.head_height
  have word := c.head.number.toNat_lt
  have counted {p' : Peer} {i : Nat} (queue : p'.toFetch = c.segment e.ledger.headIndex i)
      (i_le : i ≤ c.headIndex) (sum : p'.unfetched.toNat + (i - e.ledger.headIndex) =
        c.headIndex - e.ledger.headIndex) :
      p'.unsynced = .ok (c.headIndex - e.ledger.headIndex) := by
    rw [Peer.unsynced_eq_ok_iff, Peer.CountFits, queue, ChainLedger.length_segment i_le, sum]
    exact ⟨rfl, by unfold wordBound; omega⟩
  split
  next done =>
    rw [Bool.and_eq_true, decide_eq_true_eq] at done
    obtain ⟨rfl, nothing⟩ := done
    -- nothing is queued, and the reply names one block at most
    obtain ⟨empty, claim⟩ := Peer.fetched_of_nothingNew nothing
    have few := length_le_of_nothingNew nothing
    rw [List.length_map, answer] at few
    have level := congrArg List.length h.queue
    rw [empty, ChainLedger.length_segment reach, List.length_nil] at level
    have same : min c.headIndex (top + c.batch) = top := by
      split at few
      next short => omega
      next =>
        rw [List.length_cons, ChainLedger.length_segment le'] at few
        omega
    rw [UInt64.toNat_zero] at left
    have sum : p.unsynced = .ok (c.headIndex - e.ledger.headIndex) :=
      counted h.queue reach (by rw [claim, UInt64.toNat_zero]; omega)
    obtain ⟨e', done, hp', pursues⟩ := free.finish (Peer.unsynced_eq_ok_iff.1 sum).2
    rw [same]
    exact ⟨e', _, done, hp', pursues, h.queue, sum⟩
  next =>
    have sum := counted joined.queue le' (by
      rw [Peer.unfetched_continueCatchUp, left]
      omega)
    have same : (ids.map fun b => (b, Ledger.containsBlock e.ledger b)).map (·.1) = ids := by
      simp [Function.comp_def]
    unfold resumeCatchUp
    rw [same, h.frontElsewhere]
    obtain ⟨e', p', done, hp', unfetched, queue, pursues⟩ := joined.resume
      (Peer.summary_continueCatchUp ..) (Peer.unsynced_eq_ok_iff.1 sum).2 _
    have queue := queue.trans joined.queue
    refine ⟨e', p', done, hp', pursues, queue, counted queue le' ?_⟩
    rw [unfetched, Peer.unfetched_continueCatchUp, left]
    omega

end Pursues

/-! ## Both sides -/

/-- **A round skips no block and repeats none.**  Our main chain is a prefix of that of a peer, and
the queue of the peer is what its chain has above our head, up to some height.  No summary is
outstanding, the peer is known to have the first block or our head, nobody else has anything for
us, and what is recent is ours.  Then the next summary is sent; the peer answers it, unless a batch
beyond the end of the queue is at no height; and when the answer is received, the queue is all that
the chain of the peer has above our head, up to a batch beyond the old end or to the head of the
peer.  What is left is counted as the distance of the two heads. -/
theorem round_reaches {genesis other : Block} {solidifyDepth batch otherDepth cap k : Nat}
    (zero : genesis.number = 0)
    (ours : (ChainLedger.ofGenesis genesis solidifyDepth batch).Calls e.ledger)
    (theirs : (ChainLedger.ofGenesis other otherDepth cap).Calls f.ledger)
    (below : e.ledger.Below f.ledger) (pos : 1 ≤ cap) (hp : e.peers[id]? = some p)
    (free : p.summary = none)
    (shared : p.bothHave = genesis.id ∨ p.bothHave = e.ledger.head)
    (room : e.ledger.headIndex + k ≤ f.ledger.headIndex)
    (queue : p.toFetch = f.ledger.segment e.ledger.headIndex (e.ledger.headIndex + k))
    (alone : ∀ (other : PeerId) (r : Peer), e.peers[other]? = some r → other ≠ id →
      r.toFetch = [])
    (recent : ∀ b ∈ e.recent.ids, b ∈ e.ledger.main) (hq : f.peers[me]? = some q)
    (bounded : e.ledger.head.number ≠ 0 → ∃ bound,
      e.chainFacts.futureBound e.config.net e.clock.wallTime = .ok bound ∧
        f.ledger.head.number.toNat ≤ bound) :
    ∃ summary e₁, e.perform (.nextSummary id) = .ok (.done, e₁) ∧
      e₁.journal = e.journal ++ [.sent id (.summaryRequest summary)] ∧
      (e.ledger.headIndex + k + cap < wordBound →
        ∃ f', f.perform (.receive me (.summaryRequest summary)) = .ok (.done, f')) ∧
      ∀ f', f.perform (.receive me (.summaryRequest summary)) = .ok (.done, f') →
        ∃ ids remaining, f'.journal = f.journal ++ [.sent me (.summaryReply ids remaining)] ∧
          ∃ e₂ p₂, e₁.perform (.receive id (.summaryReply ids remaining)) = .ok (.done, e₂) ∧
            e₂.peers[id]? = some p₂ ∧
            p₂.toFetch = f.ledger.segment e.ledger.headIndex
              (min f.ledger.headIndex (e.ledger.headIndex + k + cap)) ∧
            p₂.unsynced = .ok (f.ledger.headIndex - e.ledger.headIndex) := by
  have linear : e.ledger.Linear :=
    ((ChainLedger.Linear.ofGenesis zero solidifyDepth batch).grows_calls ours).linear
  have first : e.ledger.first = genesis.id := ChainLedger.first_of_calls ours
  have zero' : other.number = 0 := by
    -- the two chains start with the same block
    have here : e.ledger.main[0]? = some e.ledger.first :=
      Array.getElem?_eq_getElem e.ledger.main_pos
    have there : f.ledger.main[0]? = some f.ledger.first :=
      Array.getElem?_eq_getElem f.ledger.main_pos
    have same := Option.some.inj (there.symm.trans (below.getElem? here))
    rw [first, ChainLedger.first_of_calls theirs] at same
    rw [← other.number_id, same, genesis.number_id, zero]
  have whole : f.ledger.Linear :=
    ((ChainLedger.Linear.ofGenesis zero' otherDepth cap).grows_calls theirs).linear
  have cap_eq : f.ledger.batch = cap := by
    rw [(ChainLedger.fixed_calls theirs).2]
    exact Nat.max_eq_left pos
  have pursues : e.Pursues f.ledger id p (e.ledger.headIndex + k) := by
    refine ⟨linear, whole, below, Nat.le_add_right .., room, queue, ?_, alone, recent⟩
    exact shared.imp_left fun same => BlockId.same_iff.2 (by rw [same, first])
  -- the summary
  obtain ⟨summary, named, ends, sent⟩ := pursues.nextSummary hp free
  obtain ⟨tip, found⟩ := pursues.exists_tip
  have last : summary.getLast? = some tip := ends.trans found
  have hp₁ := peers_sendSummary hp summary
  have pursues₁ := pursues.sendSummary summary
  -- the answer
  have answers := perform_summaryRequest whole hq last found
  refine ⟨summary, e.sendSummary id summary, by rw [perform, sent], rfl, fun fits => ?_,
    fun f' answered => ?_⟩
  · obtain ⟨ids, beyond⟩ := whole.exists_idsBeyond_of_getLast? last found (by rwa [cap_eq])
    rw [answers, beyond]
    exact ⟨_, rfl⟩
  · rw [answers] at answered
    cases beyond : f.ledger.idsBeyond summary with
    | error =>
      rw [beyond] at answered
      cases answered
    | ok ids =>
      rw [beyond] at answered
      cases answered
      refine ⟨ids, remainingFor f.ledger.head summary ids, rfl, ?_⟩
      -- the reply
      obtain ⟨e₂, p₂, done, hp₂, -, reached, counted⟩ := pursues₁.receiveReply
        (s := ⟨summary, e.now⟩) hp₁ rfl (by rwa [cap_eq]) ends beyond bounded
      have heard : (e.sendSummary id summary).receive id
          (.summaryReply ids (remainingFor f.ledger.head summary ids)) =
            (e.sendSummary id summary).receiveReply id ids
              (remainingFor f.ledger.head summary ids) :=
        if_pos (isRegistered_iff.2 ⟨_, hp₁⟩)
      refine ⟨e₂, p₂, ?_, hp₂, by rw [reached, cap_eq]; rfl, counted⟩
      rw [perform, heard, done]
      rfl

/-- Whether the only peer has one of the three blocks that another ledger has above our head, and
the other engine knows us. -/
def isOneOfThreeQueued (e f : Engine ChainLedger) : Bool :=
  e.ledger.headIndex = 1 && f.ledger.headIndex = 4 &&
    e.ledger.main.toList.isPrefixOf f.ledger.main.toList && e.recent.ids.isEmpty &&
      e.peers.keys = [⟨1⟩] &&
        ((e.peers[PeerId.mk 1]?).any fun p => p.summary.isNone && p.bothHave = e.ledger.head &&
          p.toFetch = f.ledger.segment 1 2) &&
          f.isRegistered ⟨2⟩ &&
            (e.chainFacts.futureBound e.config.net e.clock.wallTime).toOption.any
              (f.ledger.head.number.toNat ≤ ·)

/-- An answer that is cut after one more block brings the second of three blocks into the queue. -/
theorem round_reaches_second :
    ∃ (e f e₁ f' e₂ : Engine ChainLedger) (p p₂ : Peer) (summary ids : List BlockId)
      (remaining : UInt64), e.peers[PeerId.mk 1]? = some p ∧ p.toFetch = f.ledger.segment 1 2 ∧
        f.ledger.headIndex = 4 ∧ e.perform (.nextSummary ⟨1⟩) = .ok (.done, e₁) ∧
          f.perform (.receive ⟨2⟩ (.summaryRequest summary)) = .ok (.done, f') ∧
            f'.journal = f.journal ++ [.sent ⟨2⟩ (.summaryReply ids remaining)] ∧
              e₁.perform (.receive ⟨1⟩ (.summaryReply ids remaining)) = .ok (.done, e₂) ∧
                e₂.peers[PeerId.mk 1]? = some p₂ ∧ p₂.toFetch = f.ledger.segment 1 3 ∧
                  p₂.unsynced = .ok 3 := by
  have checked : (do
      let one ← (ChainLedger.ofGenesis (.genesis 0) 0 10).applyBlock (.bare 1)
      let start ← Engine.start {} one.2 ⟨0, 9000⟩
      let known ← start.perform (.register ⟨1⟩ 4)
      let e ← known.2.perform
        (.receive ⟨1⟩ (.summaryReply [(Block.bare 1).id, (Block.bare 2).id] 0))
      let one ← (ChainLedger.ofGenesis (.genesis 0) 0 1).applyBlock (.bare 1)
      let two ← one.2.applyBlock (.bare 2)
      let three ← two.2.applyBlock (.bare 3)
      let four ← three.2.applyBlock (.bare 4)
      let start ← Engine.start {} four.2 {}
      let f ← start.perform (.register ⟨2⟩ 1)
      return e.2.isOneOfThreeQueued f.2 : Checked Bool) = .ok true := by
    decide +kernel
  simp only [Checked.bind_eq_ok_iff] at checked
  obtain ⟨one, first, start, started, known, registered, ⟨answer, e⟩, replied, one', first', two,
    second, three, third, four, fourth, start', started', ⟨answer', f⟩, registered', checked⟩ :=
      checked
  have started_ledger {l : ChainLedger} {clock : Clock} {start : Engine ChainLedger}
      (started : Engine.start {} l clock = .ok start) : start.ledger = l := by
    obtain ⟨_, -, eq⟩ := Checked.bind_eq_ok_iff.1 started
    cases eq
    rfl
  have ours : (ChainLedger.ofGenesis (.genesis 0) 0 10).Calls e.ledger := by
    have calls := (course_perform registered).calls.trans (course_perform replied).calls
    rw [started_ledger started] at calls
    exact (Relation.ReflTransGen.single (.applyBlock first)).trans calls
  have theirs : (ChainLedger.ofGenesis (.genesis 0) 0 1).Calls f.ledger := by
    have calls := (course_perform registered').calls
    rw [started_ledger started'] at calls
    exact ((((Relation.ReflTransGen.single (.applyBlock first')).tail (.applyBlock second)).tail
      (.applyBlock third)).tail (.applyBlock fourth)).trans calls
  have checked : e.isOneOfThreeQueued f = true := Except.ok.inj checked
  simp only [isOneOfThreeQueued, Bool.and_eq_true, decide_eq_true_eq, Option.any_eq_true,
    Checked.toOption_eq_some_iff, List.isPrefixOf_iff_prefix, List.isEmpty_iff,
    Option.isNone_iff_eq_none, isRegistered_iff] at checked
  obtain ⟨⟨⟨⟨⟨⟨⟨one_high, four_high⟩, below⟩, nothing⟩, only⟩, p, hp, ⟨free, shared⟩, queue⟩,
    q, hq⟩, bound, future, le⟩ := checked
  have alone : ∀ (other : PeerId) (r : Peer), e.peers[other]? = some r → other ≠ ⟨1⟩ →
      r.toFetch = [] := by
    intro other r hr ne
    have mem : other ∈ e.peers.keys :=
      Std.TreeMap.mem_keys.2 (Std.TreeMap.mem_iff_isSome_getElem?.2 (by rw [hr]; rfl))
    rw [only, List.mem_singleton] at mem
    exact absurd mem ne
  obtain ⟨summary, e₁, sent, -, answers, round⟩ := round_reaches (k := 1) rfl ours theirs below
    (Nat.le_refl 1) hp free (.inr shared) (by rw [one_high, four_high]; decide)
    (by rw [one_high]; exact queue) alone (by rw [nothing]; nofun) hq fun _ => ⟨bound, future, le⟩
  obtain ⟨f', answered⟩ := answers (by rw [one_high]; decide)
  obtain ⟨ids, remaining, journal, e₂, p₂, received, hp₂, reached, counted⟩ := round f' answered
  rw [one_high, four_high] at reached counted
  exact ⟨e, f, e₁, f', e₂, p, p₂, summary, ids, remaining, hp, queue, four_high, sent, answered,
    journal, received, hp₂, reached, counted⟩

end BlockRelay.Engine
