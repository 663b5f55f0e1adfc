/-
# The turns of the side that is behind

What an engine that catches up (`Engine.Trails`) hears is a reply to its summary, or the blocks that
it has asked for.  A reply moves the height up to which the chain is followed
(`Trails.receiveReply_of_more`), or ends the catch-up (`Trails.receiveReply_of_level`); blocks move
the height up to which there is something in hand (`Trails.receiveBlocks`).  With either the next
summary may be sent.

Its chores ask for more blocks, and apply what is in hand.  While the engine waits for something,
it says nothing (`Trails.chores_of_isBusy`).  Otherwise it says what it waits for from then on, or
gets closer to saying it (`Trails.chores_of_free`).
-/
import BlockRelay.Proofs.Trailing

namespace BlockRelay

namespace ChainLedger

/-- A segment may be cut to a number of blocks. -/
theorem take_segment (c : ChainLedger) (low high n : Nat) :
    (c.segment low high).take n = c.segment low (min high (low + n)) := by
  unfold segment
  rw [Array.toList_extract, Array.toList_extract, List.extract_eq_take_drop,
    List.extract_eq_take_drop, List.take_take]
  congr 1
  omega

/-- **An answer that goes on.**  The answer to a summary that ends below the head names the last
block of the summary, and some blocks above it.  What is left beyond it is counted. -/
theorem Linear.answer_of_more {c : ChainLedger} {summary ids : List BlockId} {tip : BlockId}
    {start : Nat} (h : c.Linear) (batch : 1 ≤ c.batch) (ends : summary.getLast? = some tip)
    (found : c.main[start]? = some tip) (more : start < c.headIndex)
    (answered : c.idsBeyond summary = .ok ids) :
    ∃ high, start < high ∧ high ≤ c.headIndex ∧ ids = tip :: c.segment start high ∧
      (Engine.remainingFor c.head summary ids).toNat = c.headIndex - high := by
  have answer := h.idsBeyond_eq ends found answered
  rw [if_neg (by omega)] at answer
  exact ⟨_, by omega, by omega, answer, h.remainingFor_eq batch ends found answered⟩

end ChainLedger

namespace Engine

variable {c : ChainLedger} {id : PeerId} {p p' : Peer} {got asked top : Nat}
  {e e' : Engine ChainLedger}

/-! ## Asking for blocks -/

/-- Exactly the blocks up to the height `asked` were asked for. -/
theorem Steady.holds_requested (h : e.Steady c id got asked) {hash : Hash} :
    e.requested.Holds hash ↔ hash ∈ (c.segment e.ledger.headIndex asked).map BlockId.hash := by
  unfold AgingCache.Holds
  rw [h.requested]
  simp

/-- What was asked for is found in the cache of requests. -/
theorem Steady.contains_requested (h : e.Steady c id got asked) {hash : Hash} :
    e.requested.contains hash e.now = true ↔
      hash ∈ (c.segment e.ledger.headIndex asked).map BlockId.hash := by
  rw [← h.holds_requested, AgingCache.contains, AgingCache.lookup?, Option.any_eq_true]
  constructor
  · rintro ⟨entry, found, -⟩
    have same := List.find?_some (p := fun e : CacheEntry Hash Unit => decide (e.key = hash)) found
    exact ⟨entry, List.mem_of_find?_eq_some found, of_decide_eq_true same⟩
  · rintro ⟨entry, mem, same⟩
    have some : (e.requested.entries.find? (·.key = hash)).isSome = true :=
      List.find?_isSome.2 ⟨entry, mem, decide_eq_true same⟩
    obtain ⟨other, found⟩ := Option.isSome_iff_exists.1 some
    refine ⟨other, found, ?_⟩
    -- everything was asked for just now
    have listed := List.mem_of_find?_eq_some found
    rw [h.requested] at listed
    obtain ⟨b, -, rfl⟩ := List.mem_map.1 (List.mem_reverse.1 listed)
    simp [AgingCache.isLive]

/-- A peer is busy while a reply or a block is outstanding. -/
theorem Chases.isBusy_iff (h : e.Chases c id p got asked top) :
    p.isBusy = true ↔ p.summary.isSome = true ∨ got < asked := by
  have top_le := h.top_le
  have high := h.pursues.high
  have empty : p.blocksAsked.isEmpty = false ↔ got < asked := by
    rw [Std.TreeMap.isEmpty_eq_false_iff_exists_contains_eq_true]
    simp only [h.pending]
    constructor
    · rintro ⟨hash, mem⟩
      obtain ⟨b, listed, -⟩ := List.mem_map.1 mem
      obtain ⟨i, above, le, -⟩ := ChainLedger.mem_segment.1 listed
      omega
    · intro lt
      obtain ⟨b, -, -, found⟩ := h.steady.whole.exists_has (i := asked) (by omega)
      have linear := h.steady.whole.within.linear
      exact ⟨b.id.hash, (linear.mem_hashes_segment found).2 ⟨lt, Nat.le_refl _⟩⟩
  rw [Peer.isBusy_iff, empty]

/-- A free peer is asked for as many blocks as it may be, above the last one that was asked for. -/
theorem Chases.batchFor (h : e.Chases c id p got asked top) (free : p.isBusy = false) :
    ({ engine := e } : IssuePass ChainLedger).batchFor p =
      c.segment asked (min top (asked + e.config.sync.maxPerPeer)) := by
  have got_le := h.got_le
  have asked_le := h.asked_le
  have top_le := h.top_le
  have linear := h.steady.whole.within.linear
  have low : e.ledger.headIndex ≤ asked := by omega
  unfold IssuePass.batchFor
  dsimp only
  rw [h.needs, free, Bool.not_false, Bool.and_self, if_pos rfl, h.pursues.queue,
    ← ChainLedger.segment_append low top_le, List.filter_append,
    List.filter_eq_nil_iff.2, List.filter_eq_self.2, List.nil_append, ChainLedger.take_segment]
  · intro b mem
    have unasked : e.requested.contains b.hash e.now = false := by
      obtain ⟨i, above, -, found⟩ := ChainLedger.mem_segment.1 mem
      rw [Bool.eq_false_iff, ne_eq, h.steady.contains_requested, linear.mem_hashes_segment found]
      omega
    rw [unasked]
    simp
  · intro b mem
    rw [h.steady.contains_requested.2 (List.mem_map_of_mem mem)]
    simp

/-- What an engine has of a chain after it has asked for more blocks. -/
theorem Steady.requestBlocks {high : Nat} (h : e.Steady c id got asked)
    (ge : e.ledger.headIndex ≤ asked) (le : asked ≤ high) (le' : high ≤ c.headIndex) :
    (e.requestBlocks id (c.segment asked high)).Steady c id got high := by
  have linear := h.whole.within.linear
  have stored := requested_requestBlocks e id (c.segment asked high)
  obtain ⟨peers, requested, eq⟩ := requestBlocks_eq e id (c.segment asked high)
  rw [eq] at stored ⊢
  have limits := AgingCache.limits_foldl_insert () e.now
    ((c.segment asked high).map (·.hash)) e.requested
  rw [← stored] at limits
  refine ⟨h.whole, h.ample, h.fits, ?_, h.within, h.valid, h.spread, h.candidates, ?_, h.hand,
    h.keyed⟩
  · exact Nat.le_trans h.room (Nat.le_of_eq (congrArg Prod.fst limits).symm)
  · show requested.entries = _
    have room := h.room
    change requested = _ at stored
    rw [stored, AgingCache.entries_foldl_insert_of_fresh]
    · rw [h.requested, ← List.reverse_append, List.map_map, ← ChainLedger.segment_append ge le,
        List.map_append]
      rfl
    · exact (linear.consecutive_segment asked high).nodup_hashes
    · intro hash listed held
      obtain ⟨b, mem, rfl⟩ := List.mem_map.1 listed
      obtain ⟨i, above, -, found⟩ := ChainLedger.mem_segment.1 mem
      have low := (linear.mem_hashes_segment found).1 (h.holds_requested.1 held)
      omega
    · rw [h.requested, List.length_reverse, List.length_map, List.length_map,
        ChainLedger.length_segment (by omega), ChainLedger.length_segment le']
      omega

/-- A pass over the peers asks a free peer for the next blocks, if there are any. -/
theorem Chases.issueRequests_eq (h : e.Chases c id p got asked top) (free : p.isBusy = false) :
    e.issueRequests.2 = if asked < top then
      e.requestBlocks id (c.segment asked (min top (asked + e.config.sync.maxPerPeer))) else e := by
  have perPeer := h.steady.ample.perPeer
  have high := h.pursues.high
  have batch := h.batchFor free
  have nonempty : c.segment asked (min top (asked + e.config.sync.maxPerPeer)) = [] ↔
      ¬ asked < top := by
    rw [← List.length_eq_zero_iff, ChainLedger.length_segment (by omega)]
    omega
  unfold issueRequests
  rw [toList_peers_of_only h.known h.only]
  show (({ engine := e } : IssuePass ChainLedger).visit id p).engine = _
  unfold IssuePass.visit
  split
  next none =>
    rw [batch] at none
    rw [if_neg (nonempty.1 none)]
  next some =>
    rw [batch] at some ⊢
    rw [if_pos (Decidable.of_not_not fun not => some (nonempty.2 not))]

/-- What a catch-up has come to after more blocks were asked for. -/
theorem Chases.requestBlocks {high : Nat} (h : e.Chases c id p got asked top) (all : got = asked)
    (le : asked ≤ high) (le' : high ≤ top) :
    (e.requestBlocks id (c.segment asked high)).Chases c id
      (p.requestBlocks (c.segment asked high) e.now) got high top := by
  have got_le := h.got_le
  have reach := h.pursues.high
  have steady := h.steady.requestBlocks (by omega) le (by omega)
  have peers := peers_requestBlocks e id (c.segment asked high)
  obtain ⟨_, _, eq⟩ := requestBlocks_eq e id (c.segment asked high)
  have record := p.requestBlocks_eq (c.segment asked high) e.now
  refine ⟨h.pursues.congr (by rw [eq]) (by rw [eq]) (by rw [eq])
    (fun other ne => (peers other).trans (if_neg ne)) (p.toFetch_requestBlocks ..) (by rw [record]),
    steady, ?_, fun other q hq => ?_, ?_, ?_, ?_, by omega, le', ?_, fun hash => ?_⟩
  · rw [peers, if_pos rfl, h.known]
    rfl
  · by_contra ne
    rw [peers, if_neg ne] at hq
    exact ne (h.only other q hq)
  · rw [record]
    exact h.needs
  · rw [record]
    exact h.settled
  · rw [eq]
    exact h.got_le
  · rw [record]
    exact h.claim
  · rw [p.contains_blocksAsked_requestBlocks, h.pending, all, ChainLedger.segment_self]
    simp

/-- What applies no blocks leaves the head where it is, and what is due. -/
structure Calm (e e' : Engine ChainLedger) : Prop where
  head : e'.ledger.headIndex = e.ledger.headIndex
  suspended : e'.suspended = e.suspended
  applyDue : e'.applyDue = e.applyDue

/-- An engine stays alert while it applies no blocks. -/
theorem Calm.alert (h : Calm e e') (alert : e.Alert got) : e'.Alert got := by
  unfold Alert
  rw [h.head, h.suspended, h.applyDue]
  exact alert

/-- **A turn at asking for blocks.**  Everything that was asked for is in hand, and no reply is
awaited.  Then more blocks are asked for, unless all were asked for or asking is suspended. -/
theorem Trails.issueTick_of_free (h : e.Trails c id p got asked top) (free : p.summary = none)
    (all : got = asked) :
    ∃ n e' p' asked' said, e.perform .issueTick = .ok (.count n, e') ∧
      e'.Trails c id p' got asked' top ∧ p'.summary = none ∧ e.Utters id said e' ∧ Calm e e' ∧
        (asked' = asked ∧ said = [] ∨
          asked < asked' ∧ said = [.fetch ((c.segment got asked').map BlockId.item)]) ∧
        (e.suspended = false → asked < top → asked < asked') := by
  have idle : p.isBusy = false := by
    rw [Bool.eq_false_iff, ne_eq, h.toChases.isBusy_iff, free]
    simp [all]
  by_cases suspended : e.suspended = true
  · refine ⟨0, e, p, asked, [], ?_, h, free, .silent rfl, ⟨rfl, rfl, rfl⟩, .inl ⟨rfl, rfl⟩,
      fun goesOn => ?_⟩
    · rw [perform, issueTick, if_pos suspended]
      rfl
    · cases goesOn.symm.trans suspended
  by_cases due : e.issueDue = true
  · have chases : Chases c id p got asked top { e with issueDue := false } :=
      h.toChases.congr (by constructor <;> rfl) h.known
        (fun _ _ => rfl) rfl rfl rfl rfl rfl rfl
    have asks := chases.issueRequests_eq idle
    have tick : e.perform .issueTick = .ok (perform.counted
        (issueRequests { e with issueDue := false })) := by
      rw [perform, issueTick, if_neg suspended, if_pos due]
    rw [tick, perform.counted]
    by_cases more : asked < top
    · have perPeer := h.steady.ample.perPeer
      rw [if_pos more] at asks
      rw [asks]
      subst all
      obtain ⟨high, eq⟩ : ∃ high, min top (got + e.config.sync.maxPerPeer) = high := ⟨_, rfl⟩
      rw [show min top (got + (Engine.config { e with issueDue := false }).sync.maxPerPeer) = high
        from eq]
      have requests := chases.requestBlocks rfl (by omega : got ≤ high) (by omega : high ≤ top)
      obtain ⟨_, _, same⟩ := requestBlocks_eq { e with issueDue := false } id (c.segment got high)
      have record := p.requestBlocks_eq (c.segment got high) e.now
      have free' : (p.requestBlocks (c.segment got high) e.now).summary = none := by
        rw [record]
        exact free
      refine ⟨_, _, _, high, _, rfl, requests.trails free' ?_ fun eq => by omega, free',
        .send (by rw [same]), ⟨by rw [same], by rw [same], by rw [same]⟩, .inr ⟨by omega, rfl⟩,
        fun _ _ => by omega⟩
      rw [same]
      exact h.goesOn free
    · rw [if_neg more] at asks
      rw [asks]
      refine ⟨_, _, p, asked, [], rfl,
        chases.trails free (h.goesOn free) fun _ lt => absurd lt more, free, .silent rfl,
        ⟨rfl, rfl, rfl⟩, .inl ⟨rfl, rfl⟩, fun _ lt => absurd lt more⟩
  · refine ⟨0, e, p, asked, [], ?_, h, free, .silent rfl, ⟨rfl, rfl, rfl⟩, .inl ⟨rfl, rfl⟩,
      fun _ more => absurd (h.issues free all more) due⟩
    rw [perform, issueTick, if_neg suspended, if_neg due]
    rfl

/-! ## Replies -/

/-- The chain is not higher than what can exist by now. -/
theorem Steady.bounded (h : e.Steady c id got asked) : ∃ bound,
    e.chainFacts.futureBound e.config.net e.clock.wallTime = .ok bound ∧
      c.head.number.toNat ≤ bound := by
  rw [h.whole.within.linear.head_height, ← ChainLedger.headIndex]
  refine ChainFacts.exists_futureBound h.ample ?_
  have size := e.ledger.size_main
  have solid : e.ledger.main[e.ledger.headIndex - e.ledger.solidifyDepth]? =
      some e.ledger.solidified := by
    rw [Array.getElem?_eq_getElem (by omega)]
    rfl
  obtain ⟨lt, -⟩ := Array.getElem?_eq_some_iff.1 (h.within.below.getElem? solid)
  have size := c.size_main
  show e.ledger.solidified.number.toNat ≤ _
  rw [(h.within.linear.height solid).1]
  omega

/-- What going on with a catch-up does, apart from the record of the peer. -/
theorem takeUp_eq_ok {enough : Bool} (done : e.takeUp id p enough = .ok e') :
    SameStore e e' ∧ e'.peers = e.peers.insert id p ∧ e'.issueDue = (e.issueDue || enough) ∧
      e.Utters id [] e' ∧ Calm e e' := by
  obtain ⟨unsynced, -, done⟩ := Checked.bind_eq_ok_iff.1 done
  split at done <;> cases done
  · exact ⟨by constructor <;> rfl, rfl, rfl, .silent rfl, rfl, rfl, rfl⟩
  · exact ⟨by constructor <;> rfl, rfl, rfl,
      .quiet (.notified unsynced) rfl rfl nofun, rfl, rfl, rfl⟩

/-- What the end of a catch-up does, apart from the record of the peer. -/
theorem finishCatchUp_eq_ok (done : e.finishCatchUp id p = .ok e') :
    SameStore e e' ∧ e'.peers = e.peers.insert id p.endCatchUp ∧ e.Utters id [] e' ∧
      Calm e e' := by
  obtain ⟨unsynced, -, done⟩ := Checked.bind_eq_ok_iff.1 done
  split at done <;> cases done
  · exact ⟨by constructor <;> rfl, rfl,
      .quiet (.notified 0) rfl rfl nofun, rfl, rfl, rfl⟩
  · exact ⟨by constructor <;> rfl, rfl, .silent rfl,
      rfl, rfl, rfl⟩

/-- A reply from a peer whose summary is awaited is received. -/
theorem Chases.perform_reply {s : SummaryRequest} {ids : List BlockId} {remaining : UInt64}
    (h : e.Chases c id p got asked top) (awaited : p.summary = some s)
    (legal : e.chainFacts.judge e.config.net e.clock.wallTime s.ids ids remaining = .ok (.ok ()))
    (done : (if remaining = 0 &&
        p.nothingNew (ids.map fun b => (b, Ledger.containsBlock e.ledger b)) then
        e.finishCatchUp id { p with summary := none }
      else e.resumeCatchUp id { p with summary := none }
        (ids.map fun b => (b, Ledger.containsBlock e.ledger b)) remaining) = .ok e') :
    e.perform (.receive id (.summaryReply ids remaining)) = .ok (.done, e') := by
  have heard : e.receive id (.summaryReply ids remaining) = e.receiveReply id ids remaining :=
    if_pos (isRegistered_iff.2 ⟨p, h.known⟩)
  rw [perform, heard, receiveReply_eq_of_legal h.known awaited legal, done]
  rfl

/-- The record of the peer after a reply that goes on was joined, and what the catch-up has come to
when this record is taken up. -/
theorem Chases.rejoin {tip : BlockId} {high : Nat} {remaining : UInt64}
    (h : e.Chases c id p got asked top) (found : c.main[top]? = some tip) (lt : top < high)
    (reach : high ≤ c.headIndex) (left : remaining.toNat = c.headIndex - high) :
    ∃ p', Peer.continueCatchUp { p with summary := none }
        ((tip :: c.segment top high).map fun b => (b, Ledger.containsBlock e.ledger b)) remaining
        false e.recent = p' ∧
      p'.summary = none ∧ p'.toFetch = c.segment e.ledger.headIndex high ∧
        ∀ enough, ∃ e', e.takeUp id p' enough = .ok e' ∧ e'.Chases c id p' got asked high ∧
          e'.issueDue = (e.issueDue || enough) ∧ e.Utters id [] e' ∧ Calm e e' := by
  have got_le := h.got_le
  have asked_le := h.asked_le
  have top_le := h.top_le
  have free : e.Pursues c id { p with summary := none } top :=
    h.pursues.congr rfl rfl rfl (fun _ _ => rfl) rfl rfl
  have joins := free.continueCatchUp found (Nat.le_of_lt lt) reach remaining
  have pursues := free.joined found (Nat.le_of_lt lt) reach remaining
  have goesOn : decide (e.ledger.headIndex = high) = false := decide_eq_false (by omega)
  rw [goesOn, Bool.and_false, Bool.not_false, Bool.and_true] at joins
  obtain ⟨p', record⟩ : ∃ p', Peer.continueCatchUp { p with summary := none }
    ((tip :: c.segment top high).map fun b => (b, Ledger.containsBlock e.ledger b)) remaining false
    e.recent = p' := ⟨_, rfl⟩
  rw [record] at joins pursues
  refine ⟨p', record, by rw [joins], pursues.queue, fun enough => ?_⟩
  have fits : p'.CountFits := by
    unfold Peer.CountFits
    rw [pursues.queue, ChainLedger.length_segment reach, joins, left]
    have small := h.steady.fits
    omega
  obtain ⟨n, counted⟩ := pursues.exists_maxUnsynced fits
  obtain ⟨e', taken⟩ : ∃ e', e.takeUp id p' enough = .ok e' :=
    ⟨_, Checked.bind_eq_ok_iff.2 ⟨n, counted, rfl⟩⟩
  obtain ⟨same, peers, due, utters, calm⟩ := takeUp_eq_ok taken
  obtain ⟨known, pursues'⟩ := pursues.inserted peers rfl rfl same.main same.blocks same.recent
  refine ⟨e', taken, ⟨pursues', h.steady.congr same, known, fun other q hq => ?_, ?_, ?_, ?_,
    asked_le, by omega, fun reached => ?_, ?_⟩, due, utters, calm⟩
  · rw [peers, Std.TreeMap.getElem?_insert] at hq
    split at hq
    next same => exact (Std.LawfulEqCmp.eq_of_compare same).symm
    next => exact h.only other q hq
  · rw [joins]
    exact h.needs
  · rw [joins]
    exact h.settled
  · rw [same.headIndex]
    exact got_le
  · rw [joins]
    refine UInt64.toNat_inj.1 ?_
    rw [left, reached, Nat.sub_self]
    rfl
  · rw [joins]
    exact h.pending

/-- Going on with a catch-up after a reply was joined.  Unless there is enough to fetch for now, the
chain reaches beyond what was joined, and the next summary is to be sent. -/
theorem Chases.resume {tip : BlockId} {high : Nat} {remaining : UInt64}
    (h : e.Chases c id p got asked top) (found : c.main[top]? = some tip) (lt : top < high)
    (reach : high ≤ c.headIndex) (left : remaining.toNat = c.headIndex - high) :
    ∃ enough p' e', e.resumeCatchUp id { p with summary := none }
        ((tip :: c.segment top high).map fun b => (b, Ledger.containsBlock e.ledger b)) remaining =
          .ok (if enough then e' else e'.nextSummary id) ∧
      (enough = false → high < c.headIndex) ∧ p'.summary = none ∧
        e'.Chases c id p' got asked high ∧ e'.issueDue = (e.issueDue || enough) ∧
          e.Utters id [] e' ∧ Calm e e' := by
  have got_le := h.got_le
  have asked_le := h.asked_le
  have top_le := h.top_le
  obtain ⟨p₁, record, free₁, queue, takes⟩ := h.rejoin found lt reach left
  obtain ⟨enough, meant⟩ : ∃ enough : Bool, (if remaining = 0 then !p₁.toFetch.isEmpty
    else decide (e.config.sync.batch < p₁.toFetch.length)) = enough := ⟨_, rfl⟩
  obtain ⟨e₁, taken, chases, due, utters, calm⟩ := takes enough
  refine ⟨enough, p₁, e₁, ?_, fun few => ?_, free₁, chases, due, utters, calm⟩
  · unfold resumeCatchUp
    rw [h.pursues.frontElsewhere]
    dsimp only
    rw [record, meant, taken]
    rfl
  · rw [few] at meant
    split at meant
    next =>
      -- what was joined is to be fetched
      rw [Bool.not_eq_false', List.isEmpty_iff_length_eq_zero, queue,
        ChainLedger.length_segment reach] at meant
      omega
    next some =>
      rw [← UInt64.toNat_inj, left, UInt64.toNat_zero] at some
      omega

/-- **A reply that goes on.**  While the chain reaches beyond the height up to which it is followed,
the answer to the summary makes it be followed higher.  Then blocks are asked for at the next
turn, or the next summary is sent at once. -/
theorem Trails.receiveReply_of_more {s : SummaryRequest} {ids : List BlockId}
    (h : e.Trails c id p got asked top) (awaited : p.summary = some s) (more : top < c.headIndex)
    (answered : c.idsBeyond s.ids = .ok ids) :
    ∃ e' p' top' said,
      e.perform (.receive id (.summaryReply ids (remainingFor c.head s.ids ids))) =
        .ok (.done, e') ∧
      e'.Trails c id p' got asked top' ∧ top < top' ∧ e.Utters id said e' ∧
        ({ p with summary := none } : Peer).Asks p' said ∧ Calm e e' := by
  obtain ⟨ends, all, -⟩ := h.awaits s awaited
  have got_le := h.got_le
  have top_le := h.top_le
  have legal := h.pursues.legal ends answered fun _ => h.steady.bounded
  obtain ⟨tip, found⟩ := h.pursues.exists_tip
  rw [found] at ends
  obtain ⟨high, lt, reach, answer, left⟩ :=
    h.pursues.whole.answer_of_more h.steady.whole.batch ends found more answered
  obtain ⟨enough, p₁, e₁, resumed, goesOn, free₁, chases, due, utters, calm⟩ :=
    h.toChases.resume found lt reach left
  rw [← answer] at resumed
  have several : ¬ (remainingFor c.head s.ids ids = 0 &&
      p.nothingNew (ids.map fun b => (b, Ledger.containsBlock e.ledger b))) = true := by
    rw [Bool.and_eq_true]
    rintro ⟨-, nothing⟩
    have few := length_le_of_nothingNew nothing
    rw [answer, List.length_map, List.length_cons, ChainLedger.length_segment reach] at few
    omega
  have done := h.toChases.perform_reply awaited legal ((if_neg several).trans resumed)
  cases enough with
  | true =>
    refine ⟨e₁, p₁, high, [], done, chases.trails free₁ ?_ fun _ _ => ?_, lt, utters,
      .inl ⟨rfl, free₁⟩, calm⟩
    · rw [calm.head]
      omega
    · rw [due, Bool.or_true]
  | false =>
    obtain ⟨summary, sent, trails⟩ := chases.nextSummary free₁ all (.inl (goesOn rfl))
    rw [if_neg Bool.false_ne_true, sent] at done
    exact ⟨_, _, high, _, done, trails, lt, utters.trans (.send rfl),
      .inr ⟨rfl, _, rfl, rfl⟩, calm.head, calm.suspended, calm.applyDue⟩

/-- **The last reply.**  Once everything is applied, the answer to the summary ends the catch-up. -/
theorem Trails.receiveReply_of_level {s : SummaryRequest} {ids : List BlockId}
    (h : e.Trails c id p got asked top) (awaited : p.summary = some s) (level : top = c.headIndex)
    (answered : c.idsBeyond s.ids = .ok ids) :
    ∃ e', e.perform (.receive id (.summaryReply ids (remainingFor c.head s.ids ids))) =
        .ok (.done, e') ∧
      e.Utters id [] e' ∧ SameStore e e' ∧ e'.ledger.headIndex = c.headIndex ∧
        ∀ other : PeerId, e'.peers[other]? =
          if other = id then some { p with
            summary := none
            needFromPeer := false
            phase := .caughtUp } else e.peers[other]? := by
  obtain ⟨ends, all, more⟩ := h.awaits s awaited
  have reached : e.ledger.headIndex = c.headIndex := by omega
  have legal := h.pursues.legal ends answered fun _ => h.steady.bounded
  obtain ⟨tip, found⟩ := h.pursues.exists_tip
  rw [found] at ends
  have left := h.pursues.whole.remainingFor_eq h.steady.whole.batch ends found answered
  have answer := h.pursues.whole.idsBeyond_eq ends found answered
  rw [level, Nat.min_eq_left (Nat.le_add_right ..), Nat.sub_self] at left
  rw [level, Nat.min_eq_left (Nat.le_add_right ..), ChainLedger.segment_self] at answer
  generalize remainingFor c.head s.ids ids = remaining at legal left ⊢
  obtain rfl : remaining = 0 := UInt64.toNat_inj.1 left
  have queue := h.pursues.queue
  rw [reached, level, ChainLedger.segment_self] at queue
  have stored : Ledger.containsBlock e.ledger tip = true :=
    (h.pursues.stored_iff found).2 (by omega)
  have nothing : p.nothingNew (ids.map fun b => (b, Ledger.containsBlock e.ledger b)) = true := by
    unfold Peer.nothingNew
    rw [queue, h.claim level, answer]
    by_cases short : c.headIndex = 0
    · rw [if_pos short]
      rfl
    · rw [if_neg short, List.map_singleton, stored]
      rfl
  have fits : Peer.CountFits { p with summary := none } := by
    unfold Peer.CountFits
    dsimp only
    rw [queue, h.claim level]
    decide
  have free : e.Pursues c id { p with summary := none } top :=
    h.pursues.congr rfl rfl rfl (fun _ _ => rfl) rfl rfl
  obtain ⟨e', finished, -⟩ := free.finish fits
  obtain ⟨same, peers, utters, calm⟩ := finishCatchUp_eq_ok finished
  refine ⟨e', h.toChases.perform_reply awaited legal ?_, utters, same, calm.head.trans reached,
    fun other => ?_⟩
  · rw [nothing]
    exact finished
  · rw [peers, Std.TreeMap.getElem?_insert]
    simp only [Std.LawfulEqCmp.compare_eq_iff_eq, eq_comm (a := id)]
    rfl

/-! ## Delivered blocks -/

/-- What is in hand after the next block that was asked for has arrived. -/
theorem Steady.arrive {b : Block} (h : e.Steady c id got asked) (has : c.Has b)
    (next : b.number.toNat = got + 1) (ge : e.ledger.headIndex ≤ got) :
    (e.arrive id b).Steady c id (got + 1) asked := by
  refine ⟨h.whole, h.ample, h.fits, h.room, h.within, h.valid, h.spread, h.candidates, h.requested,
    fun w => ?_, h.keyed⟩
  have came : (e.arrive id b).InHand w ↔ e.InHand w ∨ w = ⟨b, id⟩ := by
    unfold InHand Engine.arrive
    rw [List.mem_append, List.mem_singleton]
    exact or_right_comm
  show _ ↔ _ ∧ _ ∧ e.ledger.headIndex < _ ∧ _
  rw [came, h.hand]
  constructor
  · rintro (⟨origin, hasIt, above, le⟩ | rfl)
    · exact ⟨origin, hasIt, above, Nat.le_succ_of_le le⟩
    · exact ⟨rfl, has, Nat.lt_of_le_of_lt ge (by rw [next]; exact Nat.lt_succ_self got), next.le⟩
  · rintro ⟨origin, hasIt, above, le⟩
    rcases Nat.eq_or_lt_of_le le with same | lt
    · refine .inr ?_
      have block := h.whole.within.linear.has_inj hasIt has (same.trans next.symm)
      cases w
      cases origin
      cases block
      rfl
    · exact .inl ⟨origin, hasIt, above, Nat.le_of_lt_succ lt⟩

/-- What a catch-up has come to after the next block that was asked for has arrived. -/
theorem Chases.arrive {b : Block} (h : e.Chases c id p got asked top) (has : c.Has b)
    (next : b.number.toNat = got + 1) (lt : got < asked) :
    (Engine.arrive { e with peers := e.peers.insert id (p.takeDelivery b.id) } id b).Chases c id
      (p.takeDelivery b.id) (got + 1) asked top := by
  have got_le := h.got_le
  have linear := h.steady.whole.within.linear
  have found := linear.getElem?_of_has has
  rw [next] at found
  have first := ChainLedger.segment_eq_cons found lt
  have distinct := (linear.consecutive_segment got asked).nodup_hashes
  rw [first, List.map_cons, List.nodup_cons] at distinct
  have replaced : Steady c id got asked
      { e with peers := e.peers.insert id (p.takeDelivery b.id) } :=
    h.steady.congr (by constructor <;> rfl)
  have peers : (Engine.arrive { e with
      peers := e.peers.insert id (p.takeDelivery b.id) } id b).peers =
        e.peers.insert id (p.takeDelivery b.id) := rfl
  obtain ⟨known, pursues⟩ := h.pursues.inserted peers rfl rfl rfl rfl rfl
  refine ⟨pursues, replaced.arrive has next got_le, known, fun other q hq => ?_, h.needs, h.settled,
    Nat.le_succ_of_le got_le, lt, h.top_le, h.claim, fun hash => ?_⟩
  · change (e.peers.insert id _)[other]? = _ at hq
    rw [Std.TreeMap.getElem?_insert] at hq
    split at hq
    next same => exact (Std.LawfulEqCmp.eq_of_compare same).symm
    next => exact h.only other q hq
  · have pending := h.pending hash
    rw [first, List.map_cons, List.mem_cons] at pending
    show (p.blocksAsked.erase b.id.hash).contains hash = true ↔ _
    rw [Std.TreeMap.contains_erase, Bool.and_eq_true, bne_iff_ne, ne_eq,
      Std.LawfulEqCmp.compare_eq_iff_eq, pending]
    constructor
    · rintro ⟨ne, rfl | mem⟩
      · exact absurd rfl ne
      · exact mem
    · intro mem
      refine ⟨?_, .inr mem⟩
      rintro rfl
      exact distinct.1 mem

/-- **A block.**  The next block that was asked for is put with those that are in hand.  After the
last one blocks are asked for at the next turn, or the next summary is sent at once. -/
theorem Trails.receiveBlock {b : Block} (h : e.Trails c id p got asked top) (has : c.Has b)
    (next : b.number.toNat = got + 1) (lt : got < asked) :
    ∃ e' p' said, e.perform (.receive id (.block b)) = .ok (.done, e') ∧
      e'.Trails c id p' (got + 1) asked top ∧ e.Utters id said e' ∧ p.Asks p' said ∧
        e'.ledger = e.ledger ∧ e'.applyDue = true := by
  have free := h.free_of_lt lt
  have chases := h.toChases.arrive has next lt
  have linear := h.steady.whole.within.linear
  have found := linear.getElem?_of_has has
  rw [next] at found
  have high := h.pursues.high
  have expected : p.blocksAsked.contains b.id.hash = true :=
    (h.pending _).2 ((linear.mem_hashes_segment found).2 ⟨Nat.lt_succ_self _, lt⟩)
  have done : e.perform (.receive id (.block b)) =
      .ok (.done, receiveRequested { e with peers := e.peers.insert id (p.takeDelivery b.id) } id
        (p.takeDelivery b.id) b) := by
    have heard : e.receive id (.block b) = e.receiveBlock id b :=
      if_pos (isRegistered_iff.2 ⟨p, h.known⟩)
    rw [perform, heard]
    unfold Engine.receiveBlock
    simp only [h.known, expected, if_true]
    rfl
  have free' : (p.takeDelivery b.id).summary = none := free
  have busy := chases.isBusy_iff
  rw [free'] at busy
  unfold receiveRequested at done
  by_cases last : got + 1 < asked
  · rw [if_pos (busy.2 (.inr last))] at done
    exact ⟨_, _, [], done, chases.trails free' (h.goesOn free) fun all => by omega, .silent rfl,
      .inl ⟨rfl, rfl⟩, rfl, rfl⟩
  · have all : got + 1 = asked := by omega
    rw [if_neg fun waits => last ((busy.1 waits).resolve_left Bool.false_ne_true)] at done
    split at done
    next more =>
      rw [Bool.and_eq_true, decide_eq_true_eq] at more
      -- more blocks are claimed than are queued
      have below : top ≠ c.headIndex := fun level => by
        have claim : p.unfetched = 0 := h.claim level
        have some : 0 < p.unfetched := more.1
        rw [claim] at some
        exact absurd some (by decide)
      obtain ⟨summary, sent, trails⟩ := chases.nextSummary free' all (.inl (by omega))
      rw [sent] at done
      exact ⟨_, _, _, done, trails, .send rfl, .inr ⟨free, _, rfl, rfl⟩, rfl, rfl⟩
    next =>
      refine ⟨_, _, [], done, Chases.trails ?_ free' (h.goesOn free) fun _ _ => rfl, .silent rfl,
        .inl ⟨rfl, rfl⟩, rfl, rfl⟩
      exact chases.congr (by constructor <;> rfl) chases.known
        (fun _ _ => rfl) rfl rfl rfl rfl rfl rfl

/-- **A delivery.**  After all blocks that were asked for are delivered, they are in hand. -/
theorem Trails.receiveBlocks {blocks : List Block} (h : e.Trails c id p got asked top)
    (named : blocks.map Block.id = c.segment got asked) (has : ∀ b ∈ blocks, c.Has b)
    (alert : e.Alert got) :
    ∃ e' p' said, Plays id ((blocks.map Message.block).map (.receive id)) said e e' ∧
      e'.Trails c id p' asked asked top ∧ p.Asks p' said ∧ e'.Alert asked ∧
        e'.ledger = e.ledger := by
  have top_le := h.top_le
  have high := h.pursues.high
  induction blocks generalizing e p got with
  | nil =>
    have length := congrArg List.length named
    rw [ChainLedger.length_segment (by omega), List.map_nil, List.length_nil] at length
    have asked_le := h.asked_le
    obtain rfl : got = asked := by omega
    exact ⟨e, p, [], .nil, h, .inl ⟨rfl, rfl⟩, alert, rfl⟩
  | cons b rest ih =>
    obtain ⟨here, later⟩ := List.forall_mem_cons.1 has
    -- the first block of the segment is the one above those that are in hand
    have length := congrArg List.length named
    rw [ChainLedger.length_segment (by omega), List.map_cons, List.length_cons] at length
    obtain ⟨first, -, height, found⟩ := h.steady.whole.exists_has (i := got + 1) (by omega)
    rw [ChainLedger.segment_eq_cons found (by omega), List.map_cons, List.cons.injEq] at named
    have next : b.number.toNat = got + 1 := by
      rw [← height, ← b.number_id, named.1, first.number_id]
    obtain ⟨e₁, p₁, said, done, trails, utters, asks, ledger, due⟩ :=
      h.receiveBlock here next (by omega)
    obtain ⟨e', p', more, plays, trails', asks', alert', ledger'⟩ :=
      ih trails.takeJournal named.2 later fun _ => due
    exact ⟨e', p', said ++ more, .cons done utters plays, trails', asks.trans asks', alert',
      ledger'.trans ledger⟩

/-! ## Chores -/

/-- What is on the way between an engine that catches up and the peer, and for how many turns at
most this may go on until one of the heights moves up. -/
inductive Flow (c : ChainLedger) (p : Peer) (got asked : Nat) (e : Engine ChainLedger) :
    List Message → List Message → Nat → Prop where
  /-- A summary is on its way to the peer. -/
  | asking {s : SummaryRequest} : p.summary = some s →
    Flow c p got asked e [] [.summaryRequest s.ids] 1
  /-- The answer to the summary is on its way back. -/
  | told {s : SummaryRequest} {ids : List BlockId} : p.summary = some s →
    c.idsBeyond s.ids = .ok ids →
      Flow c p got asked e [.summaryReply ids (remainingFor c.head s.ids ids)] [] 0
  /-- A request for blocks is on its way to the peer. -/
  | fetching : got < asked →
    Flow c p got asked e [] [.fetch ((c.segment got asked).map BlockId.item)] 1
  /-- The blocks are on their way back. -/
  | delivered {blocks : List Block} : got < asked → blocks.map Block.id = c.segment got asked →
    (∀ b ∈ blocks, c.Has b) → Flow c p got asked e (blocks.map .block) [] 0
  /-- Nothing is on its way: there is something to apply, or to ask for. -/
  | resting : p.summary = none → got = asked →
    Flow c p got asked e [] [] (if e.suspended then 3 else 2)

/-- With nothing to announce and nothing to reserve, two chores are left. -/
theorem Trails.first_chores (h : e.Trails c id p got asked top) :
    ∃ e', Plays id [.announceSpread, .reserveCandidates] [] e e' ∧ e'.Trails c id p got asked top ∧
      Calm e e' := by
  obtain ⟨peers, plays, same⟩ := plays_first_chores (e := e) id (fun other q hq => by
    rw [h.steady.spread]
    exact newsFor_nil q) h.steady.candidates
  exact ⟨_, plays, h.congr ⟨rfl, rfl, rfl, rfl, rfl, h.steady.spread.symm, rfl, rfl, rfl, rfl, rfl⟩
    same rfl, rfl, rfl, rfl⟩

/-- **The chores of an engine that waits.**  While the peer is busy, nothing is said. -/
theorem Trails.chores_of_isBusy (h : e.Trails c id p got asked top) (busy : p.isBusy = true)
    (alert : e.Alert got) :
    ∃ e' p', Plays id StepNetwork.chores [] e e' ∧ e'.Trails c id p' got asked top ∧
      p'.summary = p.summary ∧ e.ledger.headIndex ≤ e'.ledger.headIndex ∧ e'.Alert got := by
  obtain ⟨peers, issueDue, plays, same⟩ := plays_idle_chores (e := e) id (fun other q hq => by
    rw [h.steady.spread]
    exact newsFor_nil q) h.steady.candidates fun other q hq => by
      cases h.only other q hq
      cases h.known.symm.trans hq
      exact .inr busy
  have chases : Chases c id p got asked top
      { e with spread := ∅, peers := peers, issueDue := issueDue, journal := [] } :=
    h.toChases.congr ⟨rfl, rfl, rfl, rfl, rfl, h.steady.spread.symm, rfl, rfl, rfl, rfl, rfl⟩
      ((same id).trans h.known) (fun other _ => same other) rfl rfl rfl rfl rfl rfl
  have waits : ¬ (p.summary = none ∧ got = asked) := by
    rintro ⟨free, all⟩
    rw [h.toChases.isBusy_iff, free] at busy
    have lt := busy.resolve_left Bool.false_ne_true
    omega
  have trails : Trails c id p got asked top
      { e with spread := ∅, peers := peers, issueDue := issueDue, journal := [] } :=
    ⟨chases, h.awaits, h.goesOn, fun free all => absurd ⟨free, all⟩ waits⟩
  obtain ⟨n, e', p', said, applied, trails', utters, asks, ascends⟩ := trails.applyTick alert
  rcases asks with ⟨rfl, same⟩ | ⟨free, s, awaited, -⟩
  · exact ⟨_, p', plays.append (.one applied utters), trails'.takeJournal, same, ascends.le,
      ascends.alert⟩
  · -- no summary is sent while blocks are outstanding
    obtain ⟨-, all, -⟩ := trails'.awaits s awaited
    exact absurd ⟨free, all⟩ waits

/-- **The chores of an engine that does not wait.**  A summary or a request for blocks is sent, or
the head moves up, or a suspension is lifted. -/
theorem Trails.chores_of_free (h : e.Trails c id p got asked top) (free : p.summary = none)
    (all : got = asked) (alert : e.Alert got) :
    ∃ e' p' asked' said rank, Plays id StepNetwork.chores said e e' ∧
      e'.Trails c id p' got asked' top ∧ e'.Alert got ∧
        e.ledger.headIndex ≤ e'.ledger.headIndex ∧ Flow c p' got asked' e' [] said rank ∧
          rank ≤ 3 ∧ (e'.ledger.headIndex = e.ledger.headIndex →
            rank < if e.suspended then 3 else 2) := by
  obtain ⟨e₀, first, trails₀, calm₀⟩ := h.first_chores
  obtain ⟨_, e₁, p₁, asked', said, issued, trails₁, free₁, utters₁, calm₁, outcome, issues⟩ :=
    trails₀.issueTick_of_free free all
  obtain ⟨_, e₂, p', more, applied, trails₂, utters₂, asks, ascends⟩ :=
    trails₁.takeJournal.applyTick (calm₁.alert (calm₀.alert alert))
  have head : e₁.takeJournal.2.ledger.headIndex = e.ledger.headIndex :=
    calm₁.head.trans calm₀.head
  have le := ascends.le
  have lt := ascends.lt
  have rests := ascends.rests
  rw [head] at le lt rests
  have low : 2 ≤ if e.suspended then 3 else 2 := by split <;> omega
  have plays : Plays id StepNetwork.chores (said ++ more) e e₂.takeJournal.2 :=
    first.append (.cons issued utters₁ (.one applied utters₂))
  rcases outcome with ⟨rfl, rfl⟩ | ⟨more_asked, rfl⟩
  · rcases asks with ⟨rfl, same⟩ | ⟨-, s, awaited, rfl⟩
    · refine ⟨_, p', asked', _, _, plays, trails₂.takeJournal, ascends.alert, le,
        .resting (same.trans free₁) all, by split <;> omega, fun stays => ?_⟩
      have lifted : e₂.takeJournal.2.suspended = false := rests stays
      have held : e.suspended = true := by
        -- otherwise all blocks were asked for, and so one of them was applied
        by_contra goesOn
        have everything := issues (calm₀.suspended.trans (Bool.eq_false_iff.2 goesOn))
        have behind := h.goesOn free
        have risen : e₂.ledger.headIndex = e.ledger.headIndex := stays
        omega
      rw [lifted, held]
      decide
    · exact ⟨_, p', asked', _, 1, plays, trails₂.takeJournal, ascends.alert, le, .asking awaited,
        by omega, fun _ => low⟩
  · rcases asks with ⟨rfl, same⟩ | ⟨-, s, awaited, rfl⟩
    · exact ⟨_, p', asked', _, 1, plays, trails₂.takeJournal, ascends.alert, le,
        .fetching (by omega), by omega, fun _ => low⟩
    · obtain ⟨-, everything, -⟩ := trails₂.awaits s awaited
      omega

/-- **The chores after a catch-up.**  An engine that has applied everything, and fetches nothing,
does nothing. -/
theorem Steady.chores_of_level (h : e.Steady c id got asked) (all : got ≤ e.ledger.headIndex)
    (rests : ∀ (other : PeerId) (q : Peer), e.peers[other]? = some q → q.needFromPeer = false) :
    ∃ e', Plays id StepNetwork.chores [] e e' ∧ e'.ledger = e.ledger ∧
      ∀ other : PeerId, e'.peers[other]? = e.peers[other]? := by
  obtain ⟨peers, issueDue, plays, same⟩ := plays_idle_chores (e := e) id (fun other q hq => by
    rw [h.spread]
    exact newsFor_nil q) h.candidates fun other q hq => .inl (rests other q hq)
  have none (w : WaitingBlock) : ¬ e.InHand w := fun inHand => by
    obtain ⟨-, -, above, le⟩ := (h.hand w).1 inHand
    omega
  have arrived : e.arrived = [] := List.eq_nil_iff_forall_not_mem.2 fun w mem => none w (.inl mem)
  obtain ⟨e', applied, journal, ledger, records⟩ := applyTick_of_empty
    (e := { e with spread := ∅, peers := peers, issueDue := issueDue, journal := [] }) arrived
    (h.size_waiting all)
  refine ⟨_, plays.append (.one applied (.silent journal)), ledger, fun other => ?_⟩
  rw [← same, takeJournal, records]

end Engine

end BlockRelay
