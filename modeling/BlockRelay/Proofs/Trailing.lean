/-
# The side that is behind

An engine catches up with the only peer that it knows, on a chain that its ledger is the lower part
of.  It has applied the blocks up to its head, has those up to the height `got` in hand, has asked
for those up to the height `asked`, and has queued those up to the height `top`
(`Engine.Chases`).  Between two chores it also waits for something: a reply, delivered blocks, or
its next turn (`Engine.Trails`).

Applying the block that is next in line moves the head up by one, and moves nothing else
(`Trails.applyFetched`).  When the last queued block is applied, the next summary is sent.  So a
pass over the waiting blocks moves the head up by as many blocks as it applies, and ends at the
height `got` or with its budget used up (`Trails.applyTick`).
-/
import BlockRelay.Proofs.Leading
import BlockRelay.Proofs.Wakeups

namespace BlockRelay

/-! ## Limits -/

/-- Limits under which a chain of height `n` can be caught up with, while the wall clock says
`time`: each request may ask for a block, some block may wait, the cache of requests has room for
the whole chain, and a clock may run so far ahead that the chain was produced in that time. -/
structure Config.Ample (config : Config) (time n : Nat) : Prop where
  perPeer : 1 ≤ config.sync.maxPerPeer
  backlog : 1 ≤ config.sync.backlogCap
  requests : n ≤ config.cache.requestSize
  age : n ≤ config.net.clockMaxDelay / max config.net.blockInterval 1
  batch : config.sync.batch < 2 ^ 62
  delay : config.net.clockMaxDelay < 2 ^ 62
  wall : time < 2 ^ 62

/-- The height of a chain is no larger than the tolerated skew of the clocks. -/
theorem Config.Ample.small {config : Config} {time n : Nat} (h : config.Ample time n) :
    n < 2 ^ 62 :=
  Nat.lt_of_le_of_lt (h.age.trans (Nat.div_le_self ..)) h.delay

/-- With ample limits a chain is not higher than what can exist by now. -/
theorem ChainFacts.exists_futureBound {config : Config} {clock : Clock} {n : Nat}
    (ample : config.Ample clock.wall n) {view : ChainFacts} (low : view.solid.number.toNat ≤ n) :
    ∃ bound, view.futureBound config.net clock.wallTime = .ok bound ∧ n ≤ bound := by
  have delay := ample.delay
  have wall : clock.wallTime < 2 ^ 62 := Nat.lt_of_le_of_lt (Nat.mod_le ..) ample.wall
  have word : wordBound = 2 ^ 64 := rfl
  have span : Checked.add config.net.clockMaxDelay (clock.wallTime - view.solidTime.toNat) =
      .ok (config.net.clockMaxDelay + (clock.wallTime - view.solidTime.toNat)) :=
    Checked.add_eq_ok_iff.2 ⟨rfl, by omega⟩
  have shorter := Nat.div_le_self
    (config.net.clockMaxDelay + (clock.wallTime - view.solidTime.toNat))
    (max config.net.blockInterval 1)
  have longer : n ≤ (config.net.clockMaxDelay + (clock.wallTime - view.solidTime.toNat)) /
      max config.net.blockInterval 1 :=
    ample.age.trans (Nat.div_le_div_right (Nat.le_add_right ..))
  refine ⟨_, Checked.bind_eq_ok_iff.2 ⟨_, span, Checked.add_eq_ok_iff.2 ⟨rfl, by omega⟩⟩, ?_⟩
  exact longer.trans (Nat.le_add_right ..)

namespace ChainLedger

/-- A block on top of a ledger makes it higher by one. -/
theorem headIndex_extend (l : ChainLedger) (b : Block) :
    (l.extend b).headIndex = l.headIndex + 1 := by
  have size := l.size_main
  show (l.main.push b.id).size - 1 = _
  rw [Array.size_push]
  omega

/-- A block on top of a ledger is its head. -/
theorem head_extend (l : ChainLedger) (b : Block) : (l.extend b).head = b.id := by
  have last := (l.extend b).getElem?_headIndex
  have size := l.size_main
  change (l.main.push b.id)[_]? = _ at last
  rw [headIndex_extend, Array.getElem?_push, if_pos size.symm] at last
  exact (Option.some.inj last).symm

/-- A block on top of the head of a linear ledger is accepted, if nothing is forbidden. -/
theorem Linear.applyBlock_top {l : ChainLedger} {b : Block} (h : l.Linear)
    (valid : ∀ hash : Hash, l.invalid.contains hash = false) (parent : b.parent = l.head.hash)
    (next : b.number.toNat = l.head.number.toNat + 1) :
    l.applyBlock b = .ok (.ok b.transactionHashes, l.extend b) := by
  have new : l.blocks.contains b.id.hash = false := by
    rw [Bool.eq_false_iff]
    intro stored
    have low := h.height_le b.faithful_id stored
    rw [b.number_id] at low
    omega
  have word := b.number.toNat_lt
  have small : l.head.number.toNat < maxWord := by
    unfold maxWord wordBound
    omega
  have number : b.number = l.head.number + 1 := by
    rw [← UInt64.toNat_inj, UInt64.toNat_add, next]
    exact (Nat.mod_eq_of_lt (by omega)).symm
  have carried : b.transactionHashes.find? l.invalid.contains = none :=
    List.find?_eq_none.2 fun t _ => by
      rw [valid]
      decide
  have fits : Checked.succ l.head.number = .ok (l.head.number + 1) :=
    Checked.succ_eq_ok_iff.2 ⟨rfl, small⟩
  unfold applyBlock
  dsimp only
  rw [valid b.id.hash, if_neg Bool.false_ne_true, carried]
  dsimp only
  rw [new, if_neg Bool.false_ne_true, if_neg fun ne => ne parent, fits]
  show (if b.number ≠ l.head.number + 1 then _ else _) = _
  rw [if_neg fun ne => ne number]
  rfl

/-- **The next block.**  A ledger within a chain accepts the block that the chain has above its
head. -/
theorem Within.applyBlock_next {l c : ChainLedger} {b : Block} (h : l.Within c) (whole : c.Whole)
    (has : c.Has b) (next : b.number.toNat = l.headIndex + 1)
    (valid : ∀ hash : Hash, l.invalid.contains hash = false) :
    l.applyBlock b = .ok (.ok b.transactionHashes, l.extend b) := by
  have found := whole.within.linear.getElem?_of_has has
  have head : l.head.number.toNat = l.headIndex := h.linear.head_height
  refine h.linear.applyBlock_top valid ?_ (by omega)
  rw [next] at found
  exact whole.linked (h.below.getElem? l.getElem?_headIndex) found has

end ChainLedger

/-- Whether a record was left as it awaits a reply, or the reply to a summary that was sent is
awaited by now. -/
def Peer.Asks (p p' : Peer) (said : List Message) : Prop :=
  said = [] ∧ p'.summary = p.summary ∨
    p.summary = none ∧ ∃ s, p'.summary = some s ∧ said = [.summaryRequest s.ids]

/-- A summary is sent once at most. -/
theorem Peer.Asks.trans {p p₁ p' : Peer} {said more : List Message} (h : p.Asks p₁ said)
    (h' : p₁.Asks p' more) : p.Asks p' (said ++ more) := by
  rcases h with ⟨rfl, same⟩ | ⟨free, s, asked, rfl⟩
  · unfold Peer.Asks at h' ⊢
    rwa [same] at h'
  · rcases h' with ⟨rfl, same⟩ | ⟨free', -⟩
    · exact .inr ⟨free, s, same.trans asked, rfl⟩
    · cases asked.symm.trans free'

namespace Engine

/-! ## A single peer -/

section Single

variable {σ : Type} {e e' : Engine σ} {id : PeerId} {p : Peer} {hash : Hash} {w : WaitingBlock}

/-- The records of an engine that knows a single peer. -/
theorem toList_peers_of_only (hp : e.peers[id]? = some p)
    (only : ∀ (other : PeerId) (q : Peer), e.peers[other]? = some q → other = id) :
    e.peers.toList = [(id, p)] := by
  have keys : e.peers.keys = [id] := by
    refine keys_eq_of_sorted (List.pairwise_singleton ..) fun k => ?_
    rw [contains_iff_exists, List.mem_singleton]
    constructor
    · rintro ⟨q, hq⟩
      exact only k q hq
    · rintro rfl
      exact ⟨p, hp⟩
  rw [← Std.TreeMap.map_fst_toList_eq_keys, List.map_eq_singleton_iff] at keys
  obtain ⟨⟨other, q⟩, list, rfl⟩ := keys
  have hq : e.peers[other]? = some q := by
    rw [← Std.TreeMap.mem_toList_iff_getElem?_eq_some, list]
    exact List.mem_singleton.2 rfl
  cases hp.symm.trans hq
  exact list

/-- What settling a block means when a single peer is known. -/
theorem settledPeers_of_only (hp : e.peers[id]? = some p)
    (only : ∀ (other : PeerId) (q : Peer), e.peers[other]? = some q → other = id) (s : Settled) :
    e.settledPeers hash s = if settledFor hash p = s then [id] else [] := by
  unfold settledPeers
  rw [toList_peers_of_only hp only]
  by_cases means : settledFor hash p = s <;> simp [means]

/-- What is in front of a queue is known when a single peer is. -/
theorem anyPeer_of_only (hp : e.peers[id]? = some p)
    (only : ∀ (other : PeerId) (q : Peer), e.peers[other]? = some q → other = id)
    (f : Peer → Bool) : e.anyPeer f = f p := by
  rw [Bool.eq_iff_iff, anyPeer_iff]
  constructor
  · rintro ⟨other, q, hq, holds⟩
    cases only other q hq
    cases hp.symm.trans hq
    exact holds
  · exact fun holds => ⟨id, p, hp, holds⟩

/-- Without arrived blocks, what is in hand waits under its own hash. -/
theorem inHand_iff (keyed : e.Keyed) (arrived : e.arrived = []) :
    e.InHand w ↔ e.waiting[w.block.id.hash]? = some w := by
  unfold InHand
  rw [arrived]
  constructor
  · rintro (mem | ⟨hash, found⟩)
    · cases mem
    · rwa [keyed hash w found]
  · exact fun found => .inr ⟨_, found⟩

/-- Waiting blocks wait under their own hashes after one of them was taken away. -/
theorem keyed_of_erase (keyed : e.Keyed) (waiting : e'.waiting = e.waiting.erase hash) :
    e'.Keyed := by
  intro other w found
  rw [waiting, Std.TreeMap.getElem?_erase] at found
  split at found
  · cases found
  · exact keyed other w found

/-- What is in hand after a waiting block was taken away. -/
theorem inHand_of_erase (keyed : e.Keyed) (arrived : e.arrived = []) (arrived' : e'.arrived = [])
    (waiting : e'.waiting = e.waiting.erase hash) :
    e'.InHand w ↔ e.InHand w ∧ w.block.id.hash ≠ hash := by
  rw [inHand_iff (keyed_of_erase keyed waiting) arrived', inHand_iff keyed arrived, waiting,
    Std.TreeMap.getElem?_erase]
  simp only [Std.LawfulEqCmp.compare_eq_iff_eq]
  by_cases same : hash = w.block.id.hash
  · simp [same]
  · rw [if_neg same, and_iff_left (Ne.symm same)]

end Single

/-! ## The state of a catch-up -/

/-- What an engine has that catches up with a chain, up to its head, up to the height `got` and up
to the height `asked`: the blocks that it has applied, those that it has in hand from the peer, and
those that it has asked for.  It has nothing else to do. -/
structure Steady (c : ChainLedger) (id : PeerId) (got asked : Nat) (e : Engine ChainLedger) :
    Prop where
  whole : c.Whole
  ample : e.config.Ample e.clock.wall c.headIndex
  fits : c.headIndex + c.batch < wordBound
  room : c.headIndex ≤ e.requested.capacity
  within : e.ledger.Within c
  valid : ∀ hash : Hash, e.ledger.invalid.contains hash = false
  spread : e.spread = ∅
  candidates : e.candidates.isEmpty = true
  requested : e.requested.entries =
    ((c.segment e.ledger.headIndex asked).map fun b => ⟨b.hash, (), e.now⟩).reverse
  hand : ∀ w, e.InHand w ↔ w.origin = id ∧ c.Has w.block ∧
    e.ledger.headIndex < w.block.number.toNat ∧ w.block.number.toNat ≤ got
  keyed : e.Keyed

/-- A catch-up with a chain that is followed up to the height `top`. -/
structure Chases (c : ChainLedger) (id : PeerId) (p : Peer) (got asked top : Nat)
    (e : Engine ChainLedger) : Prop where
  pursues : e.Pursues c id p top
  steady : e.Steady c id got asked
  known : e.peers[id]? = some p
  only : ∀ (other : PeerId) (q : Peer), e.peers[other]? = some q → other = id
  needs : p.needFromPeer = true
  settled : ∀ hash : Hash, p.beingApplied.contains hash = false
  got_le : e.ledger.headIndex ≤ got
  asked_le : got ≤ asked
  top_le : asked ≤ top
  claim : top = c.headIndex → p.unfetched = 0
  pending : ∀ hash : Hash, p.blocksAsked.contains hash = true ↔
    hash ∈ (c.segment got asked).map BlockId.hash

/-- A catch-up between two chores.  While a reply is awaited, the summary ends where the chain has
been followed to, and everything that was asked for is in hand; while none is, there is a block to
be applied, and more blocks are asked for when it is time to. -/
structure Trails (c : ChainLedger) (id : PeerId) (p : Peer) (got asked top : Nat)
    (e : Engine ChainLedger) : Prop extends e.Chases c id p got asked top where
  awaits : ∀ s, p.summary = some s → s.ids.getLast? = c.main[top]? ∧ got = asked ∧
    (top < c.headIndex ∨ e.ledger.headIndex = top)
  goesOn : p.summary = none → e.ledger.headIndex < top
  issues : p.summary = none → got = asked → asked < top → e.issueDue = true

variable {c : ChainLedger} {id : PeerId} {p p' : Peer} {got asked top : Nat}
  {e e' : Engine ChainLedger}

/-- Two engines that differ at most in what is due, in what was said, and in their records of
peers. -/
structure SameStore (e e' : Engine ChainLedger) : Prop where
  config : e'.config = e.config
  clock : e'.clock = e.clock
  main : e'.ledger.main = e.ledger.main
  blocks : e'.ledger.blocks = e.ledger.blocks
  invalid : e'.ledger.invalid = e.ledger.invalid
  spread : e'.spread = e.spread
  candidates : e'.candidates = e.candidates
  recent : e'.recent = e.recent
  requested : e'.requested = e.requested
  arrived : e'.arrived = e.arrived
  waiting : e'.waiting = e.waiting

/-- The chain of an engine with the same store is as high. -/
theorem SameStore.headIndex (same : SameStore e e') : e'.ledger.headIndex = e.ledger.headIndex := by
  simp only [ChainLedger.headIndex, same.main]

/-- An engine with the same store has the same of a chain. -/
theorem Steady.congr (h : e.Steady c id got asked) (same : SameStore e e') :
    e'.Steady c id got asked where
  whole := h.whole
  ample := by
    rw [same.config, same.clock]
    exact h.ample
  fits := h.fits
  room := by
    rw [same.requested]
    exact h.room
  within := h.within.congr same.main same.blocks
  valid := by
    rw [same.invalid]
    exact h.valid
  spread := same.spread.trans h.spread
  candidates := by
    rw [same.candidates]
    exact h.candidates
  requested := by
    rw [same.requested, same.headIndex, now, same.clock]
    exact h.requested
  hand := by
    unfold InHand
    rw [same.arrived, same.waiting, same.headIndex]
    exact h.hand
  keyed := by
    unfold Keyed
    rw [same.waiting]
    exact h.keyed

/-- A catch-up stays what it is while the store stays, and the record but for the summary. -/
theorem Chases.congr (h : e.Chases c id p got asked top) (same : SameStore e e')
    (known : e'.peers[id]? = some p')
    (others : ∀ other : PeerId, other ≠ id → e'.peers[other]? = e.peers[other]?)
    (queue : p'.toFetch = p.toFetch) (shared : p'.bothHave = p.bothHave)
    (needs : p'.needFromPeer = p.needFromPeer) (settled : p'.beingApplied = p.beingApplied)
    (claim : p'.unfetched = p.unfetched) (pending : p'.blocksAsked = p.blocksAsked) :
    e'.Chases c id p' got asked top where
  pursues := h.pursues.congr same.main same.blocks same.recent others queue shared
  steady := h.steady.congr same
  known := known
  only other q hq := by
    by_contra ne
    rw [others other ne] at hq
    exact ne (h.only other q hq)
  needs := needs.trans h.needs
  settled := by
    rw [settled]
    exact h.settled
  got_le := by
    rw [same.headIndex]
    exact h.got_le
  asked_le := h.asked_le
  top_le := h.top_le
  claim := by
    rw [claim]
    exact h.claim
  pending := by
    rw [pending]
    exact h.pending

/-- A catch-up stays what it is while the store stays, and all records. -/
theorem Trails.congr (h : e.Trails c id p got asked top) (same : SameStore e e')
    (peers : ∀ other : PeerId, e'.peers[other]? = e.peers[other]?)
    (issues : e'.issueDue = e.issueDue) : e'.Trails c id p got asked top where
  toChases := h.toChases.congr same ((peers id).trans h.known) (fun other _ => peers other) rfl rfl
    rfl rfl rfl rfl
  awaits := by
    rw [same.headIndex]
    exact h.awaits
  goesOn := by
    rw [same.headIndex]
    exact h.goesOn
  issues := by
    rw [issues]
    exact h.issues

/-- A catch-up between two chores, while no reply is awaited. -/
theorem Chases.trails (h : e.Chases c id p got asked top) (free : p.summary = none)
    (goesOn : e.ledger.headIndex < top)
    (issues : got = asked → asked < top → e.issueDue = true) : e.Trails c id p got asked top :=
  ⟨h, fun _ hs => (Option.some_ne_none _ (hs.symm.trans free)).elim, fun _ => goesOn,
    fun _ => issues⟩

/-- No reply is awaited before everything that was asked for is in hand. -/
theorem Trails.free_of_lt (h : e.Trails c id p got asked top) (lt : got < asked) :
    p.summary = none := by
  cases awaited : p.summary with
  | none => rfl
  | some s =>
    obtain ⟨-, all, -⟩ := h.awaits s awaited
    omega

/-- A catch-up stays what it is when the journal is taken. -/
theorem Trails.takeJournal (h : e.Trails c id p got asked top) :
    e.takeJournal.2.Trails c id p got asked top :=
  h.congr (by constructor <;> rfl) (fun _ => rfl) rfl

/-- **The next summary.**  When everything that was asked for is in hand, the next summary may be
sent. -/
theorem Chases.nextSummary (h : e.Chases c id p got asked top) (free : p.summary = none)
    (all : got = asked) (more : top < c.headIndex ∨ e.ledger.headIndex = top) :
    ∃ summary, e.nextSummary id = e.sendSummary id summary ∧
      (e.sendSummary id summary).Trails c id (p.await summary e.now) got asked top := by
  obtain ⟨summary, -, ends, sent⟩ := h.pursues.nextSummary h.known free
  have others (other : PeerId) (ne : other ≠ id) :
      (e.sendSummary id summary).peers[other]? = e.peers[other]? :=
    (peers_modifyPeer e id _ other).trans (if_neg ne)
  refine ⟨summary, sent, ?_, fun s hs => ?_, nofun, nofun⟩
  · exact h.congr (by constructor <;> rfl)
      (peers_sendSummary h.known summary) others rfl rfl rfl rfl rfl rfl
  · cases hs
    exact ⟨ends, all, more⟩

/-! ## Applying the next block -/

section Front

variable {b : BlockId} (front : heads b.hash p = true) (needs : p.needFromPeer = true)

include front needs

/-- When the block in front of the queue is settled, the queue is drained if this was its last
block. -/
theorem settledFor_takeFront :
    settledFor b.hash (takeFront b.hash p) =
      if p.toFetch.tail = [] then .drained else .untouched := by
  unfold takeFront settledFor Peer.process
  rw [if_pos front]
  simp [needs, BlockId.ofHash]

/-- The record of a peer after the block in front of its queue was settled. -/
theorem settlePeer_takeFront :
    settlePeer b (takeFront b.hash p) =
      { p with
        toFetch := p.toFetch.tail
        beingApplied := (p.beingApplied.insertIfNew b.hash (BlockId.ofHash b.hash)).erase b.hash
        bothHave := b } := by
  have busy : settledFor b.hash (takeFront b.hash p) ≠ .idle := by
    rw [settledFor_takeFront front needs]
    split <;> decide
  unfold settlePeer
  rw [if_neg busy, takeFront, if_pos front, if_pos]
  · rfl
  · simp [Peer.process, BlockId.ofHash]

end Front

/-- A block in hand is in front of the queue exactly if it is the next one. -/
theorem Chases.heads_iff {b : Block} (h : e.Chases c id p got asked top) (has : c.Has b)
    (above : e.ledger.headIndex < b.number.toNat) (le : b.number.toNat ≤ got) :
    heads b.id.hash p = true ↔ b.number.toNat = e.ledger.headIndex + 1 := by
  have asked_le := h.asked_le
  have top_le := h.top_le
  have high := h.pursues.high
  have linear := h.steady.whole.within.linear
  obtain ⟨first, here, height, found⟩ := h.steady.whole.exists_has
    (i := e.ledger.headIndex + 1) (by omega)
  have queue := h.pursues.queue
  rw [ChainLedger.segment_eq_cons found (by omega)] at queue
  unfold heads
  rw [queue, List.head?_cons, Option.any_some, decide_eq_true_eq, ← height]
  constructor
  · intro same
    rw [← b.height_id, ← same, first.height_id]
  · intro same
    rw [linear.has_inj has here same]

/-- What becomes of an engine that takes the next block up, and accepts it. -/
def accept (e : Engine ChainLedger) (b : Block) : Engine ChainLedger :=
  { { e.takeNext b.id.hash with
      ledger := e.ledger.extend b
      applyDue := true }.record (.appliedBlock b.id true) with
    recent := e.recent.push b.id
    metrics := e.metrics.countBlock }.settle b.id

/-- The records after the next block was accepted. -/
theorem peers_accept (e : Engine ChainLedger) (b : Block) (other : PeerId) :
    (e.accept b).peers[other]? =
      (e.peers[other]?).map fun p => settlePeer b.id (takeFront b.id.hash p) := by
  have settled : (e.accept b).peers[other]? =
      ((e.takeNext b.id.hash).peers[other]?).map (settlePeer b.id) := peers_mapPeers ..
  have taken : (e.takeNext b.id.hash).peers[other]? =
      (e.peers[other]?).map (takeFront b.id.hash) := peers_mapPeers ..
  rw [settled, taken, Option.map_map]
  rfl

/-- A catch-up goes on above the next block. -/
theorem Pursues.accept {b : Block} (h : e.Pursues c id p top)
    (within : (e.ledger.extend b).Within c)
    (found : c.main[e.ledger.headIndex + 1]? = some b.id) (lt : e.ledger.headIndex < top)
    (only : ∀ (other : PeerId) (q : Peer), e.peers[other]? = some q → other = id)
    (queue : p'.toFetch = p.toFetch.tail) (shared : p'.bothHave = b.id) :
    (e.accept b).Pursues c id p' top where
  linear := within.linear
  whole := h.whole
  below := within.below
  low := by
    show (e.ledger.extend b).headIndex ≤ top
    rw [ChainLedger.headIndex_extend]
    exact lt
  high := h.high
  queue := by
    show p'.toFetch = c.segment (e.ledger.extend b).headIndex top
    rw [queue, h.queue, ChainLedger.segment_eq_cons found lt, ChainLedger.headIndex_extend]
    rfl
  shared := .inr (shared.trans (ChainLedger.head_extend ..).symm)
  alone other q hq ne := by
    rw [peers_accept] at hq
    obtain ⟨q', known, -⟩ := Option.map_eq_some_iff.1 hq
    exact absurd (only other q' known) ne
  recent := by
    intro known mem
    rcases RecentBlocks.mem_of_mem_push mem with old | rfl
    · exact Array.mem_push_of_mem _ (h.recent known old)
    · exact Array.mem_push_self

/-- What an engine has of a chain after the next block was accepted. -/
theorem Steady.accept {b : Block} (h : e.Steady c id got asked) (arrived : e.arrived = [])
    (within : (e.ledger.extend b).Within c) (has : c.Has b)
    (next : b.number.toNat = e.ledger.headIndex + 1) (lt : e.ledger.headIndex < asked) :
    (e.accept b).Steady c id got asked where
  whole := h.whole
  ample := h.ample
  fits := h.fits
  room := h.room
  within := within
  valid := h.valid
  spread := h.spread
  candidates := h.candidates
  requested := by
    have linear := h.whole.within.linear
    have found := linear.getElem?_of_has has
    rw [next] at found
    have first := ChainLedger.segment_eq_cons found lt
    -- the hash of the block is that of the oldest request, and of no other one
    have distinct := (linear.consecutive_segment e.ledger.headIndex asked).nodup_hashes
    rw [first, List.map_cons, List.nodup_cons] at distinct
    show e.requested.others b.id.hash = _
    rw [AgingCache.others, h.requested, first]
    show _ = ((c.segment (e.ledger.extend b).headIndex asked).map
      fun b => (⟨b.hash, (), e.now⟩ : CacheEntry Hash Unit)).reverse
    rw [ChainLedger.headIndex_extend, List.map_cons, List.reverse_cons, List.filter_append,
      List.filter_eq_self.2]
    · simp
    · intro entry mem
      obtain ⟨other, listed, rfl⟩ := List.mem_map.1 (List.mem_reverse.1 mem)
      exact decide_eq_true fun same => distinct.1 (List.mem_map.2 ⟨other, listed, same⟩)
  hand w := by
    have taken : (e.accept b).InHand w ↔ e.InHand w ∧ w.block.id.hash ≠ b.id.hash :=
      inHand_of_erase h.keyed arrived arrived rfl
    show _ ↔ _ ∧ _ ∧ (e.ledger.extend b).headIndex < _ ∧ _
    rw [taken, h.hand, ChainLedger.headIndex_extend]
    constructor
    · rintro ⟨⟨origin, hasIt, above, le⟩, ne⟩
      refine ⟨origin, hasIt, Nat.lt_of_le_of_ne above fun same => ne ?_, le⟩
      rw [h.whole.within.linear.has_inj hasIt has (same.symm.trans next.symm)]
    · rintro ⟨origin, hasIt, above, le⟩
      refine ⟨⟨origin, hasIt, Nat.lt_of_succ_lt above, le⟩, fun same => ?_⟩
      have height : w.block.number.toNat = b.number.toNat := by
        rw [← w.block.height_id, same, b.height_id]
      omega
  keyed := by
    have waiting : (e.accept b).waiting = e.waiting.erase b.id.hash := rfl
    exact keyed_of_erase h.keyed waiting

/-- What a catch-up has come to after the next block was accepted. -/
theorem Chases.accept {b : Block} (h : e.Chases c id p got asked top) (arrived : e.arrived = [])
    (has : c.Has b) (next : b.number.toNat = e.ledger.headIndex + 1)
    (le : b.number.toNat ≤ got) :
    ∃ p', (e.accept b).Chases c id p' got asked top ∧ p'.summary = p.summary ∧
      p'.toFetch = p.toFetch.tail := by
  have linear := h.steady.whole.within.linear
  have asked_le := h.asked_le
  have top_le := h.top_le
  have found := linear.getElem?_of_has has
  rw [next] at found
  have front : heads b.id.hash p = true := (h.heads_iff has (by omega) le).2 next
  have head : e.ledger.head.number.toNat = e.ledger.headIndex := h.pursues.linear.head_height
  have within := h.steady.within.extend linear has (next.trans (by rw [head]))
  have known : (e.accept b).peers[id]? = some (settlePeer b.id (takeFront b.id.hash p)) := by
    rw [peers_accept, h.known]
    rfl
  rw [settlePeer_takeFront front h.needs] at known
  refine ⟨_, ⟨?_, ?_, known, fun other q hq => ?_, h.needs, fun hash => ?_, ?_, asked_le, top_le,
    h.claim, h.pending⟩, rfl, rfl⟩
  · exact h.pursues.accept within found (by omega) h.only rfl rfl
  · exact h.steady.accept arrived within has next (by omega)
  · rw [peers_accept] at hq
    obtain ⟨q', known, -⟩ := Option.map_eq_some_iff.1 hq
    exact h.only other q' known
  · -- the block was in process only in between
    rw [Std.TreeMap.contains_erase, Std.TreeMap.contains_insertIfNew, h.settled, Bool.or_false]
    cases compare b.id.hash hash <;> rfl
  · show (e.ledger.extend b).headIndex ≤ got
    rw [ChainLedger.headIndex_extend]
    omega

/-- The head has moved up by one block, another pass over the waiting blocks is due, and nothing
else is due or suspended. -/
structure Applied (e e' : Engine ChainLedger) : Prop where
  head : e'.ledger.headIndex = e.ledger.headIndex + 1
  suspended : e'.suspended = e.suspended
  applyDue : e'.applyDue = true
  arrived : e'.arrived = []

/-- The next block is applied, and then a summary is sent if it was the last one of the queue. -/
theorem Chases.applyFetched_eq {b : Block} (h : e.Chases c id p got asked top) (has : c.Has b)
    (next : b.number.toNat = e.ledger.headIndex + 1) (le : b.number.toNat ≤ got) :
    (e.takeNext b.id.hash).applyFetched b =
      .ok (if p.toFetch.tail = [] then (e.accept b).nextSummary id else e.accept b) := by
  have linear := h.steady.whole.within.linear
  have asked_le := h.asked_le
  have top_le := h.top_le
  have found := linear.getElem?_of_has has
  rw [next] at found
  have front : heads b.id.hash p = true := (h.heads_iff has (by omega) le).2 next
  have applied := h.steady.within.applyBlock_next h.steady.whole has next h.steady.valid
  have unlisted : (e.takeNext b.id.hash).recent.contains b.id = false :=
    h.pursues.fresh (Nat.le_refl _) b.id
      (ChainLedger.mem_segment.2 ⟨_, Nat.lt_succ_self _, (by omega : _ ≤ top), found⟩)
  have submitted : (e.takeNext b.id.hash).submitFetched b = .ok (none, e.accept b) := by
    unfold submitFetched
    dsimp only
    rw [unlisted, if_neg Bool.false_ne_true]
    exact Checked.bind_eq_ok_iff.2 ⟨_, applyBlock_eq_ok_iff.2 ⟨_, applied, rfl⟩, rfl⟩
  have peers (other : PeerId) : (e.takeNext b.id.hash).peers[other]? =
      (e.peers[other]?).map (takeFront b.id.hash) := peers_mapPeers ..
  have known : (e.takeNext b.id.hash).peers[id]? = some (takeFront b.id.hash p) := by
    rw [peers, h.known]
    rfl
  have only (other : PeerId) (q : Peer) (hq : (e.takeNext b.id.hash).peers[other]? = some q) :
      other = id := by
    rw [peers] at hq
    obtain ⟨q', known, -⟩ := Option.map_eq_some_iff.1 hq
    exact h.only other q' known
  unfold applyFetched
  rw [settledPeers_of_only known only, settledPeers_of_only known only,
    settledFor_takeFront front h.needs, submitted]
  split <;> rfl

/-- **One block.**  The next block is applied, and nothing is lost of the catch-up. -/
theorem Trails.applyFetched {b : Block} (h : e.Trails c id p got asked top)
    (arrived : e.arrived = []) (has : c.Has b) (next : b.number.toNat = e.ledger.headIndex + 1)
    (le : b.number.toNat ≤ got) :
    ∃ e' p' said, (e.takeNext b.id.hash).applyFetched b = .ok e' ∧
      e'.Trails c id p' got asked top ∧ e.Utters id said e' ∧ p.Asks p' said ∧ Applied e e' := by
  obtain ⟨p', chases, summary, queue⟩ := h.toChases.accept arrived has next le
  have done := h.toChases.applyFetched_eq has next le
  have asked_le := h.asked_le
  have top_le := h.top_le
  have head : (e.accept b).ledger.headIndex = e.ledger.headIndex + 1 :=
    ChainLedger.headIndex_extend ..
  have applied : Applied e (e.accept b) := ⟨head, rfl, rfl, arrived⟩
  have quiet : e.Utters id [] (e.accept b) :=
    .quiet (.appliedBlock b.id true) rfl rfl nofun
  have empty : p.toFetch.tail = [] ↔ e.ledger.headIndex + 1 = top := by
    have length := congrArg List.length chases.pursues.queue
    rw [ChainLedger.length_segment chases.pursues.high, head, queue] at length
    rw [← List.length_eq_zero_iff, length]
    omega
  by_cases last : e.ledger.headIndex + 1 = top
  · rw [if_pos (empty.2 last)] at done
    cases free : p'.summary with
    | none =>
      -- everything is applied, so everything that was asked for has arrived
      obtain ⟨ids, sent, trails⟩ := chases.nextSummary free (by omega) (.inr (head.trans last))
      rw [sent] at done
      refine ⟨_, _, _, done, trails, quiet.trans (.send rfl),
        .inr ⟨summary.symm.trans free, ⟨ids, _⟩, rfl, rfl⟩, applied.head, rfl, rfl, arrived⟩
    | some s =>
      have waits : (e.accept b).nextSummary id = e.accept b := by
        unfold nextSummary
        simp only [chases.known, free, Option.isSome_some, if_true]
      rw [waits] at done
      refine ⟨_, p', _, done, ⟨chases, fun s' hs => ?_, fun none => ?_, fun none => ?_⟩, quiet,
        .inl ⟨rfl, summary⟩, applied⟩
      · obtain ⟨ends, all, -⟩ := h.awaits s' (summary.symm.trans hs)
        exact ⟨ends, all, .inr (head.trans last)⟩
      · cases free.symm.trans none
      · cases free.symm.trans none
  · rw [if_neg fun none => last (empty.1 none)] at done
    refine ⟨_, p', _, done, ⟨chases, fun s hs => ?_, fun _ => ?_, fun none => ?_⟩, quiet,
      .inl ⟨rfl, summary⟩, applied⟩
    · obtain ⟨ends, all, more⟩ := h.awaits s (summary.symm.trans hs)
      exact ⟨ends, all, .inl (more.resolve_right (by omega))⟩
    · rw [head]
      omega
    · exact h.issues (summary.symm.trans none)

/-! ## A pass over the waiting blocks -/

/-- What the visits of a pass that began with the engine `e` have come to: the head has moved up by
as many blocks as were applied. -/
structure Climbs (c : ChainLedger) (id : PeerId) (p : Peer) (got asked top : Nat)
    (e : Engine ChainLedger) (s : ApplyPass ChainLedger) : Prop where
  trails : ∃ p' said, s.engine.Trails c id p' got asked top ∧ e.Utters id said s.engine ∧
    p.Asks p' said
  head : s.engine.ledger.headIndex = e.ledger.headIndex + s.applied
  suspended : s.engine.suspended = e.suspended
  applyDue : 0 < s.applied → s.engine.applyDue = true
  arrived : s.engine.arrived = []

namespace Climbs

variable {s : ApplyPass ChainLedger}

/-- A visit succeeds, and applies one block at most. -/
theorem visit (h : Climbs c id p got asked top e s) (hash : Hash) :
    ∃ s', s.visit hash = .ok s' ∧ Climbs c id p got asked top e s' := by
  obtain ⟨p', said, trails, utters, asks⟩ := h.trails
  unfold ApplyPass.visit
  dsimp only
  cases hw : s.engine.waiting[hash]? with
  | none => exact ⟨s, rfl, h⟩
  | some w =>
    obtain rfl : w.block.id.hash = hash := trails.steady.keyed hash w hw
    obtain ⟨origin, has, above, le⟩ := (trails.steady.hand w).1 (.inr ⟨_, hw⟩)
    have registered : s.engine.isRegistered w.origin = true := by
      rw [origin]
      exact isRegistered_iff.2 ⟨p', trails.known⟩
    dsimp only
    rw [registered, anyPeer_of_only trails.known trails.only, Bool.not_true,
      if_neg Bool.false_ne_true]
    split
    next front =>
      have next := (trails.heads_iff has above le).1 front
      obtain ⟨e', q, more, applied, trails', utters', asks', done⟩ :=
        trails.applyFetched h.arrived has next le
      rw [applied]
      refine ⟨_, rfl, ⟨q, _, trails', utters.trans utters', asks.trans asks'⟩, ?_,
        done.suspended.trans h.suspended, fun _ => done.applyDue, done.arrived⟩
      rw [done.head, h.head]
      rfl
    next => exact ⟨s, rfl, h⟩

/-- A sweep succeeds. -/
theorem sweep (h : Climbs c id p got asked top e s) (budget : Nat) (hashes : List Hash) :
    ∃ s', ApplyPass.sweep budget hashes s = .ok s' ∧ Climbs c id p got asked top e s' := by
  induction hashes generalizing s with
  | nil => exact ⟨s, rfl, h⟩
  | cons hash rest ih =>
    unfold ApplyPass.sweep
    split
    · exact ⟨s, rfl, h⟩
    · obtain ⟨s₁, visited, h₁⟩ := h.visit hash
      rw [visited]
      exact ih h₁

/-- Sweeps succeed, one after the other. -/
theorem run (h : Climbs c id p got asked top e s) (budget n : Nat) :
    ∃ s', ApplyPass.run budget n s = .ok s' ∧ Climbs c id p got asked top e s' := by
  induction n generalizing s with
  | zero => exact ⟨s, rfl, h⟩
  | succ n ih =>
    have start : Climbs c id p got asked top e { s with progressed := false } :=
      ⟨h.trails, h.head, h.suspended, h.applyDue, h.arrived⟩
    obtain ⟨s₁, swept, h₁⟩ := start.sweep budget s.engine.waiting.keys
    by_cases stops : (decide (budget ≤ s₁.applied) || !s₁.progressed) = true
    · exact ⟨s₁, Checked.bind_eq_ok_iff.2 ⟨s₁, swept, if_pos stops⟩, h₁⟩
    · obtain ⟨s', ran, h'⟩ := ih h₁
      exact ⟨s', Checked.bind_eq_ok_iff.2 ⟨s₁, swept, (if_neg stops).trans ran⟩, h'⟩

end Climbs

/-- What is in hand stays in hand when it is put with the blocks that wait. -/
theorem Steady.absorb (h : e.Steady c id got asked) : e.absorb.Steady c id got asked := by
  have keyed : e.absorb.Keyed := by
    intro hash w found
    rcases getElem?_foldl_insert found with old | ⟨-, same⟩
    · exact h.keyed hash w old
    · exact same
  have came {w : WaitingBlock} (inHand : e.absorb.InHand w) : e.InHand w := by
    rw [inHand_iff keyed rfl] at inHand
    rcases getElem?_foldl_insert inHand with old | ⟨mem, -⟩
    · exact .inr ⟨_, old⟩
    · exact .inl mem
  refine ⟨h.whole, h.ample, h.fits, h.room, h.within, h.valid, h.spread, h.candidates, h.requested,
    fun w => Iff.trans ⟨came, fun inHand => ?_⟩ (h.hand w), keyed⟩
  have waits : e.absorb.waiting.contains w.block.id.hash = true := by
    refine contains_foldl_insert.2 ?_
    rcases inHand with mem | ⟨hash, found⟩
    · exact .inl ⟨w, mem, rfl⟩
    · exact .inr (contains_iff_exists.2 ⟨w, h.keyed hash w found ▸ found⟩)
  obtain ⟨other, found⟩ := contains_iff_exists.1 waits
  -- blocks of the chain with the same hash are the same, and they come from the same peer
  obtain ⟨origin, has, -⟩ := (h.hand w).1 inHand
  obtain ⟨origin', has', -⟩ := (h.hand other).1 (came (.inr ⟨_, found⟩))
  have same := keyed _ other found
  have eq : other = w := by
    have blocks : other.block = w.block := by
      have here := has'.2
      rw [same, has.2] at here
      exact (Option.some.inj here).symm
    cases other
    cases w
    cases blocks
    cases origin.trans origin'.symm
    rfl
  rw [inHand_iff keyed rfl, found, eq]

/-- Whether a pass over the waiting blocks is due while there is something to apply, or while asking
for blocks is suspended. -/
def Alert (e : Engine ChainLedger) (got : Nat) : Prop :=
  e.ledger.headIndex < got ∨ e.suspended = true → e.applyDue = true

/-- Nothing waits while the head is at the height up to which there is something in hand. -/
theorem Steady.size_waiting (h : e.Steady c id got asked) (all : got ≤ e.ledger.headIndex) :
    e.waiting.size = 0 := by
  have empty : e.waiting.isEmpty = true := by
    rw [Std.TreeMap.isEmpty_iff_forall_not_mem]
    intro hash mem
    have found := Std.TreeMap.getElem?_eq_some_getElem mem
    obtain ⟨-, -, above, le⟩ := (h.hand _).1 (.inr ⟨hash, found⟩)
    omega
  rwa [Std.TreeMap.isEmpty_eq_size_eq_zero, beq_iff_eq] at empty

/-- A quiet engine has applied everything that it has in hand. -/
theorem Chases.got_le_of_quiet (h : e.Chases c id p got asked top) (quiet : e.Quiet) :
    got ≤ e.ledger.headIndex := by
  by_contra behind
  have asked_le := h.asked_le
  have top_le := h.top_le
  have high := h.pursues.high
  obtain ⟨b, has, height, -⟩ := h.steady.whole.exists_has (i := e.ledger.headIndex + 1) (by omega)
  have inHand : e.InHand ⟨b, id⟩ := (h.steady.hand _).2 ⟨rfl, has, by
    show _ < b.number.toNat
    omega, by
    show b.number.toNat ≤ _
    omega⟩
  rw [inHand_iff h.steady.keyed quiet.arrived] at inHand
  have waits : e.waiting.contains b.id.hash = true := contains_iff_exists.2 ⟨_, inHand⟩
  have front := quiet.waiting _ waits
  rw [anyPeer_of_only h.known h.only, (h.heads_iff has (by omega) (by omega)).2 height] at front
  cases front

/-- What a pass over the waiting blocks does: the head moves up if there is something to apply, and
otherwise the suspension is lifted. -/
structure Ascends (got : Nat) (e e' : Engine ChainLedger) : Prop where
  le : e.ledger.headIndex ≤ e'.ledger.headIndex
  lt : e.ledger.headIndex < got → e.ledger.headIndex < e'.ledger.headIndex
  rests : e'.ledger.headIndex = e.ledger.headIndex → e'.suspended = false
  alert : e'.Alert got

/-- Waiting blocks are applied, from the one above the head on. -/
theorem Trails.applyWaiting (h : e.Trails c id p got asked top) :
    ∃ n e' p' said, e.applyWaiting = .ok (n, e') ∧ e'.Trails c id p' got asked top ∧
      e.Utters id said e' ∧ p.Asks p' said ∧ e.Ascends got e' := by
  have absorbed : e.absorb.Trails c id p got asked top :=
    { h with
      pursues := h.pursues.congr rfl rfl rfl (fun _ _ => rfl) rfl rfl
      steady := h.steady.absorb }
  -- the engine when the pass begins
  obtain ⟨e₁, resumed, trails, journal, head, arrived, lifted⟩ : ∃ e₁, e.absorb.resume = e₁ ∧
      e₁.Trails c id p got asked top ∧ e₁.journal = e.journal ∧
        e₁.ledger.headIndex = e.ledger.headIndex ∧ e₁.arrived = [] ∧
          (got ≤ e.ledger.headIndex → e₁.suspended = false) := by
    refine ⟨_, rfl, ?_⟩
    unfold resume
    split
    next => exact ⟨absorbed.congr (by constructor <;> rfl)
      (fun _ => rfl) rfl, rfl, rfl, rfl, fun _ => rfl⟩
    next held =>
      refine ⟨absorbed, rfl, rfl, rfl, fun all => ?_⟩
      rw [absorbed.steady.size_waiting all, Bool.and_eq_true, decide_eq_true_eq, not_and] at held
      exact Bool.eq_false_iff.2 fun suspended => held suspended h.steady.ample.backlog
  have start : Climbs c id p got asked top e₁ { engine := e₁ } :=
    ⟨⟨p, [], trails, .silent rfl, .inl ⟨rfl, rfl⟩⟩, rfl, rfl, nofun, arrived⟩
  have pos : 0 < max e.config.sync.applyBudget 1 := by omega
  obtain ⟨s, ran, climbs⟩ := start.run (max e.config.sync.applyBudget 1) (e₁.waiting.size + 1)
  have ended := run_quiet ran arrived (Nat.lt_succ_self _)
  obtain ⟨p', said, trails', utters, asks⟩ := climbs.trails
  have quiet : e.Utters id [] e₁ := .silent journal
  have utters : e.Utters id said s.engine := quiet.trans utters
  have climbed := climbs.head
  rw [head] at climbed
  refine ⟨s.applied, _, p', said, Checked.bind_eq_ok_iff.2 ⟨s, resumed ▸ ran, rfl⟩, ?_⟩
  split
  next used =>
    have exhausted : s.engine.exhaust.Trails c id p' got asked top :=
      trails'.congr (by constructor <;> rfl) (fun _ => rfl) rfl
    have same : s.engine.exhaust.ledger.headIndex = s.engine.ledger.headIndex := rfl
    exact ⟨exhausted, utters, asks, by omega, fun _ => by omega, fun eq => by omega, fun _ => rfl⟩
  next left =>
    have reached := trails'.got_le_of_quiet (ended.resolve_left left)
    refine ⟨trails', utters, asks, by omega, fun _ => by omega, fun eq => ?_, fun due => ?_⟩
    · have all : got ≤ e.ledger.headIndex := by omega
      exact climbs.suspended.trans (lifted all)
    · rcases due with behind | suspended
      · omega
      · refine climbs.applyDue (Nat.pos_of_ne_zero fun none => ?_)
        have all : got ≤ e.ledger.headIndex := by omega
        cases suspended.symm.trans (climbs.suspended.trans (lifted all))

/-- **A turn at applying.**  What is in hand is applied when it is time to. -/
theorem Trails.applyTick (h : e.Trails c id p got asked top) (alert : e.Alert got) :
    ∃ n e' p' said, e.perform .applyTick = .ok (.count n, e') ∧ e'.Trails c id p' got asked top ∧
      e.Utters id said e' ∧ p.Asks p' said ∧ e.Ascends got e' := by
  by_cases due : e.applyDue = true
  · have rested : Trails c id p got asked top { e with applyDue := false } :=
      h.congr (by constructor <;> rfl) (fun _ => rfl) rfl
    obtain ⟨n, e', p', said, done, trails, utters, asks, ascends⟩ := rested.applyWaiting
    refine ⟨n, e', p', said, ?_, trails, utters, asks, ascends.le, ascends.lt, ascends.rests,
      ascends.alert⟩
    rw [perform, Engine.applyTick, if_pos due, done]
    rfl
  · have all : ¬ e.ledger.headIndex < got := fun behind => due (alert (.inl behind))
    refine ⟨0, e, p, [], ?_, h, .silent rfl, .inl ⟨rfl, rfl⟩, Nat.le_refl _,
      fun behind => absurd behind all,
      fun _ => Bool.eq_false_iff.2 fun suspended => due (alert (.inr suspended)), alert⟩
    rw [perform, Engine.applyTick, if_neg due]
    rfl

end Engine

end BlockRelay
