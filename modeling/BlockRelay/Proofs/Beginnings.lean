/-
# How a catch-up begins

A node that has no peers puts the blocks that it produces on top of its chain, one after the
other, and nothing else happens to the network, whichever steps it makes in between
(`StepNetwork.Lonely.produces`).  Its clock stands still, so each block is dated later than the one
before it by a millisecond at most, if not by the wall clock; as long as there are not too many of
them, no date overflows.

When such a node registers a peer that is not higher, it is ready to serve it
(`Engine.Alone.leads`).  An engine that has just started and registers a higher peer sends its
first summary, and trails from then on (`Engine.trails_of_start`).
-/
import BlockRelay.Proofs.Agreement
import BlockRelay.Proofs.Trailing

namespace BlockRelay

namespace ChainLedger

/-- The head of a new ledger is dated as its only block. -/
theorem timestamp?_head_ofGenesis (genesis : Block) (solidifyDepth batch : Nat) :
    Ledger.timestamp? (ofGenesis genesis solidifyDepth batch)
      (ofGenesis genesis solidifyDepth batch).head = some genesis.timestamp := by
  have held : (ofGenesis genesis solidifyDepth batch).blocks[genesis.id.hash]? = some genesis :=
    Std.TreeMap.getElem?_insert_self
  show ((ofGenesis genesis solidifyDepth batch).blocks[genesis.id.hash]?).map Block.timestamp = _
  rw [held, Option.map_some]

/-- The head is dated as the block that was put on top. -/
theorem timestamp?_head_extend (l : ChainLedger) (b : Block) :
    Ledger.timestamp? (l.extend b) (l.extend b).head = some b.timestamp := by
  have held : (l.extend b).blocks[b.id.hash]? = some b := (has_extend_self l b).2
  rw [head_extend]
  show ((l.extend b).blocks[b.id.hash]?).map Block.timestamp = _
  rw [held, Option.map_some]

/-- **Producing a block.**  If nothing is forbidden, a linear ledger puts the block that it produces
on top of its chain. -/
theorem Linear.produce_eq {l : ChainLedger} (h : l.Linear)
    (valid : ∀ hash : Hash, l.invalid.contains hash = false) (small : l.headIndex + 1 < wordBound)
    (timestamp witness : UInt64) (transactions : List Transaction) :
    ∃ b, l.produce timestamp witness transactions = .ok (.ok b, l.extend b) ∧
      b.timestamp = timestamp ∧ l.blocks.contains b.id.hash = false := by
  have head : l.head.number.toNat = l.headIndex := h.head_height
  have word : wordBound = 2 ^ 64 := rfl
  obtain ⟨b, eq⟩ : ∃ b : Block,
      b = ⟨l.head.number + 1, l.head.hash, timestamp, witness, transactions⟩ := ⟨_, rfl⟩
  have following : Block.following l.head timestamp witness transactions = .ok b :=
    Block.following_eq_ok_iff.2 ⟨eq, by unfold maxWord; omega⟩
  have next : b.number.toNat = l.head.number.toNat + 1 := by
    have bound : l.head.number.toNat + 1 < 2 ^ 64 := by omega
    rw [eq, UInt64.toNat_add]
    exact Nat.mod_eq_of_lt bound
  have applied := h.applyBlock_top valid (by rw [eq]) next
  have produced : l.produce timestamp witness transactions = .ok (.ok b, l.extend b) :=
    Checked.bind_eq_ok_iff.2 ⟨b, following, Checked.bind_eq_ok_iff.2 ⟨_, applied, rfl⟩⟩
  refine ⟨b, produced, by rw [eq], ?_⟩
  rw [Bool.eq_false_iff]
  intro stored
  have low := h.height_le b.faithful_id stored
  rw [b.number_id] at low
  omega

end ChainLedger

namespace Engine

/-- Nothing is taken from an empty journal. -/
theorem takeJournal_of_nil {σ : Type} {e : Engine σ} (nothing : e.journal = []) :
    e.takeJournal = ([], e) := by
  cases e
  cases nothing
  rfl

/-- An engine that has no peers, has put `n` blocks on top of the genesis block, and caches no other
blocks. -/
structure Alone (config : Config) (solidifyDepth : Nat) (clock : Clock) (n : Nat)
    (e : Engine ChainLedger) : Prop where
  still : e.clock = clock
  calls : (ChainLedger.ofGenesis (.genesis 0) solidifyDepth config.sync.batch).Calls e.ledger
  height : e.ledger.headIndex = n
  valid : ∀ hash : Hash, e.ledger.invalid.contains hash = false
  time : ((Ledger.timestamp? e.ledger e.ledger.head).getD 0).toNat ≤ clock.wallTime + n
  unknown : ∀ id : PeerId, e.peers[id]? = none
  cached : ∀ entry ∈ e.blockCache.entries, e.ledger.blocks[entry.key]? = some entry.value
  candidates : e.candidates.isEmpty = true
  rests : e.applyDue = false
  taken : e.journal = []

variable {config : Config} {solidifyDepth n : Nat} {clock : Clock} {e : Engine ChainLedger}

/-- An engine is alone when it starts. -/
theorem alone_of_start
    (started : Engine.start config
      (ChainLedger.ofGenesis (.genesis 0) solidifyDepth config.sync.batch) clock = .ok e) :
    e.Alone config solidifyDepth clock 0 := by
  have unknown := peers_of_start started
  obtain ⟨slots, -, eq⟩ := Checked.bind_eq_ok_iff.1 started
  cases eq
  refine ⟨rfl, .refl, rfl, fun hash => Std.TreeSet.contains_emptyc, ?_, unknown, nofun, rfl, rfl,
    rfl⟩
  show UInt64.toNat ((Ledger.timestamp? (ChainLedger.ofGenesis (.genesis 0) _ _)
    (ChainLedger.head _)).getD 0) ≤ _
  rw [ChainLedger.timestamp?_head_ofGenesis]
  exact Nat.zero_le _

namespace Alone

/-- The ledger of an engine that is alone is linear. -/
theorem linear (h : e.Alone config solidifyDepth clock n) : e.ledger.Linear :=
  ((ChainLedger.Linear.ofGenesis rfl _ _).grows_calls h.calls).linear

/-- **A block is produced.**  The engine is alone with one more block, if no height and no date
overflows. -/
theorem produce (h : e.Alone config solidifyDepth clock n)
    (small : clock.wallTime + n + 1 < wordBound) (id : PeerId) (transactions : List Transaction) :
    ∃ b e', Node.produce ⟨id, e⟩ transactions = .ok (.ok b, ⟨id, e'⟩) ∧
      e'.Alone config solidifyDepth clock (n + 1) := by
  have time := h.time
  have height := h.height
  obtain ⟨headTime, date⟩ : ∃ headTime,
      (Ledger.timestamp? e.ledger e.ledger.head).getD 0 = headTime := ⟨_, rfl⟩
  rw [date] at time
  have dated : Node.nextTimestamp ⟨id, e⟩ =
      .ok (max clock.wallTime (headTime.toNat + 1)).toUInt64 := by
    unfold Node.nextTimestamp
    refine Checked.bind_eq_ok_iff.2 ⟨headTime.toNat + 1, ?_, by rw [← h.still]; rfl⟩
    show Checked.add ((Ledger.timestamp? e.ledger e.ledger.head).getD 0).toNat 1 = _
    rw [date]
    exact Checked.add_eq_ok_iff.2 ⟨rfl, by omega⟩
  obtain ⟨b, produced, timestamp, fresh⟩ := h.linear.produce_eq h.valid (by omega)
    (max clock.wallTime (headTime.toNat + 1)).toUInt64 id.value transactions
  have call : e.ledger.Call (e.ledger.extend b) := .produce produced
  refine ⟨b, broadcastBlock { e with ledger := e.ledger.extend b } b, ?_, h.still,
    h.calls.tail call, ?_, h.valid, ?_, h.unknown, fun entry mem => ?_, h.candidates, h.rests,
    h.taken⟩
  · exact Checked.bind_eq_ok_iff.2 ⟨_, dated, Checked.bind_eq_ok_iff.2 ⟨_, produced, rfl⟩⟩
  · show (e.ledger.extend b).headIndex = _
    rw [ChainLedger.headIndex_extend, h.height]
  · show (Option.getD (Ledger.timestamp? (e.ledger.extend b) (e.ledger.extend b).head) 0).toNat ≤ _
    rw [ChainLedger.timestamp?_head_extend, Option.getD_some, timestamp]
    have exact : (max clock.wallTime (headTime.toNat + 1)).toUInt64.toNat ≤
        max clock.wallTime (headTime.toNat + 1) := Nat.mod_le ..
    omega
  · rcases AgingCache.mem_entries_insert mem with rfl | old
    · exact Std.TreeMap.getElem?_insert_self
    · -- the new block displaces no other one
      show (e.ledger.blocks.insert b.id.hash b)[entry.key]? = _
      rw [Std.TreeMap.getElem?_insert, if_neg, h.cached entry old]
      intro same
      rw [Std.LawfulEqCmp.eq_of_compare same, Std.TreeMap.contains_eq_isSome_getElem?,
        h.cached entry old] at fresh
      cases fresh

/-- **A turn at the chores.**  An engine that is alone says nothing and stays alone; what it has to
announce is forgotten. -/
theorem chores (h : e.Alone config solidifyDepth clock n) (id : PeerId) :
    ∃ e', Plays id StepNetwork.chores [] e e' ∧ e'.Alone config solidifyDepth clock n := by
  have nobody {P : Peer → Prop} (other : PeerId) (p : Peer) (hp : e.peers[other]? = some p) :
      P p := by
    cases (h.unknown other).symm.trans hp
  obtain ⟨peers, issueDue, plays, same⟩ :=
    plays_chores_of_rests id nobody h.candidates nobody h.rests
  exact ⟨_, plays, h.still, h.calls, h.height, h.valid, h.time,
    fun other => (same other).trans (h.unknown other), h.cached, h.candidates, h.rests, rfl⟩

/-- **The side that is ahead.**  A peer that is not higher is registered, nothing is said to it, and
it may be served. -/
theorem leads (h : e.Alone config solidifyDepth clock n) (id : PeerId) {height : UInt64}
    (low : height.toNat ≤ n) :
    (e.register id height).takeJournal.2.Leads e.ledger id ∧
      (e.openSession id).Utters id [] (e.register id height) ∧
        ∃ p, (e.register id height).peers[id]? = some p ∧ p.phase = .caughtUp := by
  have head : e.ledger.head.number.toNat = n := h.linear.head_height.trans h.height
  have registered : e.register id height =
      (e.openSession id).modifyPeer id fun p => { p with phase := .caughtUp } := by
    unfold register
    rw [remove_of_unknown (h.unknown id), if_neg]
    show ¬ e.ledger.head.number < height
    rw [UInt64.lt_iff_toNat_lt]
    omega
  have peers (other : PeerId) : (e.register id height).peers[other]? = if other = id then
      some { Peer.connected e.genesis e.now with phase := .caughtUp } else none := by
    rw [registered, peers_modifyPeer, peers_openSession, h.unknown]
    split <;> rfl
  refine ⟨⟨?_, ⟨_, (peers id).trans (if_pos rfl)⟩, fun other q hq => ?_, ?_, ?_, ?_⟩, ?_, _,
    (peers id).trans (if_pos rfl), rfl⟩
  · rw [registered]
    rfl
  · rw [show (e.register id height).takeJournal.2.peers = (e.register id height).peers from rfl,
      peers] at hq
    split at hq
    · cases hq
      exact ⟨‹_›, rfl⟩
    · cases hq
  · rw [registered]
    exact h.cached
  · rw [registered]
    exact h.candidates
  · rw [registered]
    exact h.rests
  · rw [registered]
    exact .silent rfl

end Alone

/-! ## A newcomer -/

/-- An engine that has just started stays as it is in a turn at its chores. -/
theorem plays_chores_of_start
    (started : Engine.start config
      (ChainLedger.ofGenesis (.genesis 0) solidifyDepth config.sync.batch) clock = .ok e)
    (id : PeerId) : Plays id StepNetwork.chores [] e e := by
  obtain ⟨slots, -, eq⟩ := Checked.bind_eq_ok_iff.1 started
  cases eq
  exact .silent rfl rfl (.silent rfl rfl (.silent rfl rfl (.silent rfl rfl .nil)))

section Newcomer

variable {c : ChainLedger}
  (started : Engine.start config
    (ChainLedger.ofGenesis (.genesis 0) solidifyDepth config.sync.batch) clock = .ok e)
  (calls : (ChainLedger.ofGenesis (.genesis 0) solidifyDepth config.sync.batch).Calls c)
  (ample : config.Ample clock.wall c.headIndex)

include started calls ample

/-- An engine that has just started has the first block of a chain, and nothing else of it. -/
theorem steady_of_start (id : PeerId) : e.Steady c id 0 0 := by
  have batch : c.batch = max config.sync.batch 1 := (ChainLedger.fixed_calls calls).2
  have small := ample.small
  have few := ample.batch
  obtain ⟨slots, -, eq⟩ := Checked.bind_eq_ok_iff.1 started
  cases eq
  refine ⟨ChainLedger.whole_of_calls rfl calls, ample, ?_,
    ample.requests.trans (Nat.le_max_left ..), ChainLedger.within_of_calls rfl calls,
    fun hash => Std.TreeSet.contains_emptyc, rfl, rfl, ?_, fun w => ?_, fun hash w found => ?_⟩
  · unfold wordBound
    omega
  · show [] = ((c.segment 0 0).map _).reverse
    rw [ChainLedger.segment_self]
    rfl
  · constructor
    · rintro (mem | ⟨hash, found⟩)
      · cases mem
      · cases Std.TreeMap.getElem?_emptyc.symm.trans found
    · rintro ⟨-, -, above, le⟩
      exact absurd le (Nat.not_le.2 above)
  · cases Std.TreeMap.getElem?_emptyc.symm.trans found

/-- The catch-up of an engine that has just started begins at the genesis block. -/
theorem chases_of_start (id : PeerId) :
    ((e.openSession id).restart id).Chases c id
      ((Peer.connected e.genesis e.now).restart e.genesis) 0 0 0 := by
  have steady := steady_of_start started calls ample id
  have whole := steady.whole
  have within := ChainLedger.within_of_calls rfl calls
  have peers (other : PeerId) : ((e.openSession id).restart id).peers[other]? = if other = id then
      some ((Peer.connected e.genesis e.now).restart e.genesis) else none := by
    unfold restart
    rw [peers_modifyPeer, peers_openSession, peers_of_start started]
    split <;> rfl
  have only (other : PeerId) (q : Peer)
      (hq : ((e.openSession id).restart id).peers[other]? = some q) : other = id := by
    by_contra ne
    rw [peers, if_neg ne] at hq
    cases hq
  obtain ⟨slots, -, eq⟩ := Checked.bind_eq_ok_iff.1 started
  cases eq
  refine ⟨⟨within.linear, whole.within.linear, within.below, Nat.le_refl 0, Nat.zero_le _,
    (ChainLedger.segment_self ..).symm, .inl (BlockId.same_iff.2 rfl),
    fun other q hq ne => absurd (only other q hq) ne, nofun⟩,
    steady.congr (by constructor <;> rfl), (peers id).trans (if_pos rfl), only, rfl,
    fun hash => Std.TreeMap.contains_emptyc, Nat.le_refl 0, Nat.le_refl 0, Nat.le_refl 0,
    fun _ => rfl, fun hash => ?_⟩
  rw [ChainLedger.segment_self, List.map_nil]
  constructor
  · intro asked
    cases Std.TreeMap.contains_emptyc.symm.trans asked
  · intro mem
    cases mem

/-- **The side that is behind.**  An engine that has just started registers a peer whose chain has
more than the genesis block, and asks for this chain from the genesis block on. -/
theorem trails_of_start (more : 0 < c.headIndex) (id : PeerId) :
    ∃ p s, (e.register id c.head.number).takeJournal.2.Trails c id p 0 0 0 ∧ p.summary = some s ∧
      (e.openSession id).Utters id [.summaryRequest s.ids] (e.register id c.head.number) ∧
        (e.register id c.head.number).takeJournal.2.Alert 0 := by
  have unknown := peers_of_start started
  have chases := chases_of_start started calls ample id
  have head : c.head.number.toNat = c.headIndex := chases.pursues.whole.head_height
  obtain ⟨slots, -, eq⟩ := Checked.bind_eq_ok_iff.1 started
  have registered : e.register id c.head.number =
      ((e.openSession id).restart id).nextSummary id := by
    have known : (e.openSession id).isRegistered id = true :=
      isRegistered_iff.2 ⟨_, (peers_openSession e id id).trans (if_pos rfl)⟩
    unfold register
    rw [remove_of_unknown (unknown id), if_pos]
    · exact if_pos known
    · rw [UInt64.lt_iff_toNat_lt, head]
      cases eq
      exact more
  obtain ⟨summary, sent, trails⟩ := chases.nextSummary rfl rfl (.inl more)
  rw [registered, sent]
  refine ⟨_, ⟨summary, e.now⟩, trails.takeJournal, rfl, .send rfl, ?_⟩
  rintro (above | suspended)
  · exact absurd above (Nat.not_lt_zero _)
  · cases eq
    cases suspended

end Newcomer

end Engine

namespace StepNetwork

variable {config : Config} {solidifyDepth n k i : Nat} {clock : Clock} {id other : PeerId}
  {e e' : Engine ChainLedger} {net : StepNetwork}

/-! ## Turns without links -/

/-- Events that begin no session and send nothing leave the links alone. -/
theorem foldl_follow_of_silent {events : List Event} (unopened : ∀ peer, Event.opened peer ∉ events)
    (unsent : events.filterMap Event.sent? = []) (links : Std.TreeMap Link (List Message)) :
    events.foldl (follow i) links = links := by
  induction events with
  | nil => rfl
  | cons ev rest ih =>
    cases ev with
    | opened peer => exact absurd (List.mem_cons_self ..) (unopened peer)
    | sent peer m => cases unsent
    | closed | appliedBlock | appliedTransaction | notified =>
      exact ih (fun peer mem => unopened peer (List.mem_cons_of_mem _ mem)) unsent

/-- An operation of a node that says nothing changes this node only. -/
theorem perform_of_silent (here : net.nodes[i]? = some ⟨id, e⟩) (taken : e.journal = [])
    {op : Operation} {answer : Outcome} (done : e.perform op = .ok (answer, e'))
    (utters : e.Utters other [] e') :
    net.perform i op = .ok (answer, net.place i ⟨id, e'.takeJournal.2⟩) := by
  obtain ⟨events, journal, unopened, unsent⟩ := utters
  rw [taken, List.nil_append] at journal
  have placed : net.setNode i ⟨id, e'⟩ = net.place i ⟨id, e'.takeJournal.2⟩ := by
    show { net with
      nodes := net.nodes.setIfInBounds i ⟨id, e'.takeJournal.2⟩
      links := e'.journal.foldl (follow i) net.links } = _
    rw [journal, foldl_follow_of_silent unopened unsent]
    rfl
  unfold StepNetwork.perform
  simp only [here, done]
  exact congrArg (fun net => Except.ok (answer, net)) placed

/-- Chores of a node that says nothing change this node only. -/
theorem chores_of_silent {ops : List Operation} {said : List Message} (silent : said = [])
    (here : net.nodes[i]? = some ⟨id, e⟩) (taken : e.journal = [])
    (plays : Engine.Plays other ops said e e') (work : Nat) :
    ∃ work', ops.foldlM (chore i) (work, net) = .ok (work', net.place i ⟨id, e'⟩) := by
  induction plays generalizing net work with
  | nil =>
    rw [place_self here]
    exact ⟨work, rfl⟩
  | @cons e e₁ _ op _ answer _ _ done utters _ ih =>
    obtain ⟨rfl, later⟩ := List.append_eq_nil_iff.1 silent
    have performed := perform_of_silent here taken done utters
    obtain ⟨n, first⟩ : ∃ n, chore i (work, net) op =
        .ok (n, net.place i ⟨id, e₁.takeJournal.2⟩) := by
      simp only [chore, performed]
      cases answer <;> exact ⟨_, rfl⟩
    obtain ⟨work', rest⟩ := ih later (getElem?_place_self here _) rfl n
    rw [place_place] at rest
    exact ⟨work', Checked.bind_eq_ok_iff.2 ⟨_, first, rest⟩⟩

/-- Where there is no node, there is nothing to do. -/
theorem chores_of_none (none : net.nodes[i]? = none) (ops : List Operation) (work : Nat) :
    ops.foldlM (chore i) (work, net) = .ok (work, net) := by
  induction ops with
  | nil => rfl
  | cons op rest ih =>
    refine Checked.bind_eq_ok_iff.2 ⟨(work, net), ?_, ih⟩
    simp only [chore, StepNetwork.perform, none]
    rfl

/-- A network without links in which a node is alone, and every other node stays as it is in its
chores. -/
structure Lonely (config : Config) (solidifyDepth : Nat) (clock : Clock) (k n : Nat) (id : PeerId)
    (e : Engine ChainLedger) (net : StepNetwork) : Prop where
  unlinked : net.links = ∅
  here : net.nodes[k]? = some ⟨id, e⟩
  alone : e.Alone config solidifyDepth clock n
  others : ∀ (i : Nat) (node : Node), k ≠ i → net.nodes[i]? = some node →
    node.engine.journal = [] ∧
      Engine.Plays node.id StepNetwork.chores [] node.engine node.engine

namespace Lonely

/-- The node that is alone may change. -/
theorem place {m : Nat} (h : Lonely config solidifyDepth clock k n id e net)
    (alone : e'.Alone config solidifyDepth clock m) :
    Lonely config solidifyDepth clock k m id e' (net.place k ⟨id, e'⟩) := by
  refine ⟨h.unlinked, getElem?_place_self h.here _, alone, fun i node ne found => ?_⟩
  rw [getElem?_place_ne ne] at found
  exact h.others i node ne found

/-- The turn of one node. -/
theorem turn (h : Lonely config solidifyDepth clock k n id e net) (i work : Nat) :
    ∃ work' e', chores.foldlM (chore i) (work, net) = .ok (work', net.place k ⟨id, e'⟩) ∧
      Lonely config solidifyDepth clock k n id e' (net.place k ⟨id, e'⟩) := by
  by_cases at_node : k = i
  · subst at_node
    obtain ⟨e', plays, alone⟩ := h.alone.chores id
    obtain ⟨work', done⟩ := chores_of_silent rfl h.here h.alone.taken plays work
    exact ⟨work', e', done, h.place alone⟩
  · -- another node, or none
    obtain ⟨work', idle⟩ : ∃ work', chores.foldlM (chore i) (work, net) = .ok (work', net) := by
      cases found : net.nodes[i]? with
      | none => exact ⟨work, chores_of_none found chores work⟩
      | some node =>
        obtain ⟨taken, plays⟩ := h.others i node at_node found
        obtain ⟨work', done⟩ := chores_of_silent rfl found taken plays work
        rw [place_self found] at done
        exact ⟨work', done⟩
    refine ⟨work', e, ?_, ?_⟩ <;> rw [place_self h.here]
    · exact idle
    · exact h

/-- The turns of several nodes, one after the other. -/
theorem turns (h : Lonely config solidifyDepth clock k n id e net) (positions : List Nat)
    (work : Nat) :
    ∃ work' e', positions.foldlM (fun acc i => chores.foldlM (chore i) acc) (work, net) =
        .ok (work', net.place k ⟨id, e'⟩) ∧
      Lonely config solidifyDepth clock k n id e' (net.place k ⟨id, e'⟩) := by
  induction positions generalizing net e work with
  | nil =>
    refine ⟨work, e, ?_, ?_⟩ <;> rw [place_self h.here]
    · rfl
    · exact h
  | cons i rest ih =>
    obtain ⟨work₁, e₁, first, h₁⟩ := h.turn i work
    obtain ⟨work', e', later, h'⟩ := ih h₁ work₁
    rw [place_place] at later h'
    exact ⟨work', e', Checked.bind_eq_ok_iff.2 ⟨_, first, later⟩, h'⟩

/-- Without links, a step is a turn of every node. -/
theorem step (h : Lonely config solidifyDepth clock k n id e net) :
    ∃ e', act k net .step = .ok (net.place k ⟨id, e'⟩) ∧
      Lonely config solidifyDepth clock k n id e' (net.place k ⟨id, e'⟩) := by
  obtain ⟨work, e', done, h'⟩ := h.turns (List.range net.nodes.size) 0
  have nothing : net.links.keys = [] := by
    rw [h.unlinked]
    rfl
  have stepped : net.step = .ok (work, net.place k ⟨id, e'⟩) := by
    unfold StepNetwork.step
    rw [nothing]
    exact Checked.bind_eq_ok_iff.2 ⟨(0, net), rfl, done⟩
  exact ⟨e', Checked.bind_eq_ok_iff.2 ⟨_, stepped, rfl⟩, h'⟩

/-- The node produces a block. -/
theorem produce (h : Lonely config solidifyDepth clock k n id e net)
    (small : clock.wallTime + n + 1 < wordBound) (transactions : List Transaction) :
    ∃ e', act k net (.produce transactions) = .ok (net.place k ⟨id, e'⟩) ∧
      Lonely config solidifyDepth clock k (n + 1) id e' (net.place k ⟨id, e'⟩) := by
  obtain ⟨b, e', produced, alone⟩ := h.alone.produce small id transactions
  refine ⟨e', ?_, h.place alone⟩
  unfold act
  simp only [h.here, produced]
  exact congrArg Except.ok (setNode_of_taken alone.taken)

end Lonely

/-! ## A producer without links -/

/-- Whether a block is produced. -/
def Act.isProduce : Act → Bool
  | .produce _ => true
  | _ => false

/-- Whether nothing happens but that a block is produced, or that the network makes a step. -/
def Act.isSolitary : Act → Bool
  | .produce _ | .step => true
  | _ => false

/-- **Producing blocks.**  A node that is alone produces as many blocks as it is told to, while the
network makes any steps in between; the other nodes and the links stay as they are. -/
theorem Lonely.produces (h : Lonely config solidifyDepth clock k n id e net) (acts : List Act)
    (solitary : ∀ a ∈ acts, a.isSolitary = true)
    (small : clock.wallTime + n + acts.countP Act.isProduce < wordBound) :
    ∃ e', acts.foldlM (act k) net = .ok (net.place k ⟨id, e'⟩) ∧
      e'.Alone config solidifyDepth clock (n + acts.countP Act.isProduce) := by
  induction acts generalizing net e n with
  | nil =>
    refine ⟨e, ?_, h.alone⟩
    rw [place_self h.here]
    rfl
  | cons a rest ih =>
    obtain ⟨here, later⟩ := List.forall_mem_cons.1 solitary
    obtain ⟨m, count, e₁, first, h₁⟩ : ∃ m, n + (a :: rest).countP Act.isProduce =
        m + rest.countP Act.isProduce ∧ ∃ e₁, act k net a = .ok (net.place k ⟨id, e₁⟩) ∧
          Lonely config solidifyDepth clock k m id e₁ (net.place k ⟨id, e₁⟩) := by
      cases a with
      | produce transactions =>
        rw [List.countP_cons_of_pos rfl] at small ⊢
        exact ⟨n + 1, by omega, h.produce (by omega) transactions⟩
      | step => exact ⟨n, by rw [List.countP_cons_of_neg Bool.false_ne_true], h.step⟩
      | addNode | connect | submit | forbid | disconnect | advanceClock => cases here
    rw [count]
    obtain ⟨e', done, alone⟩ := ih h₁ later (by omega)
    rw [place_place] at done
    exact ⟨e', Checked.bind_eq_ok_iff.2 ⟨_, first, done⟩, alone⟩

/-- A network of one node has an engine that has just started. -/
theorem start_eq_ok (started : start config solidifyDepth 1 clock = .ok net) :
    ∃ e, Engine.start config (ChainLedger.ofGenesis (.genesis 0) solidifyDepth config.sync.batch)
        clock = .ok e ∧
      net = { config, solidifyDepth, clock, nodes := #[⟨Node.peerAt 0, e⟩] } := by
  obtain ⟨⟨_, _⟩, added, done⟩ := Checked.bind_eq_ok_iff.1 started
  cases done
  obtain ⟨_, launched, done⟩ := Checked.bind_eq_ok_iff.1 added
  cases done
  obtain ⟨e, begun, done⟩ := Checked.bind_eq_ok_iff.1 launched
  cases done
  exact ⟨e, begun, rfl⟩

/-- **A producer and a newcomer.**  The first node produces blocks, and the network makes steps,
before and after the second node is added.  The second one is as it started. -/
theorem produces_late (early late : List Act) (solitary : ∀ a ∈ early ++ late, a.isSolitary = true)
    (started : start config solidifyDepth 1 clock = .ok net)
    (small : clock.wallTime + (early ++ late).countP Act.isProduce < wordBound) :
    ∃ e f, Engine.start config (ChainLedger.ofGenesis (.genesis 0) solidifyDepth config.sync.batch)
        clock = .ok e ∧
      f.Alone config solidifyDepth clock ((early ++ late).countP Act.isProduce) ∧
      (early ++ Act.addNode :: late).foldlM (act 0) net =
        .ok { config, solidifyDepth, clock,
              nodes := #[⟨Node.peerAt 0, f⟩, ⟨Node.peerAt 1, e⟩] } := by
  obtain ⟨e, begun, rfl⟩ := start_eq_ok started
  obtain ⟨before, after⟩ := List.forall_mem_append.1 solitary
  rw [List.countP_append] at small ⊢
  have single : Lonely config solidifyDepth clock 0 0 (Node.peerAt 0) e
      { config, solidifyDepth, clock, nodes := #[⟨Node.peerAt 0, e⟩] } := by
    refine ⟨rfl, rfl, Engine.alone_of_start begun, fun i node ne found => ?_⟩
    obtain ⟨i, rfl⟩ := Nat.exists_eq_succ_of_ne_zero ne.symm
    cases found
  obtain ⟨f₁, first, alone₁⟩ := single.produces early before (by omega)
  rw [Nat.zero_add] at alone₁
  have double : Lonely config solidifyDepth clock 0 (early.countP Act.isProduce) (Node.peerAt 0) f₁
      { config, solidifyDepth, clock,
        nodes := #[⟨Node.peerAt 0, f₁⟩, ⟨Node.peerAt 1, e⟩] } := by
    refine ⟨rfl, rfl, alone₁, fun i node ne found => ?_⟩
    match i with
    | 0 => exact absurd rfl ne
    | 1 =>
      cases found
      exact ⟨(Engine.alone_of_start begun).taken, Engine.plays_chores_of_start begun _⟩
    | i + 2 => cases found
  obtain ⟨f, last, alone⟩ := double.produces late after (by omega)
  have node : Node.start (Node.peerAt 1) config (.genesis 0) solidifyDepth clock =
      .ok ⟨Node.peerAt 1, e⟩ := Checked.bind_eq_ok_iff.2 ⟨e, begun, rfl⟩
  have added : act 0 { config, solidifyDepth, clock, nodes := #[⟨Node.peerAt 0, f₁⟩] } .addNode =
      .ok { config, solidifyDepth, clock, nodes := #[⟨Node.peerAt 0, f₁⟩, ⟨Node.peerAt 1, e⟩] } :=
    Checked.bind_eq_ok_iff.2 ⟨_, Checked.bind_eq_ok_iff.2 ⟨_, node, rfl⟩, rfl⟩
  refine ⟨e, f, begun, alone, ?_⟩
  rw [List.foldlM_append]
  exact Checked.bind_eq_ok_iff.2 ⟨_, first, Checked.bind_eq_ok_iff.2 ⟨_, added, last⟩⟩

end StepNetwork

end BlockRelay
