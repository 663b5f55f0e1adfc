/-
# Markers of what both sides have

The marker `Peer.bothHave` of a peer is where the next summary for the peer starts, and no summary
can be made for a marker that is not on the main chain.  The marker is set when a session or a
catch-up begins, when a reply is joined, when a request is served, and when a block is accepted; so
it is the genesis block, or a block that is stored, recent, or handed out (`Step.marker`).

All of these are known, which is an invariant of the engine together with its ledger, its cache and
its recent blocks (`Engine.Marked`).  A known block is on the main chain at its own height, and
therefore each marker can be used at any time (`Run.usable`).
-/
import BlockRelay.Proofs.Outruns
import BlockRelay.Proofs.Prefixes
import BlockRelay.Proofs.Records

namespace BlockRelay

/-! ## Joining a reply -/

section

variable {K : BlockId → Prop}

/-- Skipping recent blocks ends at one of them. -/
theorem of_skipRecent {recent : RecentBlocks} {bothHave : BlockId} {ids : List BlockId}
    (old : K bothHave) (known : ∀ id ∈ ids, recent.contains id = true → K id) :
    K (skipRecent recent bothHave ids).1 := by
  fun_induction skipRecent recent bothHave ids with
  | case1 => exact old
  | case2 bothHave id rest found ih =>
    exact ih (known id (List.mem_cons_self ..) found) fun b mem =>
      known b (List.mem_cons_of_mem _ mem)
  | case3 => exact old

/-- Skipping stored blocks ends at one of them. -/
theorem of_skipStored {bothHave : BlockId} {ids : List (BlockId × Bool)} (old : K bothHave)
    (known : ∀ b ∈ ids, b.2 = true → K b.1) : K (skipStored bothHave ids).1 := by
  fun_induction skipStored bothHave ids with
  | case1 bothHave id rest ih =>
    exact ih (known _ (List.mem_cons_self ..) rfl) fun b mem =>
      known b (List.mem_cons_of_mem _ mem)
  | case2 => exact old

namespace Peer

/-- Joining a reply marks a stored block of it, or leaves the marker alone. -/
theorem bothHave_joinReply {p : Peer} {ids : List (BlockId × Bool)} (elsewhere : Bool)
    (old : K p.bothHave) (known : ∀ b ∈ ids, b.2 = true → K b.1) :
    K (p.joinReply ids elsewhere).bothHave := by
  unfold joinReply
  split
  next =>
    cases elsewhere with
    | true => exact old
    | false => exact of_skipStored old known
  next => exact old
  next first stored rest _ =>
    show K (p.cutBehind first stored).bothHave
    unfold cutBehind
    dsimp only
    split
    next cut =>
      rw [Bool.and_eq_true] at cut
      exact known (first, stored) (List.mem_cons_self ..) cut.2
    next => exact old

/-- Going on with a catch-up marks a stored block of the reply, or a recent block, or leaves the
marker alone. -/
theorem bothHave_continueCatchUp {p : Peer} {ids : List (BlockId × Bool)} (remaining : UInt64)
    (elsewhere : Bool) {recent : RecentBlocks} (old : K p.bothHave)
    (known : ∀ b ∈ ids, b.2 = true → K b.1)
    (accepted : ∀ b ∈ (p.joinReply ids elsewhere).toFetch, recent.contains b = true → K b) :
    K (p.continueCatchUp ids remaining elsewhere recent).bothHave :=
  of_skipRecent (bothHave_joinReply elsewhere old known) accepted

end Peer

end

namespace Engine

variable {e e' : Engine ChainLedger}

/-! ## Known blocks -/

/-- A known block stays known when the ledger grows. -/
theorem Knows.mono {id : BlockId} (h : e.Knows id) (grows : e.ledger.Grows e'.ledger) :
    e'.Knows id := ⟨h.1, grows.stored _ h.2⟩

/-- A known block is on the main chain at its own height. -/
theorem Knows.onMain {id : BlockId} (h : e.Knows id) (linear : e.ledger.Linear) :
    e.ledger.onMain id = true := linear.onMain_of_stored h.1 h.2

/-- What the markers rely on: blocks are stored under their own hashes, and the genesis block, the
recent blocks, the cached ones and the marked ones are known. -/
structure Marked (e : Engine ChainLedger) : Prop where
  filed : e.ledger.Filed
  genesis : e.Knows e.genesis
  recent : ∀ id ∈ e.recent.ids, e.Knows id
  cached : ∀ entry ∈ e.blockCache.entries, e.Stores entry.value.id
  marker : ∀ (id : PeerId) (p : Peer), e.peers[id]? = some p → e.Knows p.bothHave

/-- A block that is handed out is known. -/
theorem Marked.knows_of_hands (h : e.Marked) {b : Block} (hands : e.Hands b) : e.Knows b.id := by
  refine ⟨b.faithful_id, ?_⟩
  rcases hands with ⟨entry, mem, rfl⟩ | ⟨hash, found⟩
  · exact h.cached entry mem
  · have found : e.ledger.blocks[hash]? = some b := found
    rw [Stores, h.filed hash b found]
    exact contains_iff_exists.2 ⟨b, found⟩

/-! ## How markers are set -/

/-- When a reply is joined, a known block is marked. -/
theorem knows_of_joined {id : PeerId} {ids : List BlockId} {p' : Peer}
    (s : Step (.joined id ids) e e') (sound : e.Sound)
    (before : ∀ p, e.peers[id]? = some p → e.Knows p.bothHave) (hp' : e'.peers[id]? = some p') :
    e.Knows p'.bothHave := by
  cases s with
  | @takeUp _ _ _ p s _ remaining elsewhere enough hp _ legal done =>
    have eq : p' = { p with summary := none }.continueCatchUp
        (ids.map fun b => (b, Ledger.containsBlock e.ledger b)) remaining elsewhere e.recent := by
      rw [peers_takeUp done, Std.TreeMap.getElem?_insert_self] at hp'
      exact (Option.some.inj hp').symm
    have stretch : Consecutive ids := (ChainFacts.of_judge legal).1
    have queue : Consecutive p.toFetch := sound.queues id p.plan (planOf_eq hp)
    have joined : Consecutive (({ p with summary := none } : Peer).joinReply
        (ids.map fun b => (b, Ledger.containsBlock e.ledger b)) elsewhere).toFetch :=
      Peer.consecutive_joinReply elsewhere queue (by simpa [Function.comp_def] using stretch)
    rw [eq]
    refine Peer.bothHave_continueCatchUp (K := e.Knows) remaining elsewhere (before p hp) ?_ ?_
    · intro b mem stored
      obtain ⟨id, named, rfl⟩ := List.mem_map.1 mem
      exact ⟨stretch.faithful id named, stored⟩
    · exact fun b mem recent => ⟨joined.faithful b mem, sound.stores_of_contains recent⟩

/-- A block that is delivered is marked only if it is stored. -/
theorem marker_of_tookBlock {id other : PeerId} {b : Block} {p' : Peer}
    (s : Step (.tookBlock id b) e e') (hp' : e'.peers[other]? = some p') :
    (∃ p, e.peers[other]? = some p ∧ p.bothHave = p'.bothHave) ∨
      p'.bothHave = b.id ∧ e'.Stores b.id := by
  -- taking the delivery leaves all markers alone
  have kept {p q : Peer} (hp : e.peers[id]? = some p)
      (hq : (e.peers.insert id (p.takeDelivery b.id))[other]? = some q) :
      ∃ p, e.peers[other]? = some p ∧ p.bothHave = q.bothHave := by
    rw [Std.TreeMap.getElem?_insert] at hq
    split at hq
    next same =>
      rw [Std.LawfulEqCmp.compare_eq_iff_eq] at same
      subst same
      cases hq
      exact ⟨p, hp, rfl⟩
    next => exact ⟨q, hq, rfl⟩
  cases s with
  | arrive hp => exact .inl (kept hp hp')
  | submitAnnounced hp _ _ done =>
    rcases submitAnnounced_cases done with ⟨-, -, rfl⟩ | ⟨result, ledger, applied, result_eq⟩
    · exact .inl (kept hp hp')
    cases result with
    | error =>
      obtain ⟨-, quarantine, rfl⟩ := result_eq
      exact .inl (kept hp hp')
    | ok transactions =>
      obtain ⟨-, rfl⟩ := result_eq
      -- every peer that announced the block is marked with it
      simp only [settleAnnounced, broadcastBlock, mapPeers, record, Std.TreeMap.getElem?_map,
        Option.map_eq_some_iff] at hp'
      obtain ⟨q, hq, rfl⟩ := hp'
      split
      · exact .inr ⟨rfl, ChainLedger.contains_of_applyBlock applied⟩
      · exact .inl (kept hp hq)

/-- When the block that is next in line is settled, it is marked, and it is known. -/
theorem marker_of_settled {id : PeerId} {p' : Peer} (s : Step .settled e e') (sound : e.Sound)
    (hp' : e'.peers[id]? = some p') :
    (∃ p, e.peers[id]? = some p ∧ p.bothHave = p'.bothHave) ∨ e'.Knows p'.bothHave := by
  cases s with
  | @settle _ _ hash w hw next done =>
    have stored : e'.Stores w.block.id := sound.stores_of_settled done
    rw [revised_submitFetched done] at hp'
    obtain ⟨p, hp, rfl⟩ := Option.map_eq_some_iff.1 hp'
    obtain ⟨_, _, -, taken⟩ := takeFront_eq hash p
    rw [if_pos rfl, settlePeer]
    split
    · exact .inl ⟨p, hp, by rw [taken]⟩
    · split
      · exact .inr ⟨w.block.faithful_id, stored⟩
      · exact .inl ⟨p, hp, by rw [taken]⟩

/-- **How a marker is set.**  After a step every registered peer is marked with a known block. -/
theorem Step.marker {d : Deed} (s : Step d e e') (sound : e.Sound) (h : e.Marked) {id : PeerId}
    {p' : Peer} (hp' : e'.peers[id]? = some p') : e'.Knows p'.bothHave := by
  have grows := s.learns.ledger sound.linear
  rcases s.revised id p' hp' with ⟨-, rfl⟩ | ⟨p, hp, r⟩
  · exact h.genesis.mono grows
  have before := h.marker id p hp
  cases r with
  | restarted => exact h.genesis.mono grows
  | joined => exact (knows_of_joined s sound (h.marker id) hp').mono grows
  | @served _ last handed =>
    cases last with
    | none => exact before.mono grows
    | some b =>
      obtain ⟨block, hands, rfl⟩ := handed b rfl
      exact (h.knows_of_hands hands).mono grows
  | accepted | tookBlock =>
    rcases marker_of_tookBlock s hp' with ⟨q, hq, same⟩ | ⟨eq, stored⟩
    · exact same ▸ (h.marker id q hq).mono grows
    · rw [eq]
      exact ⟨Block.faithful_id _, stored⟩
  | settled =>
    rcases marker_of_settled s sound hp' with ⟨q, hq, same⟩ | known
    · exact same ▸ (h.marker id q hq).mono grows
    · exact known
  | announced p items =>
    rw [Peer.announceAll_eq]
    exact before.mono grows
  | requested p batch =>
    rw [Peer.requestBlocks_eq]
    exact before.mono grows
  | refused p hash =>
    obtain ⟨_, _, -, taken⟩ := takeFront_eq hash p
    rw [taken]
    exact before.mono grows
  | same | welcomed | summarized | answered | finished | noted | reserved | tookTransaction
  | forgot => exact before.mono grows

/-! ## Marked engines -/

namespace Marked

/-- An engine that starts over a ledger which grew from its genesis block is marked. -/
theorem start {config : Config} {clock : Clock} {genesis : Block} {solidifyDepth batch : Nat}
    {ledger : ChainLedger} (zero : genesis.number = 0)
    (calls : (ChainLedger.ofGenesis genesis solidifyDepth batch).Calls ledger)
    (started : Engine.start config ledger clock = .ok e) : e.Marked := by
  have grows := (ChainLedger.Linear.ofGenesis zero solidifyDepth batch).grows_calls calls
  have stored : ledger.blocks.contains genesis.id.hash = true :=
    grows.stored _ Std.TreeMap.contains_insert_self
  have unknown := peers_of_start started
  obtain ⟨_, -, eq⟩ := Checked.bind_eq_ok_iff.1 started
  cases eq
  refine ⟨(ChainLedger.Filed.ofGenesis genesis solidifyDepth batch).calls calls,
    ⟨Block.faithful_id _, ?_⟩, nofun, nofun, fun id p hp => nomatch (unknown id).symm.trans hp⟩
  show ledger.blocks.contains ledger.genesis.id.hash = true
  rw [(ChainLedger.fixed_calls calls).1]
  exact stored

/-- Calls by other hands leave an engine marked. -/
theorem meddle (h : e.Marked) (linear : e.ledger.Linear) {ledger : ChainLedger}
    (calls : e.ledger.Calls ledger) : ({ e with ledger } : Engine ChainLedger).Marked := by
  have grows := linear.grows_calls calls
  exact ⟨h.filed.calls calls, h.genesis.mono grows, fun id mem => (h.recent id mem).mono grows,
    fun entry mem => grows.stored _ (h.cached entry mem),
    fun id p hp => (h.marker id p hp).mono grows⟩

/-- Every step leaves an engine marked, if no block is queued for announcement but a stored
one. -/
theorem step {d : Deed} (s : Step d e e') (sound : e.Sound)
    (held : ∀ b, d = .queued (.block b) → e.Stores b.id) (h : e.Marked) : e'.Marked := by
  have learned := s.learns
  have grows := learned.ledger sound.linear
  refine ⟨h.filed.calls learned.calls, ?_, fun id mem => ?_, fun entry mem => ?_,
    fun id p' hp' => s.marker sound h hp'⟩
  · rw [learned.genesis]
    exact h.genesis.mono grows
  · rcases learned.recent id mem with old | known | ⟨b, queued, rfl⟩
    · exact (h.recent id old).mono grows
    · exact known
    · exact ⟨b.faithful_id, grows.stored _ (held b queued)⟩
  · rcases learned.cached entry mem with old | stored | queued
    · exact grows.stored _ (h.cached entry old)
    · exact stored
    · exact grows.stored _ (held entry.value queued)

/-- Every course leaves an engine marked. -/
theorem course {allowed : Deed → Prop} (c : Course allowed e e') (sound : e.Sound)
    (held : ∀ b, allowed (.queued (.block b)) → e.Stores b.id) (h : e.Marked) : e'.Marked := by
  induction c with
  | refl => exact h
  | tail first last ih =>
    obtain ⟨d, allows, last⟩ := last
    obtain ⟨here, grows⟩ := sound.course first held
    exact ih.step last here fun b queued => grows.stored _ (held b (queued ▸ allows))

end Marked

/-- Local runs are marked. -/
theorem Run.marked {config : Config} {clock : Clock} {genesis : Block} {solidifyDepth batch : Nat}
    {ledger : ChainLedger} {start : Engine ChainLedger} {past : List (Moment ChainLedger)}
    (run : Run start past e) (zero : genesis.number = 0)
    (calls : (ChainLedger.ofGenesis genesis solidifyDepth batch).Calls ledger)
    (started : Engine.start config ledger clock = .ok start) (loc : ∀ m ∈ past, m.Local) :
    e.Sound ∧ e.Marked := by
  have linear := ((ChainLedger.Linear.ofGenesis zero solidifyDepth batch).grows_calls calls).linear
  refine ⟨run.sound started linear loc, ?_⟩
  induction run with
  | start => exact .start zero calls started
  | meddle ledger before ih =>
    obtain ⟨here, earlier⟩ := List.forall_mem_cons.1 loc
    exact (ih earlier).meddle (before.sound started linear earlier).linear here
  | perform before done ih =>
    obtain ⟨here, earlier⟩ := List.forall_mem_cons.1 loc
    exact (ih earlier).course (course_perform done) (before.sound started linear earlier)
      (held_of_local here)

/-! ## Using a marker -/

/-- Whether recent blocks and markers are on the main chain at their own heights, so that a summary
can be made for every peer, whatever is pending, and the next summary ends no session. -/
structure Usable (e : Engine ChainLedger) : Prop where
  recent : ∀ id ∈ e.recent.ids, e.ledger.onMain id = true
  marker : ∀ (id : PeerId) (p : Peer), e.peers[id]? = some p → e.ledger.onMain p.bothHave = true
  sample : ∀ (id : PeerId) (p : Peer), e.peers[id]? = some p → ∀ pending : List BlockId,
    ∃ ids, e.ledger.sampleChain p.bothHave pending = .ok ids
  stays : ∀ id other : PeerId, (e.nextSummary id).isRegistered other = e.isRegistered other

/-- A block of the main chain can be used to make a summary. -/
theorem exists_sampleChain {l : ChainLedger} {shared : BlockId} (on : l.onMain shared = true)
    (pending : List BlockId) : ∃ ids, l.sampleChain shared pending = .ok ids := by
  unfold ChainLedger.sampleChain
  dsimp only
  rw [if_pos on]
  split <;> exact ⟨_, rfl⟩

/-- The next summary ends no session if a summary can be made. -/
theorem isRegistered_nextSummary {id : PeerId}
    (sample : ∀ p, e.peers[id]? = some p → ∃ ids,
      Ledger.sampleChain e.ledger p.bothHave p.toFetch = .ok ids) (other : PeerId) :
    (e.nextSummary id).isRegistered other = e.isRegistered other := by
  unfold nextSummary
  split
  next => rfl
  next p hp =>
    obtain ⟨ids, made⟩ := sample p hp
    split
    next => rfl
    next =>
      rw [made]
      exact isRegistered_modifyPeer ..

/-- The markers of a marked engine can be used. -/
theorem usable_of_marked (h : e.Marked) (linear : e.ledger.Linear) : e.Usable := by
  have marker (id : PeerId) (p : Peer) (hp : e.peers[id]? = some p) :
      e.ledger.onMain p.bothHave = true := (h.marker id p hp).onMain linear
  exact ⟨fun id mem => (h.recent id mem).onMain linear, marker,
    fun id p hp => exists_sampleChain (marker id p hp),
    fun id => isRegistered_nextSummary fun p hp => exists_sampleChain (marker id p hp) _⟩

/-- **Markers can always be used.**  In a local run over a ledger in memory every recent block and
every marker is on the main chain at its own height, so that no summary fails and no peer is left
for want of one.  This holds after every operation, and also at each point inside an operation. -/
theorem Run.usable {config : Config} {clock : Clock} {genesis : Block} {solidifyDepth batch : Nat}
    {ledger : ChainLedger} {start : Engine ChainLedger} {past : List (Moment ChainLedger)}
    (run : Run start past e) (zero : genesis.number = 0)
    (calls : (ChainLedger.ofGenesis genesis solidifyDepth batch).Calls ledger)
    (started : Engine.start config ledger clock = .ok start) (loc : ∀ m ∈ past, m.Local) :
    e.Usable ∧ ∀ (op : Operation) (e₁ : Engine ChainLedger),
      (∀ b, op = .broadcast (.block b) → e.Stores b.id) → Course op.Allows e e₁ → e₁.Usable := by
  obtain ⟨sound, marked⟩ := run.marked zero calls started loc
  refine ⟨usable_of_marked marked sound.linear, fun op e₁ held course => ?_⟩
  have later := (sound.course course held).1
  exact usable_of_marked (marked.course course sound held) later.linear

/-- A block is fetched from a peer in a catch-up, and is applied. -/
def fetchedInCatchUp : List Operation :=
  [.register ⟨1⟩ 1, .receive ⟨1⟩ (.summaryReply [(Block.bare 0).id, (Block.bare 1).id] 0),
    .issueRequests, .receive ⟨1⟩ (.block (.bare 1)), .applyWaiting]

/-- The block that was fetched marks the peer, and announcing it leaves the marker usable. -/
theorem usable_after_fetch :
    ∃ (start e : Engine ChainLedger) (past : List (Moment ChainLedger)) (p : Peer),
      Engine.start {} (.ofGenesis (.genesis 0) 0 10) {} = .ok start ∧ Run start past e ∧
        (∀ m ∈ past, m.Local) ∧ e.peers[PeerId.mk 1]? = some p ∧ p.bothHave = (Block.bare 1).id ∧
          e.ledger.onMain p.bothHave = true ∧ (e.broadcast (.block (.bare 1))).Usable := by
  obtain ⟨start, past, e, started, run, checked⟩ := exists_run {}
    (ChainLedger.ofGenesis (.genesis 0) 0 10) {} fetchedInCatchUp
    (fun (past, e) => past.all isOrdinary && (e.peers[PeerId.mk 1]?).any fun p =>
      decide (p.bothHave = (Block.bare 1).id) && e.ledger.blocks.contains (Block.bare 1).id.hash)
    (by decide +kernel)
  simp only [Bool.and_eq_true, List.all_eq_true, Option.any_eq_true, decide_eq_true_eq] at checked
  obtain ⟨ordinary, p, hp, marked, stored⟩ := checked
  have loc (m : Moment ChainLedger) (mem : m ∈ past) : m.Local :=
    local_of_isOrdinary (ordinary m mem)
  obtain ⟨here, later⟩ := run.usable rfl .refl started loc
  refine ⟨start, e, past, p, started, run, loc, hp, marked, here.marker _ p hp, ?_⟩
  refine later (.broadcast (.block (.bare 1))) _ ?_ (.step (.broadcast e _) rfl)
  rintro b ⟨⟩
  exact stored

end Engine

end BlockRelay
