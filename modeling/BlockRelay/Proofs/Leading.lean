/-
# The side that is ahead

An engine that only serves a peer holds a whole chain (`ChainLedger.Whole`), fetches nothing, and
has nothing else to do (`Engine.Leads`).  It answers summaries of its chain (`Leads.answers`), and
delivers exactly the blocks that it is asked for, in the order of the request (`Leads.serves`).
Its chores then do nothing, except that what it still wants to announce is forgotten while the peer
fetches the chain (`Leads.chores`).
-/
import BlockRelay.Proofs.Issues
import BlockRelay.Proofs.Pairs
import BlockRelay.Proofs.Rounds
import BlockRelay.Proofs.Served
import BlockRelay.Proofs.ValidChain

namespace BlockRelay.Engine

variable {σ : Type} [Ledger σ]

/-! ## Idle chores -/

omit [Ledger σ] in
/-- With nothing to announce to anybody, what was to be announced is forgotten. -/
theorem announceSpread_of_silent {e : Engine σ}
    (silent : ∀ (id : PeerId) (p : Peer), e.peers[id]? = some p →
      newsFor e.spread.toList p = []) :
    ∃ n peers, e.announceSpread = (n, { e with spread := ∅, peers := peers }) ∧
      ∀ id : PeerId, peers[id]? = e.peers[id]? := by
  unfold announceSpread announceListed
  dsimp only
  generalize listed : e.peers.toList.filterMap _ = news
  have nothing : news = [] := by
    rw [← listed, List.filterMap_eq_nil_iff]
    intro entry mem
    rw [silent entry.1 entry.2 (Std.TreeMap.mem_toList_iff_getElem?_eq_some.1 mem)]
  subst nothing
  refine ⟨_, _, rfl, fun id => ?_⟩
  rw [Std.TreeMap.getElem?_map]
  cases hp : e.peers[id]? with
  | none => rfl
  | some p =>
    rw [Option.map_some, silent id p hp]
    rfl

omit [Ledger σ] in
/-- Nothing is announced from an empty set. -/
theorem newsFor_nil (p : Peer) : newsFor [] p = [] := by
  unfold newsFor
  split
  · rfl
  · simp [Item.inDeliveryOrder]

omit [Ledger σ] in
/-- Without candidates nothing is reserved. -/
theorem reserveCandidates_of_isEmpty {e : Engine σ} (none : e.candidates.isEmpty = true) :
    e.reserveCandidates = .ok (0, e) := by
  unfold reserveCandidates
  rw [none, Bool.true_or, if_pos rfl]
  rfl

omit [Ledger σ] in
/-- Nobody is asked for blocks while nothing is needed from anybody, or everybody is busy. -/
theorem issueRequests_of_busy {e : Engine σ}
    (busy : ∀ (id : PeerId) (p : Peer), e.peers[id]? = some p →
      p.needFromPeer = false ∨ p.isBusy = true) : e.issueRequests = (0, e) := by
  refine issueRequests_of_silent fun id p hp ⟨needed, free, _⟩ => ?_
  rcases busy id p hp with not | not
  · cases needed.symm.trans not
  · cases free.symm.trans not

omit [Ledger σ] in
/-- Then a turn at asking for blocks only notes that it is not due any more. -/
theorem issueTick_of_busy {e : Engine σ}
    (busy : ∀ (id : PeerId) (p : Peer), e.peers[id]? = some p →
      p.needFromPeer = false ∨ p.isBusy = true) :
    ∃ issueDue, e.issueTick = (0, { e with issueDue := issueDue }) := by
  unfold issueTick
  split
  · exact ⟨_, rfl⟩
  · split
    · exact ⟨false, issueRequests_of_busy (e := { e with issueDue := false }) busy⟩
    · exact ⟨_, rfl⟩

/-- With nothing to announce and nothing to reserve, the first two chores do nothing. -/
theorem plays_first_chores {e : Engine σ} (receiver : PeerId)
    (silent : ∀ (id : PeerId) (p : Peer), e.peers[id]? = some p →
      newsFor e.spread.toList p = []) (none : e.candidates.isEmpty = true) :
    ∃ peers, Plays receiver [.announceSpread, .reserveCandidates] [] e
        { e with spread := ∅, peers := peers, journal := [] } ∧
      ∀ id : PeerId, peers[id]? = e.peers[id]? := by
  obtain ⟨n, peers, announced, same⟩ := announceSpread_of_silent silent
  have first : e.perform .announceSpread =
      .ok (.count n, { e with spread := ∅, peers := peers }) := by
    rw [perform, announced]
    rfl
  have second : perform { e with spread := ∅, peers := peers, journal := [] } .reserveCandidates =
      .ok (.count 0, { e with spread := ∅, peers := peers, journal := [] }) := by
    rw [perform, reserveCandidates_of_isEmpty]
    · rfl
    · exact none
  exact ⟨peers, .silent first rfl (.one second (.silent rfl)), same⟩

/-- If nobody is asked for blocks either, the first three chores do nothing. -/
theorem plays_idle_chores {e : Engine σ} (receiver : PeerId)
    (silent : ∀ (id : PeerId) (p : Peer), e.peers[id]? = some p →
      newsFor e.spread.toList p = []) (none : e.candidates.isEmpty = true)
    (busy : ∀ (id : PeerId) (p : Peer), e.peers[id]? = some p →
      p.needFromPeer = false ∨ p.isBusy = true) :
    ∃ peers issueDue, Plays receiver [.announceSpread, .reserveCandidates, .issueTick] [] e
        { e with spread := ∅, peers := peers, issueDue := issueDue, journal := [] } ∧
      ∀ id : PeerId, peers[id]? = e.peers[id]? := by
  obtain ⟨peers, plays, same⟩ := plays_first_chores receiver silent none
  obtain ⟨issueDue, asked⟩ := issueTick_of_busy
    (e := { e with spread := ∅, peers := peers, journal := [] }) fun id p hp =>
      busy id p (same id ▸ hp)
  have third : perform { e with spread := ∅, peers := peers, journal := [] } .issueTick =
      .ok (.count 0, { e with
        spread := ∅
        peers := peers
        issueDue := issueDue
        journal := [] }) := by
    rw [perform, asked]
    rfl
  exact ⟨peers, issueDue, plays.append (.one third (.silent rfl)), same⟩

/-- If nothing is due to be applied either, no chore does anything. -/
theorem plays_chores_of_rests {e : Engine σ} (receiver : PeerId)
    (silent : ∀ (id : PeerId) (p : Peer), e.peers[id]? = some p →
      newsFor e.spread.toList p = []) (none : e.candidates.isEmpty = true)
    (busy : ∀ (id : PeerId) (p : Peer), e.peers[id]? = some p →
      p.needFromPeer = false ∨ p.isBusy = true) (rests : e.applyDue = false) :
    ∃ peers issueDue, Plays receiver StepNetwork.chores [] e
        { e with spread := ∅, peers := peers, issueDue := issueDue, journal := [] } ∧
      ∀ id : PeerId, peers[id]? = e.peers[id]? := by
  obtain ⟨peers, issueDue, plays, same⟩ := plays_idle_chores receiver silent none busy
  have last : perform { e with
      spread := ∅, peers := peers, issueDue := issueDue, journal := [] } .applyTick =
        .ok (.count 0, { e with
          spread := ∅, peers := peers, issueDue := issueDue, journal := [] }) := by
    rw [perform, applyTick, if_neg]
    · rfl
    · rw [rests]
      exact Bool.false_ne_true
  exact ⟨peers, issueDue, plays.append (.one last (.silent rfl)), same⟩

/-- With nothing that has arrived or waits, nothing is applied. -/
theorem applyTick_of_empty {e : Engine σ} (arrived : e.arrived = [])
    (waiting : e.waiting.size = 0) :
    ∃ e', e.perform .applyTick = .ok (.count 0, e') ∧ e'.journal = e.journal ∧
      e'.ledger = e.ledger ∧ e'.peers = e.peers := by
  by_cases due : e.applyDue = true
  · obtain ⟨e₁, eq⟩ : ∃ e₁, (absorb { e with applyDue := false }).resume = e₁ := ⟨_, rfl⟩
    have same : e₁.waiting = e.waiting ∧ e₁.journal = e.journal ∧ e₁.ledger = e.ledger ∧
        e₁.peers = e.peers := by
      have absorbed : absorb { e with applyDue := false } =
          { e with applyDue := false, arrived := [] } := by
        unfold absorb
        rw [arrived]
        rfl
      rw [← eq, absorbed]
      unfold resume
      split <;> exact ⟨rfl, rfl, rfl, rfl⟩
    have keys : e₁.waiting.keys = [] := by
      rw [same.1, ← List.length_eq_zero_iff, Std.TreeMap.length_keys, waiting]
    have pos : ¬ max e.config.sync.applyBudget 1 ≤ 0 := by omega
    have ran : ApplyPass.run (max e.config.sync.applyBudget 1) (e₁.waiting.size + 1)
        { engine := e₁ } = .ok { engine := e₁ } := by
      refine Checked.bind_eq_ok_iff.2 ⟨{ engine := e₁ }, ?_, if_pos (Bool.or_true _)⟩
      rw [keys]
      rfl
    refine ⟨e₁, ?_, same.2⟩
    have applied : applyWaiting { e with applyDue := false } = .ok (0, e₁) := by
      refine Checked.bind_eq_ok_iff.2 ⟨{ engine := e₁ }, eq ▸ ran, ?_⟩
      rw [if_neg pos]
      rfl
    rw [perform, applyTick, if_pos due, applied]
    rfl
  · refine ⟨e, ?_, rfl, rfl, rfl⟩
    rw [perform, applyTick, if_neg due]
    rfl

/-! ## The engine that serves -/

/-- An engine that holds a chain, knows one peer only and fetches nothing from it, caches blocks of
the chain only, and has neither candidates nor waiting blocks to take care of. -/
structure Leads (c : ChainLedger) (me : PeerId) (f : Engine ChainLedger) : Prop where
  ledger : f.ledger = c
  known : ∃ q, f.peers[me]? = some q
  only : ∀ (other : PeerId) (q : Peer), f.peers[other]? = some q →
    other = me ∧ q.needFromPeer = false
  cached : ∀ entry ∈ f.blockCache.entries, c.blocks[entry.key]? = some entry.value
  candidates : f.candidates.isEmpty = true
  rests : f.applyDue = false

/-- Whether an engine has nothing to announce to its peers: there is nothing, or they fetch the
chain. -/
def Hushed (f : Engine ChainLedger) : Prop :=
  f.spread = ∅ ∨ ∀ (id : PeerId) (q : Peer), f.peers[id]? = some q → q.needFromUs = true

variable {c : ChainLedger} {me : PeerId} {f f' : Engine ChainLedger} {summary : List BlockId}
  {tip : BlockId} {top : Nat}

namespace Leads

/-- An engine that changes little goes on to lead. -/
theorem congr (h : Leads c me f) (ledger : f'.ledger = f.ledger)
    (peers : ∀ id : PeerId, f'.peers[id]? = f.peers[id]?)
    (cache : f'.blockCache.entries ⊆ f.blockCache.entries)
    (candidates : f'.candidates = f.candidates) (applyDue : f'.applyDue = f.applyDue) :
    Leads c me f' := by
  refine ⟨ledger.trans h.ledger, ?_, fun other q hq => h.only other q ((peers other).symm.trans hq),
    fun entry mem => h.cached entry (cache mem), candidates ▸ h.candidates,
    applyDue.trans h.rests⟩
  obtain ⟨q, hq⟩ := h.known
  exact ⟨q, (peers me).trans hq⟩

/-- An engine goes on to lead when a record changes, unless blocks are needed from the peer then. -/
theorem modifyPeer {g : Peer → Peer} (h : Leads c me f)
    (wants : ∀ q, (g q).needFromPeer = q.needFromPeer) : Leads c me (f.modifyPeer me g) := by
  refine ⟨h.ledger, ?_, fun other q hq => ?_, h.cached, h.candidates, h.rests⟩
  · obtain ⟨q, hq⟩ := h.known
    exact ⟨g q, by rw [peers_modifyPeer, if_pos rfl, hq, Option.map_some]⟩
  · rw [peers_modifyPeer] at hq
    split at hq
    · obtain ⟨old, known, rfl⟩ := Option.map_eq_some_iff.1 hq
      exact ⟨‹_›, (wants old).trans (h.only other old known).2⟩
    · exact h.only other q hq

/-- **The answer to a summary.**  A summary that ends on the chain is answered, and the peer fetches
the chain from then on unless the answer is complete. -/
theorem answers (h : Leads c me f) (whole : c.Whole) (ends : summary.getLast? = some tip)
    (found : c.main[top]? = some tip) (fits : top + c.batch < wordBound) :
    ∃ ids f', c.idsBeyond summary = .ok ids ∧
      Plays me [.receive me (.summaryRequest summary)]
        [.summaryReply ids (remainingFor c.head summary ids)] f f' ∧
      Leads c me f' ∧ f'.spread = f.spread ∧
      ∀ (id : PeerId) (q : Peer), f'.peers[id]? = some q →
        q.needFromUs = !isComplete summary ids := by
  obtain ⟨q, hq⟩ := h.known
  have linear := whole.within.linear
  obtain ⟨ids, beyond⟩ := linear.exists_idsBeyond_of_getLast? ends found fits
  have done := perform_summaryRequest (h.ledger ▸ linear) hq ends (h.ledger ▸ found)
  rw [h.ledger, beyond] at done
  have utters : f.Utters me [.summaryReply ids (remainingFor c.head summary ids)]
      (f.sendAnswer me summary ids) := by
    refine .send ?_
    rw [← h.ledger]
    rfl
  have peers : ∀ id : PeerId, (f.sendAnswer me summary ids).takeJournal.2.peers[id]? =
      if id = me then (f.peers[id]?).map fun p => { p with needFromUs := !isComplete summary ids }
      else f.peers[id]? := peers_modifyPeer f me _
  have noted : Leads c me
      (f.modifyPeer me fun p => { p with needFromUs := !isComplete summary ids }) :=
    h.modifyPeer fun _ => rfl
  refine ⟨ids, _, beyond, .one done utters,
    noted.congr rfl (fun _ => rfl) (List.Subset.refl _) rfl rfl, rfl, fun id q hq => ?_⟩
  rw [peers] at hq
  split at hq
  · obtain ⟨old, -, rfl⟩ := Option.map_eq_some_iff.1 hq
    rfl
  next other => exact absurd (h.only id q hq).1 other

/-- A block of the chain is found, in the cache or in the ledger. -/
theorem findBlock (h : Leads c me f) (whole : c.Whole) {id : BlockId} (on : id ∈ c.main) :
    ∃ b f', f.findBlock id.hash = (some b, f') ∧ b.id = id ∧ c.Has b ∧ Leads c me f' ∧
      f' = { f with blockCache := f'.blockCache } := by
  obtain ⟨b, found, same⟩ := whole.exists_block on
  have here : (f.findBlock id.hash).1 = some b := by
    show ((f.blockCache.get id.hash f.now).1 <|> Ledger.block? f.ledger id.hash) = some b
    have held : Ledger.block? f.ledger id.hash = some b := by
      rw [h.ledger]
      exact found
    cases hit : (f.blockCache.get id.hash f.now).1 with
    | none => exact held
    | some cached =>
      -- what is cached under a hash is the block of the chain
      obtain ⟨entry, mem, key, value⟩ := AgingCache.mem_entries_of_get hit
      have eq := h.cached entry mem
      rw [key, found, value] at eq
      exact eq.symm
  refine ⟨b, (f.findBlock id.hash).2, Prod.ext here rfl, same, whole.within.held found, ?_, rfl⟩
  exact h.congr rfl (fun _ => rfl) AgingCache.entries_get_subset rfl rfl

/-- The answer to a request for blocks of the chain. -/
theorem collect (h : Leads c me f) (whole : c.Whole) (limits : Config.Cache) {ids : List BlockId}
    (on : ∀ id ∈ ids, id ∈ c.main) (a : Answer) (closed : a.batch = []) :
    ∃ (last : Option BlockId) (blocks : List Block) (f' : Engine ChainLedger),
      Engine.collect limits (ids.map BlockId.item) a f =
        (last, a.messages ++ blocks.map .block, f') ∧
      blocks.map Block.id = ids ∧ (∀ b ∈ blocks, c.Has b) ∧ Leads c me f' ∧
      f' = { f with blockCache := f'.blockCache } := by
  induction ids generalizing a f with
  | nil =>
    refine ⟨a.lastBlock, [], f, ?_, rfl, nofun, h, rfl⟩
    rw [List.map_nil, Engine.collect, Answer.finish, closed, List.map_nil, List.append_nil]
    rfl
  | cons id rest ih =>
    obtain ⟨here, later⟩ := List.forall_mem_cons.1 on
    obtain ⟨b, f₁, found, same, has, leads, eq₁⟩ := h.findBlock whole here
    obtain ⟨last, blocks, f', done, ids_eq, hasAll, leads', eq⟩ :=
      ih leads later (a.addBlock b) closed
    refine ⟨last, b :: blocks, f', ?_, by rw [List.map_cons, same, ids_eq],
      List.forall_mem_cons.2 ⟨has, hasAll⟩, leads', ?_⟩
    · rw [List.map_cons, Engine.collect]
      simp only [BlockId.item, Item.kind_block, Item.hash_block, found]
      rw [done]
      simp [Answer.addBlock]
    · rw [eq₁] at eq
      exact eq

/-- **The delivery.**  A request for blocks of the chain is served with exactly these blocks. -/
theorem serves (h : Leads c me f) (whole : c.Whole) {ids : List BlockId}
    (on : ∀ id ∈ ids, id ∈ c.main) :
    ∃ (blocks : List Block) (f' : Engine ChainLedger),
      blocks.map Block.id = ids ∧ (∀ b ∈ blocks, c.Has b) ∧
      Plays me [.receive me (.fetch (ids.map BlockId.item))] (blocks.map .block) f f' ∧
      Leads c me f' ∧ f'.spread = f.spread := by
  obtain ⟨q, hq⟩ := h.known
  obtain ⟨last, blocks, f₁, collected, ids_eq, has, leads, eq⟩ :=
    h.collect whole f.config.cache on {} rfl
  have known : f₁.isRegistered me = true := by
    rw [eq]
    exact isRegistered_iff.2 ⟨q, hq⟩
  have served : f.serve me (ids.map BlockId.item) =
      (blocks.map Message.block).foldl (fun e m => e.send me m)
        (f₁.modifyPeer me fun p => { p with bothHave := last.getD p.bothHave }) := by
    unfold serve
    rw [collected]
    dsimp only
    rw [known, if_pos rfl]
    rfl
  rw [foldl_send (fun _ => me) (fun m => m)] at served
  have done : f.perform (.receive me (.fetch (ids.map BlockId.item))) =
      .ok (.done, f.serve me (ids.map BlockId.item)) := by
    have heard : f.receive me (.fetch (ids.map BlockId.item)) =
        .ok (f.serve me (ids.map BlockId.item)) := if_pos (isRegistered_iff.2 ⟨q, hq⟩)
    rw [perform, heard]
    rfl
  refine ⟨blocks, _, ids_eq, has, .one done (.sendAll ?_), ?_, ?_⟩
  · rw [served, eq]
    rfl
  · rw [served]
    have noted : Leads c me
        (f₁.modifyPeer me fun p => { p with bothHave := last.getD p.bothHave }) :=
      leads.modifyPeer fun _ => rfl
    exact noted.congr rfl (fun _ => rfl) (List.Subset.refl _) rfl rfl
  · rw [served, eq]
    rfl

/-- **The chores.**  An engine that leads and has nothing to announce does nothing. -/
theorem chores (h : Leads c me f) (hushed : f.Hushed) :
    ∃ f', Plays me StepNetwork.chores [] f f' ∧ Leads c me f' ∧ f'.spread = ∅ := by
  have silent : ∀ (id : PeerId) (q : Peer), f.peers[id]? = some q →
      newsFor f.spread.toList q = [] := by
    intro id q hq
    rcases hushed with nothing | fetches
    · rw [nothing]
      exact newsFor_nil q
    · rw [newsFor, if_pos (fetches id q hq)]
  obtain ⟨peers, issueDue, plays, same⟩ := plays_chores_of_rests me silent h.candidates
    (fun id q hq => .inl (h.only id q hq).2) h.rests
  exact ⟨_, plays, h.congr rfl same (List.Subset.refl _) rfl rfl, rfl⟩

end Leads

end BlockRelay.Engine
