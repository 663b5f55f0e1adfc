/-
# Agreement with a single producer

In a network that moves in steps, let blocks be produced by one node only (`StepNetwork.act`).
Whatever else happens, in whichever order, the main chain of every node is a prefix of the main
chain of the producer, and every block that is on a link, that an engine caches, or that waits in
an engine is a block of this chain (`agreement`).

The invariant is `StepNetwork.Agrees`: all engines are confined to the blocks of one chain, which
is the chain of the producer.  Messages carry no other blocks, and so nothing that a step does
breaks it.  When the producer produces a block, the one chain grows.
-/
import BlockRelay.Network.Stepped
import BlockRelay.Proofs.Prefixes
import BlockRelay.Proofs.Relay

namespace BlockRelay

namespace ChainLedger

/-- What may be the ledger of a node while `c` is the chain of the producer: a ledger within the
chain, and the chain itself if the node is the producer. -/
def Admits (c : ChainLedger) (producer : Prop) (l : ChainLedger) : Prop :=
  l.Within c ∧ (producer → l.main = c.main ∧ l.blocks = c.blocks)

/-- Blocks of a chain that is whole make no ledger leave it. -/
theorem Within.closed {c : ChainLedger} (whole : c.Within c) (producer : Prop) :
    Engine.Closed c.Has (c.Admits producer) := by
  constructor
  · rintro l l' b sync r ⟨within, same⟩ has done
    refine ⟨within.applyBlock whole.linear has done, fun leads => ?_⟩
    obtain ⟨main, blocks⟩ := same leads
    rcases applyBlock_cases done with ⟨rfl, -⟩ | ⟨-, -, fresh, -⟩
    · exact ⟨main, blocks⟩
    · -- the producer stores all blocks of the chain
      rw [blocks, Std.TreeMap.contains_eq_isSome_getElem?, has.2] at fresh
      cases fresh
  · rintro l t ⟨within, same⟩
    obtain ⟨-, main, blocks, -⟩ := l.sameChain_applyTransaction t
    exact ⟨within.congr main blocks, fun leads =>
      ⟨main.trans (same leads).1, blocks.trans (same leads).2⟩⟩
  · rintro l n ⟨within, same⟩
    exact ⟨within.congr rfl rfl, same⟩
  · rintro l hash b ⟨within, -⟩ found
    exact within.held found

end ChainLedger

namespace StepNetwork

/-! ## What happens to a network -/

/-- What may happen to a network of which one node produces blocks. -/
inductive Act where
  /-- A node is added. -/
  | addNode
  /-- Two nodes are connected. -/
  | connect (a b : Nat)
  /-- The network makes a step. -/
  | step
  /-- A transaction is submitted at a node. -/
  | submit (node : Nat) (transaction : Transaction)
  /-- A hash is forbidden on the ledger of a node. -/
  | forbid (node : Nat) (hash : Hash)
  /-- A node leaves a peer. -/
  | disconnect (node : Nat) (peer : PeerId) (reason : Reason)
  /-- The producer produces a block, or is refused. -/
  | produce (transactions : List Transaction)
  /-- Time passes. -/
  | advanceClock (ms : Nat)

/-- Let something happen to a network.  The producer is the node at position `k`. -/
def act (k : Nat) (net : StepNetwork) : Act → Checked StepNetwork
  | .addNode => do
    let (_, net) ← net.addNode
    return net
  | .connect a b => net.connect a b
  | .step => do
    let (_, net) ← net.step
    return net
  | .submit i t =>
    match net.nodes[i]? with
    | none => return net
    | some n => return net.setNode i (n.submit t).2
  | .forbid i hash =>
    match net.nodes[i]? with
    | none => return net
    | some n => return net.setNode i (n.forbid hash)
  | .disconnect i id r => do
    let (_, net) ← net.perform i (.disconnect id r)
    return net
  | .produce transactions =>
    match net.nodes[k]? with
    | none => return net
    | some n => do
      let (_, n) ← n.produce transactions
      return net.setNode k n
  | .advanceClock ms => return net.advanceClock ms

/-! ## The invariant -/

/-- Whether messages carry only blocks that satisfy `P`. -/
def LinksHold (P : Block → Prop) (links : Std.TreeMap Link (List Message)) : Prop :=
  ∀ (l : Link) (messages : List Message), links[l]? = some messages →
    ∀ m ∈ messages, ∀ b ∈ m.blocks, P b

/-- All engines are confined to the blocks of a chain, and links carry no other blocks.  The chain
is that of the node at position `k`, or it is the genesis block while there is no such node. -/
structure Agrees (k : Nat) (c : ChainLedger) (net : StepNetwork) : Prop where
  whole : c.Within c
  root : ∀ solidifyDepth batch : Nat,
    c.Admits (net.nodes.size ≤ k) (.ofGenesis (.genesis 0) solidifyDepth batch)
  node : ∀ (i : Nat) (n : Node), net.nodes[i]? = some n →
    n.engine.Confined c.Has (c.Admits (i = k))
  link : LinksHold c.Has net.links

/-- The condition on the blocks may be weakened. -/
theorem LinksHold.mono {P Q : Block → Prop} {links : Std.TreeMap Link (List Message)}
    (h : LinksHold P links) (weaker : ∀ b, P b → Q b) : LinksHold Q links :=
  fun l messages found m mem b carried => weaker b (h l messages found m mem b carried)

/-- No link holds other blocks after one was emptied. -/
theorem LinksHold.clear {P : Block → Prop} {links : Std.TreeMap Link (List Message)}
    (h : LinksHold P links) (l : Link) : LinksHold P (links.insert l []) := by
  intro other messages found
  rw [Std.TreeMap.getElem?_insert] at found
  split at found
  · cases found
    exact nofun
  · exact h other messages found

/-- No link holds other blocks after one was taken down. -/
theorem LinksHold.erase {P : Block → Prop} {links : Std.TreeMap Link (List Message)}
    (h : LinksHold P links) (l : Link) : LinksHold P (links.erase l) := by
  intro other messages found
  rw [Std.TreeMap.getElem?_erase] at found
  split at found
  · cases found
  · exact h other messages found

/-- Following the events of a node puts the blocks that it sent on the links, and no others. -/
theorem linksHold_foldl_follow {P : Block → Prop} (i : Nat) (events : List Event)
    (sent : ∀ ev ∈ events, ∀ b ∈ ev.blocks, P b) {links : Std.TreeMap Link (List Message)}
    (h : LinksHold P links) : LinksHold P (events.foldl (follow i) links) := by
  induction events generalizing links with
  | nil => exact h
  | cons ev rest ih =>
    refine ih (fun ev mem => sent ev (List.mem_cons_of_mem _ mem)) ?_
    cases ev with
    | opened peer => exact h.clear _
    | sent peer m =>
      intro l messages found
      rw [follow, Std.TreeMap.getElem?_modify] at found
      split at found
      · obtain ⟨before, held, rfl⟩ := Option.map_eq_some_iff.1 found
        intro other mem
        rcases List.mem_append.1 mem with old | new
        · exact h _ before held other old
        · cases List.mem_singleton.1 new
          exact sent _ (List.mem_cons_self ..)
      · exact h l messages found
    | closed | appliedBlock | appliedTransaction | notified => exact h

/-- A node that is put in its place leaves the others where they are. -/
theorem getElem?_setNode {net : StepNetwork} {i j : Nat} {n m : Node}
    (found : (net.setNode i n).nodes[j]? = some m) :
    i = j ∧ m = { n with engine := n.engine.takeJournal.2 } ∨ i ≠ j ∧ net.nodes[j]? = some m := by
  change (net.nodes.setIfInBounds i { n with engine := n.engine.takeJournal.2 })[j]? = some m
    at found
  rw [Array.getElem?_setIfInBounds] at found
  split at found
  next here =>
    split at found
    · cases found
      exact .inl ⟨here, rfl⟩
    · cases found
  next elsewhere => exact .inr ⟨elsewhere, found⟩

/-- An engine stays confined when its journal is taken. -/
theorem confined_takeJournal {P : Block → Prop} {I : ChainLedger → Prop} {e : Engine ChainLedger}
    (h : e.Confined P I) : e.takeJournal.2.Confined P I :=
  ⟨h.ledger, h.cached, h.arrived, h.waiting, nofun⟩

namespace Agrees

variable {k : Nat} {c : ChainLedger} {net net' : StepNetwork}

/-- The network of no nodes agrees with the genesis block. -/
theorem start (k : Nat) (config : Config) (solidifyDepth : Nat) (clock : Clock) :
    Agrees k (.ofGenesis (.genesis 0) 0 0) { config, solidifyDepth, clock } := by
  refine ⟨.ofGenesis rfl 0 0, fun depth batch => ?_, fun i n found => ?_, fun l ms found => ?_⟩
  · exact ⟨.congr (.ofGenesis rfl 0 0) rfl rfl, fun _ => ⟨rfl, rfl⟩⟩
  · simp at found
  · simp at found

/-- Other links that hold no other blocks may be put in place of the links. -/
theorem setLinks (h : Agrees k c net) {links : Std.TreeMap Link (List Message)}
    (hold : LinksHold c.Has links) : Agrees k c { net with links } :=
  ⟨h.whole, h.root, h.node, hold⟩

/-- A confined node is put in its place. -/
theorem setNode (h : Agrees k c net) {i : Nat} {n : Node}
    (here : n.engine.Confined c.Has (c.Admits (i = k))) : Agrees k c (net.setNode i n) := by
  refine ⟨h.whole, fun depth batch => ?_, fun j m found => ?_, ?_⟩
  · have size : (net.setNode i n).nodes.size = net.nodes.size := Array.size_setIfInBounds
    rw [size]
    exact h.root depth batch
  · rcases getElem?_setNode found with ⟨rfl, rfl⟩ | ⟨-, old⟩
    · exact confined_takeJournal here
    · exact h.node j m old
  · exact linksHold_foldl_follow i _ here.sent h.link

/-- An operation that brings in only blocks of the chain breaks nothing. -/
theorem perform (h : Agrees k c net) {i : Nat} {op : Operation} {answer : Outcome}
    (brought : ∀ b ∈ op.blocks, c.Has b) (done : net.perform i op = .ok (answer, net')) :
    Agrees k c net' := by
  unfold StepNetwork.perform at done
  split at done
  next =>
    cases done
    exact h
  next n found =>
    obtain ⟨⟨outcome, engine⟩, performed, done⟩ := Checked.bind_eq_ok_iff.1 done
    cases done
    exact h.setNode ((h.node i n found).perform (h.whole.closed (i = k)) brought performed)

/-- An operation that brings in no blocks breaks nothing. -/
theorem perform_quiet (h : Agrees k c net) {i : Nat} {op : Operation} {answer : Outcome}
    (quiet : op.blocks = []) (done : net.perform i op = .ok (answer, net')) :
    Agrees k c net' :=
  h.perform (by rw [quiet]; exact nofun) done

/-- Connecting two nodes breaks nothing. -/
theorem connect (h : Agrees k c net) {a b : Nat} (done : net.connect a b = .ok net') :
    Agrees k c net' := by
  unfold StepNetwork.connect at done
  split at done
  next =>
    obtain ⟨⟨_, net₁⟩, first, done⟩ := Checked.bind_eq_ok_iff.1 done
    obtain ⟨⟨_, net₂⟩, second, done⟩ := Checked.bind_eq_ok_iff.1 done
    cases done
    have registered : Agrees k c net₁ := h.perform_quiet rfl first
    exact registered.perform_quiet rfl second
  next =>
    cases done
    exact h

/-! ## One step -/

/-- Delivering messages that carry blocks of the chain breaks nothing. -/
theorem deliver {l : Link} {messages : List Message}
    (carried : ∀ m ∈ messages, ∀ b ∈ m.blocks, c.Has b) (h : Agrees k c net)
    (done : StepNetwork.deliver l messages net = .ok net') : Agrees k c net' := by
  induction messages generalizing net with
  | nil =>
    cases done
    exact h
  | cons m rest ih =>
    obtain ⟨here, later⟩ := List.forall_mem_cons.1 carried
    obtain ⟨⟨_, net₁⟩, received, done⟩ := Checked.bind_eq_ok_iff.1 done
    have brought : ∀ b ∈ (Operation.receive (Node.peerAt l.sender) m).blocks, c.Has b := here
    have first : Agrees k c net₁ := h.perform brought received
    dsimp only at done
    split at done
    · -- the link is taken down in both directions, and the sender notices
      obtain ⟨⟨_, net₂⟩, lost, done⟩ := Checked.bind_eq_ok_iff.1 done
      cases done
      have down := first.setLinks ((first.link.erase l).erase l.back)
      exact down.perform_quiet rfl lost
    · exact ih later first done

/-- Delivering what is on a link breaks nothing. -/
theorem drainLink (h : Agrees k c net) {l : Link} {n : Nat}
    (done : net.drainLink l = .ok (n, net')) : Agrees k c net' := by
  unfold StepNetwork.drainLink at done
  split at done
  next =>
    cases done
    exact h
  next batch found =>
    obtain ⟨net₁, delivered, done⟩ := Checked.bind_eq_ok_iff.1 done
    cases done
    exact deliver (h.link l batch found) (h.setLinks (h.link.clear l)) delivered

/-- A chore breaks nothing. -/
theorem chore {i work work' : Nat} {op : Operation} (mem : op ∈ chores) (h : Agrees k c net)
    (done : StepNetwork.chore i (work, net) op = .ok (work', net')) : Agrees k c net' := by
  have quiet : op.blocks = [] := by
    simp only [chores, List.mem_cons, List.not_mem_nil, or_false] at mem
    rcases mem with rfl | rfl | rfl | rfl <;> rfl
  obtain ⟨⟨outcome, net₁⟩, performed, done⟩ := Checked.bind_eq_ok_iff.1 done
  have after : Agrees k c net₁ := h.perform_quiet quiet performed
  split at done
  next eq =>
    cases eq
    cases done
    exact after
  next eq =>
    cases eq
    cases done
    exact after

/-- **A step of the network breaks nothing.** -/
theorem step (h : Agrees k c net) {work : Nat} (done : net.step = .ok (work, net')) :
    Agrees k c net' := by
  obtain ⟨⟨delivered, net₁⟩, drained, done⟩ := Checked.bind_eq_ok_iff.1 done
  have first : Agrees k c net₁ := by
    refine Checked.foldlM_preserves (I := fun acc => Agrees k c acc.2) ?_ drained h
    rintro l - ⟨_, net⟩ ⟨_, net'⟩ done here
    obtain ⟨⟨n, net₂⟩, delivered, done⟩ := Checked.bind_eq_ok_iff.1 done
    cases done
    exact here.drainLink delivered
  refine Checked.foldlM_preserves (I := fun acc => Agrees k c acc.2) ?_ done first
  rintro i - ⟨_, net⟩ ⟨_, net'⟩ done here
  refine Checked.foldlM_preserves (I := fun acc => Agrees k c acc.2) ?_ done here
  rintro op mem ⟨_, net⟩ ⟨_, net'⟩ done here
  exact here.chore mem done

/-! ## Other moves -/

/-- A new node breaks nothing. -/
theorem addNode (h : Agrees k c net) {i : Nat} (done : net.addNode = .ok (i, net')) :
    Agrees k c net' := by
  obtain ⟨n, launched, done⟩ := Checked.bind_eq_ok_iff.1 done
  obtain ⟨engine, started, eq⟩ := Checked.bind_eq_ok_iff.1 launched
  cases eq
  cases done
  obtain ⟨within, young⟩ := h.root net.solidifyDepth net.config.sync.batch
  have size : (net.nodes.push ⟨Node.peerAt net.nodes.size, engine⟩).size = net.nodes.size + 1 :=
    Array.size_push ..
  refine ⟨h.whole, fun depth batch => ?_, fun j m found => ?_, h.link⟩
  · obtain ⟨within, young⟩ := h.root depth batch
    refine ⟨within, fun small => young ?_⟩
    rw [size] at small
    omega
  · rw [Array.getElem?_push] at found
    split at found
    next last =>
      cases found
      have admitted : c.Admits (j = k)
          (.ofGenesis (.genesis 0) net.solidifyDepth net.config.sync.batch) :=
        ⟨within, fun leads => young (by omega)⟩
      exact .start started admitted
    next => exact h.node j m found

/-- A change of one ledger that is not a change of its blocks breaks nothing. -/
theorem setLedger (h : Agrees k c net) {i : Nat} {n : Node} (found : net.nodes[i]? = some n)
    {l : ChainLedger} (main : l.main = n.ledger.main) (blocks : l.blocks = n.ledger.blocks) :
    (n.setLedger l).engine.Confined c.Has (c.Admits (i = k)) := by
  have confined := h.node i n found
  obtain ⟨within, same⟩ := confined.ledger
  exact confined.setLedger ⟨within.congr main blocks, fun leads =>
    ⟨main.trans (same leads).1, blocks.trans (same leads).2⟩⟩

/-- A transaction that is submitted breaks nothing. -/
theorem submit (h : Agrees k c net) {i : Nat} {n : Node} (found : net.nodes[i]? = some n)
    (t : Transaction) : Agrees k c (net.setNode i (n.submit t).2) := by
  obtain ⟨-, main, blocks, -⟩ := n.ledger.sameChain_applyTransaction t
  have confined := h.setLedger found main blocks
  refine h.setNode ?_
  unfold Node.submit
  dsimp only
  split
  · exact ⟨confined.ledger, confined.cached, confined.arrived, confined.waiting, confined.sent⟩
  · exact confined

/-- Time that passes breaks nothing. -/
theorem advanceClock (h : Agrees k c net) (ms : Nat) : Agrees k c (net.advanceClock ms) := by
  refine ⟨h.whole, fun depth batch => ?_, fun i n found => ?_, h.link⟩
  · have size : (net.advanceClock ms).nodes.size = net.nodes.size := Array.size_map
    rw [size]
    exact h.root depth batch
  · rw [StepNetwork.advanceClock, Array.getElem?_map, Option.map_eq_some_iff] at found
    obtain ⟨n, found, rfl⟩ := found
    have confined := h.node i n found
    exact ⟨confined.ledger, confined.cached, confined.arrived, confined.waiting, confined.sent⟩

/-- **The chain grows** when the producer puts a new block on top of it, and queues it for
announcement. -/
theorem extend (h : Agrees k c net) {n : Node} (found : net.nodes[k]? = some n) {b : Block}
    (fresh : n.ledger.blocks.contains b.id.hash = false)
    (next : b.number.toNat = n.ledger.head.number.toNat + 1) :
    Agrees k (n.ledger.extend b) (net.setNode k
      { n with engine := (n.setLedger (n.ledger.extend b)).engine.broadcastBlock b }) := by
  have confined := h.node k n found
  obtain ⟨within, same⟩ := confined.ledger
  obtain ⟨main, blocks⟩ := same rfl
  -- the ledger of the producer is the chain, so that the chain grows as this ledger does
  have whole : n.ledger.Within n.ledger :=
    within.mono (.of_main main) fun x has => has.congr main blocks
  have grown : (n.ledger.extend b).Within (n.ledger.extend b) := whole.grow fresh next
  have below : c.Below (n.ledger.extend b) :=
    (ChainLedger.Below.of_main main).trans (n.ledger.below_extend b)
  have kept (x : Block) (has : c.Has x) : (n.ledger.extend b).Has x :=
    (has.congr main blocks).extend fresh
  have producer : ((n.setLedger (n.ledger.extend b)).engine.broadcastBlock b).Confined
      (n.ledger.extend b).Has ((n.ledger.extend b).Admits (k = k)) := by
    have before : n.engine.Confined (n.ledger.extend b).Has fun _ => True :=
      confined.mono kept fun _ => trivial
    have extended : (n.setLedger (n.ledger.extend b)).engine.Confined (n.ledger.extend b).Has
        fun _ => True := before.setLedger trivial
    have after := extended.broadcastBlock (n.ledger.has_extend_self b)
    exact after.mono (fun _ has => has) fun _ => ⟨grown, fun _ => ⟨rfl, rfl⟩⟩
  refine ⟨grown, fun depth batch => ?_, fun j m there => ?_, ?_⟩
  · refine ⟨(h.root depth batch).1.mono below kept, fun small => ?_⟩
    obtain ⟨lt, -⟩ := Array.getElem?_eq_some_iff.1 found
    have size : (net.setNode k { n with
        engine := (n.setLedger (n.ledger.extend b)).engine.broadcastBlock b }).nodes.size =
        net.nodes.size := Array.size_setIfInBounds
    rw [size] at small
    omega
  · rcases getElem?_setNode there with ⟨rfl, rfl⟩ | ⟨other, old⟩
    · exact confined_takeJournal producer
    · refine (h.node j m old).mono kept fun admitted => ?_
      exact ⟨admitted.1.mono below kept, fun leads => absurd leads.symm other⟩
  · exact linksHold_foldl_follow k _ producer.sent (h.link.mono kept)

/-- Producing a block makes the chain grow, or breaks nothing. -/
theorem produce (h : Agrees k c net) {n n' : Node} (found : net.nodes[k]? = some n)
    {transactions : List Transaction} {r : Except Refusal Block}
    (done : n.produce transactions = .ok (r, n')) : ∃ c', Agrees k c' (net.setNode k n') := by
  obtain ⟨timestamp, -, done⟩ := Checked.bind_eq_ok_iff.1 done
  obtain ⟨⟨result, ledger⟩, produced, done⟩ := Checked.bind_eq_ok_iff.1 done
  have linear := (h.node k n found).ledger.1.linear
  rcases ChainLedger.Linear.produce_cases linear produced with
    ⟨error, rfl, rfl⟩ | ⟨b, rfl, rfl, fresh, next⟩
  · cases done
    exact ⟨c, h.setNode (h.setLedger found rfl rfl)⟩
  · cases done
    exact ⟨_, h.extend found fresh next⟩

end Agrees

/-- **Whatever happens keeps the agreement**, with the same chain or a longer one. -/
theorem exists_agrees_act {k : Nat} {c : ChainLedger} {net net' : StepNetwork} {a : Act}
    (done : net.act k a = .ok net') (h : Agrees k c net) : ∃ c', Agrees k c' net' := by
  cases a with
  | addNode =>
    obtain ⟨⟨i, net₁⟩, added, done⟩ := Checked.bind_eq_ok_iff.1 done
    cases done
    exact ⟨c, h.addNode added⟩
  | connect a b => exact ⟨c, h.connect done⟩
  | step =>
    obtain ⟨⟨work, net₁⟩, stepped, done⟩ := Checked.bind_eq_ok_iff.1 done
    cases done
    exact ⟨c, h.step stepped⟩
  | submit i t =>
    dsimp only [act] at done
    split at done <;> cases done
    next => exact ⟨c, h⟩
    next n found => exact ⟨c, h.submit found t⟩
  | forbid i hash =>
    dsimp only [act] at done
    split at done <;> cases done
    next => exact ⟨c, h⟩
    next n found => exact ⟨c, h.setNode (h.setLedger found rfl rfl)⟩
  | disconnect i id r =>
    obtain ⟨⟨answer, net₁⟩, performed, done⟩ := Checked.bind_eq_ok_iff.1 done
    cases done
    exact ⟨c, h.perform_quiet rfl performed⟩
  | produce transactions =>
    dsimp only [act] at done
    split at done
    next =>
      cases done
      exact ⟨c, h⟩
    next n found =>
      obtain ⟨⟨r, n'⟩, produced, done⟩ := Checked.bind_eq_ok_iff.1 done
      cases done
      exact h.produce found produced
  | advanceClock ms =>
    cases done
    exact ⟨c, h.advanceClock ms⟩

/-! ## Agreement -/

/-- Whether a block is on its way, or kept by an engine: it is on a link, or an engine caches it,
or it has arrived or waits at an engine. -/
def Carries (net : StepNetwork) (b : Block) : Prop :=
  (∃ (l : Link) (messages : List Message), net.links[l]? = some messages ∧
    Message.block b ∈ messages) ∨
    ∃ (i : Nat) (n : Node), net.nodes[i]? = some n ∧
      ((∃ entry ∈ n.engine.blockCache.entries, entry.value = b) ∨
        (∃ w ∈ n.engine.arrived, w.block = b) ∨
          ∃ (hash : Hash) (w : WaitingBlock), n.engine.waiting[hash]? = some w ∧ w.block = b)

/-- What a network carries that agrees with a chain is on this chain. -/
theorem Agrees.has_of_carries {k : Nat} {c : ChainLedger} {net : StepNetwork}
    (h : Agrees k c net) {b : Block} (carries : net.Carries b) : c.Has b := by
  rcases carries with ⟨l, messages, found, mem⟩ | ⟨i, n, found, held⟩
  · exact h.link l messages found _ mem b (List.mem_singleton.2 rfl)
  · have confined := h.node i n found
    rcases held with ⟨entry, mem, rfl⟩ | ⟨w, mem, rfl⟩ | ⟨hash, w, hw, rfl⟩
    · exact confined.cached entry mem
    · exact confined.arrived w mem
    · exact confined.waiting hash w hw

/-- **Agreement with the producer.**  Whatever happens to a network of which one node produces
blocks, the main chain of every node is a prefix of that of the producer, and every block that is
on a link, that an engine caches, or that waits at an engine is a block of the main chain of the
producer. -/
theorem agreement {config : Config} {solidifyDepth k : Nat} {clock : Clock} {acts : List Act}
    {net : StepNetwork} (done : acts.foldlM (act k) { config, solidifyDepth, clock } = .ok net)
    {producer : Node} (found : net.nodes[k]? = some producer) :
    (∀ (i : Nat) (n : Node), net.nodes[i]? = some n → n.ledger.Below producer.ledger) ∧
      ∀ b, net.Carries b → producer.ledger.Has b := by
  have agrees : ∃ c, Agrees k c net := by
    refine Checked.foldlM_preserves (I := fun net => ∃ c, Agrees k c net) ?_ done
      ⟨_, .start k config solidifyDepth clock⟩
    rintro a - net net' happened ⟨c, h⟩
    exact exists_agrees_act happened h
  obtain ⟨c, agrees⟩ := agrees
  obtain ⟨main, blocks⟩ := (agrees.node k producer found).ledger.2 rfl
  constructor
  · intro i n there
    have below : n.ledger.Below c := (agrees.node i n there).ledger.1.below
    exact below.trans (.of_main main)
  · intro b carries
    exact (agrees.has_of_carries carries).congr main blocks

/-- A block is produced at one of two connected nodes, and fetched by the other one. -/
def relayedOnce : List Act :=
  [.addNode, .addNode, .connect 0 1, .produce [], .step, .step, .step, .step]

/-- The other node caches the block, and it is on the main chain of the producer. -/
theorem agreement_relayedOnce :
    ∃ (net : StepNetwork) (producer n : Node) (b : Block),
      relayedOnce.foldlM (act 0)
          { config := ({} : Config), solidifyDepth := 2, clock := ({} : Clock) } = .ok net ∧
        net.nodes[0]? = some producer ∧ net.nodes[1]? = some n ∧
          n.ledger.Below producer.ledger ∧ net.Carries b ∧ producer.ledger.Has b := by
  have checked : (relayedOnce.foldlM (act 0)
      { config := ({} : Config), solidifyDepth := 2, clock := ({} : Clock) }).toOption.any
      (fun net => (net.nodes[0]?).isSome &&
        (net.nodes[1]?).any fun n => !n.engine.blockCache.entries.isEmpty) = true := by
    decide +kernel
  simp only [Option.any_eq_true, Checked.toOption_eq_some_iff, Bool.and_eq_true,
    Option.isSome_iff_exists, Bool.not_eq_true', List.isEmpty_eq_false_iff_exists_mem] at checked
  obtain ⟨net, done, ⟨producer, found⟩, n, there, entry, mem⟩ := checked
  obtain ⟨below, has⟩ := agreement done found
  have carries : net.Carries entry.value := .inr ⟨1, n, there, .inl ⟨entry, mem, rfl⟩⟩
  exact ⟨net, producer, n, entry.value, done, found, there, below 1 n there, carries, has _ carries⟩

end StepNetwork

end BlockRelay
