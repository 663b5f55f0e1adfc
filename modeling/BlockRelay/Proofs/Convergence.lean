/-
# Catching up converges

Two nodes are connected, and one of them is ahead.  The other one catches up with it in finitely
many steps of the network (`catches_up`).

While it does, one engine leads, the other one trails, and the links carry what the second one
waits for (`StepNetwork.Nears`).  Each step moves one of three heights up, the one up to which the
chain is followed, the one up to which its blocks are in hand, or the head; or what is on the way
gets closer to moving one of them.  So a measure decreases (`Nears.step`), and this goes on until
the reply to the last summary ends the catch-up.
-/
import BlockRelay.Proofs.Beginnings
import BlockRelay.Proofs.Fetching

namespace BlockRelay

open Engine

/-- With room above the end of a summary, or with nothing to announce, the summary is answered, and
nothing else is said. -/
theorem Engine.Leads.answers_quietly {c : ChainLedger} {me : PeerId} {f : Engine ChainLedger}
    {summary : List BlockId} {top : Nat} (h : f.Leads c me) (whole : c.Whole)
    (ends : summary.getLast? = c.main[top]?) (le : top ≤ c.headIndex)
    (fits : c.headIndex + c.batch < wordBound) (hushed : f.spread = ∅ ∨ top < c.headIndex) :
    ∃ ids f₁ f₂, c.idsBeyond summary = .ok ids ∧
      Plays me [.receive me (.summaryRequest summary)]
        [.summaryReply ids (remainingFor c.head summary ids)] f f₁ ∧
      Plays me StepNetwork.chores [] f₁ f₂ ∧ f₂.Leads c me ∧ f₂.spread = ∅ := by
  have size := c.size_main
  obtain ⟨tip, found⟩ : ∃ tip, c.main[top]? = some tip := ⟨_, Array.getElem?_eq_getElem (by omega)⟩
  rw [found] at ends
  obtain ⟨ids, f₁, beyond, plays, leads, spread, needs⟩ := h.answers whole ends found (by omega)
  have quiet : f₁.Hushed := by
    rcases hushed with nothing | more
    · exact .inl (spread.trans nothing)
    · -- an answer with several blocks is not complete
      obtain ⟨high, lt, reach, answer, -⟩ :=
        whole.within.linear.answer_of_more whole.batch ends found more beyond
      refine .inr fun id q hq => ?_
      rw [needs id q hq, answer]
      have length : (c.segment top high).length = high - top := ChainLedger.length_segment reach
      cases segment : c.segment top high with
      | nil =>
        rw [segment, List.length_nil] at length
        omega
      | cons next rest => rfl
  obtain ⟨f₂, rest, leads', silent⟩ := leads.chores quiet
  exact ⟨ids, f₁, f₂, beyond, plays, rest, leads', silent⟩

namespace StepNetwork

/-- How far an engine is from the end of a catch-up: how much of the chain is above each of its
heights. -/
def gap (c : ChainLedger) (e : Engine ChainLedger) (got top : Nat) : Nat :=
  c.headIndex - top + (c.headIndex - got) + (c.headIndex - e.ledger.headIndex)

/-- A network of two nodes of which the second one catches up with the first one.  As long as the
first one has blocks to announce, a summary is on its way to it that it will not answer
completely. -/
structure Nears (c : ChainLedger) (net : StepNetwork) (f e : Engine ChainLedger) (p : Peer)
    (got asked top : Nat) (down up : List Message) (rank : Nat) : Prop where
  pair : Pair net 0 1 f e down up
  leads : f.Leads c (Node.peerAt 1)
  trails : e.Trails c (Node.peerAt 0) p got asked top
  alert : e.Alert got
  flow : Flow c p got asked e down up rank
  hushed : f.spread = ∅ ∨ up ≠ [] ∧ got = asked ∧ top < c.headIndex

/-- A network of two nodes of which the second one has not caught up with the first one yet.  The
measure `m` bounds the number of steps that it takes. -/
def CatchesUp (c : ChainLedger) (m : Nat) (net : StepNetwork) : Prop :=
  ∃ f e p got asked top down up rank, Nears c net f e p got asked top down up rank ∧
    m = 4 * gap c e got top + rank

/-- A network of two connected nodes of which the second one has caught up with the first one. -/
def CaughtUp (c : ChainLedger) (net : StepNetwork) : Prop :=
  ∃ f e p down up, Pair net 0 1 f e down up ∧ f.ledger = c ∧
    e.ledger.head.number.toNat = c.headIndex ∧ e.peers[Node.peerAt 0]? = some p ∧
      p.phase = .caughtUp

variable {c : ChainLedger} {net : StepNetwork} {f e e₁ : Engine ChainLedger} {p p₁ : Peer}
  {got asked top rank : Nat} {down up said : List Message}

/-- **A step in which the first node answers.**  The second node hears what was on its way to it,
and waits from then on; what it waits for is on its way after the step. -/
theorem Pair.step_of_answered {f₁ f₂ : Engine ChainLedger} {back : List Message}
    (h : Pair net 0 1 f e down up) (goesOn : ∀ m ∈ down ++ (up ++ said), m.isDisconnect = false)
    (hears : Plays (Node.peerAt 0) (down.map (.receive (Node.peerAt 0))) said e e₁)
    (answers : Plays (Node.peerAt 1) ((up ++ said).map (.receive (Node.peerAt 1))) back f f₁)
    (rest : Plays (Node.peerAt 1) StepNetwork.chores [] f₁ f₂) (leads : f₂.Leads c (Node.peerAt 1))
    (silent : f₂.spread = ∅) (trails : e₁.Trails c (Node.peerAt 0) p₁ got asked top)
    (busy : p₁.isBusy = true) (alert : e₁.Alert got)
    (flow : ∀ (p' : Peer) (e' : Engine ChainLedger), p'.summary = p₁.summary →
      Flow c p' got asked e' back [] 0) :
    ∃ work net' m, net.step = .ok (work, net') ∧ CatchesUp c m net' ∧ m ≤ 4 * gap c e₁ got top := by
  obtain ⟨e₂, p₂, done, trails', same, le, alert'⟩ := trails.chores_of_isBusy busy alert
  obtain ⟨work, net', stepped, pair⟩ := h.step goesOn hears answers rest done
  rw [List.append_nil] at pair
  refine ⟨work, net', _, stepped, ⟨f₂, e₂, p₂, got, asked, top, _, _, 0, ⟨pair, leads, trails',
    alert', flow p₂ e₂ same, .inl silent⟩, rfl⟩, ?_⟩
  unfold gap
  omega

/-- **A step in which the second node hears something, or nothing.**  It is not waiting then, or it
has sent a summary, which the first node answers in the same step. -/
theorem Pair.step_of_heard (h : Pair net 0 1 f e down []) (leads : f.Leads c (Node.peerAt 1))
    (silent : f.spread = ∅) (goesOn : ∀ m ∈ down, m.isDisconnect = false)
    (hears : Plays (Node.peerAt 0) (down.map (.receive (Node.peerAt 0))) said e e₁)
    (trails : e₁.Trails c (Node.peerAt 0) p₁ got got top) (alert : e₁.Alert got)
    (free : p.summary = none) (asks : p.Asks p₁ said) :
    ∃ work net' m, net.step = .ok (work, net') ∧ CatchesUp c m net' ∧
      m < 4 * gap c e₁ got top + if e₁.suspended then 3 else 2 := by
  have low : 2 ≤ if e₁.suspended then 3 else 2 := by split <;> omega
  rcases asks with ⟨rfl, same⟩ | ⟨-, s, awaited, rfl⟩
  · -- nothing was said, and the second node does its chores
    obtain ⟨f₂, rest, leads', silent'⟩ := leads.chores (.inl silent)
    obtain ⟨e₂, p₂, asked', said, rank, chores, trails', alert', le, flow, few, lt⟩ :=
      trails.chores_of_free (same.trans free) rfl alert
    obtain ⟨work, net', done, pair⟩ := h.step (by simpa using goesOn) hears .nil rest chores
    refine ⟨work, net', _, done, ⟨f₂, e₂, p₂, got, asked', top, _, _, rank, ⟨pair, leads', trails',
      alert', flow, .inl silent'⟩, rfl⟩, ?_⟩
    have high := trails.pursues.high
    have top_le' := trails'.top_le
    have got_le' := trails'.got_le
    have asked_le' := trails'.asked_le
    unfold gap
    by_cases stays : e₂.ledger.headIndex = e₁.ledger.headIndex
    · have fewer := lt stays
      omega
    · omega
  · -- the summary is answered
    obtain ⟨ends, -, -⟩ := trails.awaits s awaited
    obtain ⟨ids, f₁, f₂, beyond, answers, rest, leads', silent'⟩ := leads.answers_quietly
      trails.steady.whole ends trails.pursues.high trails.steady.fits (.inl silent)
    obtain ⟨work, net', m, done, nears, less⟩ := h.step_of_answered
      (List.forall_mem_append.2 ⟨goesOn, by simp [Message.isDisconnect]⟩) hears answers rest leads'
      silent' trails (trails.toChases.isBusy_iff.2 (.inl (by rw [awaited]; rfl))) alert
      fun p' e' same => .told (same.trans awaited) beyond
    exact ⟨work, net', m, done, nears, by omega⟩

/-- **The end of a catch-up.**  In the step in which the last reply is received, nothing else
happens. -/
theorem Pair.step_of_level {s : SummaryRequest} {ids : List BlockId}
    (h : Pair net 0 1 f e [.summaryReply ids (remainingFor c.head s.ids ids)] [])
    (leads : f.Leads c (Node.peerAt 1)) (silent : f.spread = ∅)
    (trails : e.Trails c (Node.peerAt 0) p got asked top) (awaited : p.summary = some s)
    (level : top = c.headIndex) (answered : c.idsBeyond s.ids = .ok ids) :
    ∃ work net', net.step = .ok (work, net') ∧ CaughtUp c net' := by
  have reached : e.ledger.headIndex = c.headIndex := by
    obtain ⟨-, -, more⟩ := trails.awaits s awaited
    omega
  obtain ⟨f₂, rest, leads', -⟩ := leads.chores (.inl silent)
  obtain ⟨e₁, done, utters, same, head, peers⟩ :=
    trails.receiveReply_of_level awaited level answered
  have got_le : got ≤ e₁.ledger.headIndex := by
    have asked_le := trails.asked_le
    have top_le := trails.top_le
    omega
  have steady : e₁.takeJournal.2.Steady c (Node.peerAt 0) got asked :=
    (trails.steady.congr same).congr (by constructor <;> rfl)
  obtain ⟨e₂, chores, ledger, records⟩ := steady.chores_of_level got_le fun other q hq => by
    change e₁.peers[other]? = some q at hq
    rw [peers] at hq
    split at hq
    · cases hq
      rfl
    next ne => exact absurd (trails.only other q hq) ne
  obtain ⟨work, net', stepped, pair⟩ := h.step (by simp [Message.isDisconnect])
    (.one done utters) .nil rest chores
  refine ⟨work, net', stepped, f₂, e₂, { p with
    summary := none
    needFromPeer := false
    phase := .caughtUp }, _, _, pair, leads'.ledger, ?_, ?_, rfl⟩
  · have linear : e₂.ledger.Linear := by
      rw [ledger]
      exact steady.within.linear
    rw [linear.head_height, ← ChainLedger.headIndex, ledger]
    exact head
  · rw [records]
    show e₁.peers[_]? = _
    rw [peers, if_pos rfl]

/-- **One step.**  The catch-up ends, or gets closer to its end. -/
theorem Nears.step (h : Nears c net f e p got asked top down up rank) :
    ∃ work net', net.step = .ok (work, net') ∧
      (CaughtUp c net' ∨ ∃ m, CatchesUp c m net' ∧ m < 4 * gap c e got top + rank) := by
  obtain ⟨pair, leads, trails, alert, flow, hushed⟩ := h
  have whole := trails.steady.whole
  have top_le := trails.top_le
  have high := trails.pursues.high
  have silent (nothing : up = []) : f.spread = ∅ :=
    hushed.resolve_right fun more => more.1 nothing
  have slow (engine : Engine ChainLedger) : (if engine.suspended then 3 else 2) ≤ 3 := by
    split <;> omega
  cases flow with
  | @asking s awaited =>
    obtain ⟨ends, -, -⟩ := trails.awaits s awaited
    obtain ⟨ids, f₁, f₂, beyond, answers, rest, leads', silent'⟩ :=
      leads.answers_quietly whole ends high trails.steady.fits (hushed.imp_right (·.2.2))
    obtain ⟨work, net', m, done, nears, less⟩ := pair.step_of_answered
      (by simp [Message.isDisconnect]) .nil answers rest leads' silent' trails
      (trails.toChases.isBusy_iff.2 (.inl (by rw [awaited]; rfl))) alert
      fun p' e' same => .told (same.trans awaited) beyond
    exact ⟨work, net', done, .inr ⟨m, nears, by omega⟩⟩
  | @told s ids awaited answered =>
    by_cases level : top = c.headIndex
    · obtain ⟨work, net', done, finished⟩ :=
        pair.step_of_level leads (silent rfl) trails awaited level answered
      exact ⟨work, net', done, .inl finished⟩
    · obtain ⟨-, rfl, -⟩ := trails.awaits s awaited
      obtain ⟨e₁, p₁, top', said, done, trails', lt, utters, asks, calm⟩ :=
        trails.receiveReply_of_more awaited (by omega) answered
      obtain ⟨work, net', m, done, nears, less⟩ := pair.step_of_heard leads (silent rfl)
        (by simp [Message.isDisconnect]) (.one done utters) trails'.takeJournal
        (calm.alert alert) rfl asks
      refine ⟨work, net', done, .inr ⟨m, nears, ?_⟩⟩
      have slow := slow e₁.takeJournal.2
      have head : e₁.takeJournal.2.ledger.headIndex = e.ledger.headIndex := calm.head
      unfold gap at *
      omega
  | fetching lt =>
    have on : ∀ id ∈ c.segment got asked, id ∈ c.main := fun id mem => by
      obtain ⟨i, -, -, found⟩ := ChainLedger.mem_segment.1 mem
      exact Array.mem_of_getElem? found
    have silent : f.spread = ∅ := hushed.resolve_right fun more => Nat.ne_of_lt lt more.2.1
    obtain ⟨blocks, f₁, named, has, serves, leads₁, spread⟩ := leads.serves whole on
    obtain ⟨f₂, rest, leads', silent'⟩ := leads₁.chores (.inl (spread.trans silent))
    obtain ⟨work, net', m, done, nears, less⟩ := pair.step_of_answered
      (by simp [Message.isDisconnect]) .nil serves rest leads' silent' trails
      (trails.toChases.isBusy_iff.2 (.inr lt)) alert fun p' e' same => .delivered lt named has
    exact ⟨work, net', done, .inr ⟨m, nears, by omega⟩⟩
  | @delivered blocks lt named has =>
    obtain ⟨e₁, p₁, said, hears, trails', asks, alert', ledger⟩ :=
      trails.receiveBlocks named has alert
    obtain ⟨work, net', m, done, nears, less⟩ := pair.step_of_heard leads (silent rfl)
      (fun m mem => by
        obtain ⟨b, -, rfl⟩ := List.mem_map.1 mem
        rfl) hears trails' alert' (trails.free_of_lt lt) asks
    refine ⟨work, net', done, .inr ⟨m, nears, ?_⟩⟩
    have slow := slow e₁
    unfold gap at *
    rw [ledger] at less
    omega
  | resting free all =>
    subst all
    obtain ⟨work, net', m, done, nears, less⟩ := pair.step_of_heard leads (silent rfl)
      (fun m mem => by cases mem) .nil trails alert free (.inl ⟨rfl, rfl⟩)
    exact ⟨work, net', done, .inr ⟨m, nears, less⟩⟩

/-- **Convergence.**  After finitely many steps the second node has caught up with the first one. -/
theorem CatchesUp.converges {m : Nat} (h : CatchesUp c m net) :
    ∃ k net', (List.replicate k Act.step).foldlM (act 0) net = .ok net' ∧ CaughtUp c net' := by
  induction m using Nat.strongRecOn generalizing net with
  | ind m ih =>
    obtain ⟨f, e, p, got, asked, top, down, up, rank, nears, rfl⟩ := h
    obtain ⟨work, net₁, stepped, outcome⟩ := nears.step
    have first : act 0 net .step = .ok net₁ := Checked.bind_eq_ok_iff.2 ⟨_, stepped, rfl⟩
    obtain ⟨k, net', later, finished⟩ : ∃ k net',
        (List.replicate k Act.step).foldlM (act 0) net₁ = .ok net' ∧ CaughtUp c net' := by
      rcases outcome with finished | ⟨m, nears', less⟩
      · exact ⟨0, net₁, rfl, finished⟩
      · exact ih m less nears'
    refine ⟨k + 1, net', ?_, finished⟩
    rw [List.replicate_succ, List.foldlM_cons]
    exact Checked.bind_eq_ok_iff.2 ⟨net₁, first, later⟩

/-! ## From the beginning -/

/-- A producer and a newcomer are connected, whichever of them is named first. -/
theorem Pair.connect_either {f e : Engine ChainLedger} {down up : List Message} {a b : Nat}
    (nodes : net.nodes = #[⟨Node.peerAt 0, f⟩, ⟨Node.peerAt 1, e⟩])
    (unlinked : ∀ l : Link, net.links[l]? = none) (ends : a = 0 ∧ b = 1 ∨ a = 1 ∧ b = 0)
    (greets : (f.openSession (Node.peerAt 1)).Utters (Node.peerAt 1) down
      (f.register (Node.peerAt 1) e.ledger.head.number))
    (answers : (e.openSession (Node.peerAt 0)).Utters (Node.peerAt 0) up
      (e.register (Node.peerAt 0) f.ledger.head.number))
    (taken : f.journal = [] ∧ e.journal = []) :
    ∃ net', net.connect a b = .ok net' ∧
      Pair net' 0 1 (f.register (Node.peerAt 1) e.ledger.head.number).takeJournal.2
        (e.register (Node.peerAt 0) f.ledger.head.number).takeJournal.2 down up := by
  have size : net.nodes.size = 2 := by rw [nodes]; rfl
  have first : net.nodes[0]? = some ⟨Node.peerAt 0, f⟩ := by rw [nodes]; rfl
  have second : net.nodes[1]? = some ⟨Node.peerAt 1, e⟩ := by rw [nodes]; rfl
  rcases ends with ⟨rfl, rfl⟩ | ⟨rfl, rfl⟩
  · exact Pair.connect (.inl ⟨rfl, rfl⟩) size first second unlinked greets answers taken
  · obtain ⟨net', done, pair⟩ := Pair.connect (.inr ⟨rfl, rfl⟩) size second first unlinked answers
      greets taken.symm
    exact ⟨net', done, pair.symm⟩

/-- **A producer and a newcomer are connected.**  The newcomer has nothing to catch up with, or is
about to catch up. -/
theorem connects {f e : Engine ChainLedger} {config : Config} {solidifyDepth n a b : Nat}
    {clock : Clock} (net : StepNetwork)
    (nodes : net.nodes = #[⟨Node.peerAt 0, f⟩, ⟨Node.peerAt 1, e⟩])
    (unlinked : ∀ l : Link, net.links[l]? = none) (alone : f.Alone config solidifyDepth clock n)
    (started : Engine.start config
      (ChainLedger.ofGenesis (.genesis 0) solidifyDepth config.sync.batch) clock = .ok e)
    (ample : config.Ample clock.wall n) (ends : a = 0 ∧ b = 1 ∨ a = 1 ∧ b = 0) :
    ∃ net', net.connect a b = .ok net' ∧
      (CaughtUp f.ledger net' ∨ ∃ m, CatchesUp f.ledger m net') := by
  have fresh := Engine.alone_of_start started
  have low : e.ledger.head.number.toNat ≤ n := by
    rw [fresh.linear.head_height, ← ChainLedger.headIndex, fresh.height]
    exact Nat.zero_le n
  have height := alone.height
  obtain ⟨leads, greets, -⟩ := alone.leads (Node.peerAt 1) low
  rcases Nat.eq_zero_or_pos n with nothing | more
  · -- both are at the genesis block
    have same : f.ledger.head.number.toNat ≤ 0 := by
      rw [alone.linear.head_height, ← ChainLedger.headIndex]
      omega
    obtain ⟨leads', answers, p, hp, done⟩ := fresh.leads (Node.peerAt 0) same
    obtain ⟨net', connected, pair⟩ :=
      Pair.connect_either nodes unlinked ends greets answers ⟨alone.taken, fresh.taken⟩
    refine ⟨net', connected, .inl ⟨_, _, p, _, _, pair, leads.ledger, ?_, hp, done⟩⟩
    rw [leads'.ledger, fresh.linear.head_height, ← ChainLedger.headIndex, fresh.height, height,
      nothing]
  · obtain ⟨p, s, trails, awaited, answers, alert⟩ := Engine.trails_of_start started alone.calls
      (height.symm ▸ ample) (by omega) (Node.peerAt 0)
    obtain ⟨net', connected, pair⟩ :=
      Pair.connect_either nodes unlinked ends greets answers ⟨alone.taken, fresh.taken⟩
    refine ⟨net', connected, .inr ⟨_, _, _, p, 0, 0, 0, _, _, _, ⟨pair, leads, trails, alert,
      .asking awaited, .inr ⟨List.cons_ne_nil _ _, rfl, by omega⟩⟩, rfl⟩⟩

/-- What can be seen of a network in which the second node has caught up. -/
theorem CaughtUp.visible (h : CaughtUp c net) (linear : c.Linear) :
    net.heads.map UInt64.toNat = [c.headIndex, c.headIndex] ∧
      net.connected 0 1 = true ∧ net.connected 1 0 = true ∧
      ∃ node p, net.nodes[1]? = some node ∧ node.engine.peers[Node.peerAt 0]? = some p ∧
        p.phase = .caughtUp := by
  obtain ⟨f, e, p, down, up, pair, rfl, level, hp, done⟩ := h
  have nodes : net.nodes = #[⟨Node.peerAt 0, f⟩, ⟨Node.peerAt 1, e⟩] := by
    refine Array.ext_getElem? fun i => ?_
    match i with
    | 0 => exact pair.here
    | 1 => exact pair.there
    | i + 2 =>
      have size := pair.size
      rw [Array.getElem?_eq_none (by omega)]
      rfl
  refine ⟨?_, ?_, ?_, ⟨Node.peerAt 1, e⟩, p, pair.there, hp, done⟩
  · rw [heads, Array.toList_map, nodes]
    show [f.ledger.head.number.toNat, e.ledger.head.number.toNat] = _
    rw [level, linear.head_height]
    rfl
  · rw [connected, Std.TreeMap.contains_eq_isSome_getElem?, pair.links]
    rfl
  · rw [connected, Std.TreeMap.contains_eq_isSome_getElem?, pair.links]
    rfl

/-- **A late node catches up.**  One node produces blocks, before and after another one is added,
and the network makes steps in between, or none; then the two are connected, and nothing happens any
more but steps.  If the limits of the configuration are ample for these blocks, then after finitely
many steps both chains have all of them, the nodes are still connected, and the second one has
caught up with the first one. -/
theorem catches_up {config : Config} {solidifyDepth n a b : Nat} {clock : Clock}
    (early late : List Act) (solitary : ∀ act ∈ early ++ late, act.isSolitary = true)
    (produced : (early ++ late).countP Act.isProduce = n)
    (started : start config solidifyDepth 1 clock = .ok net) (ample : config.Ample clock.wall n)
    (ends : a = 0 ∧ b = 1 ∨ a = 1 ∧ b = 0) :
    ∃ k net', ((early ++ Act.addNode :: late) ++
        Act.connect a b :: List.replicate k Act.step).foldlM (act 0) net = .ok net' ∧
      net'.heads.map UInt64.toNat = [n, n] ∧
      net'.connected 0 1 = true ∧ net'.connected 1 0 = true ∧
      ∃ node p, net'.nodes[1]? = some node ∧ node.engine.peers[Node.peerAt 0]? = some p ∧
        p.phase = .caughtUp := by
  have small := ample.small
  have wall : clock.wallTime < 2 ^ 62 := Nat.lt_of_le_of_lt (Nat.mod_le ..) ample.wall
  have word : wordBound = 2 ^ 64 := rfl
  obtain ⟨e, f, begun, alone, prepared⟩ := produces_late early late solitary started (by omega)
  rw [produced] at alone
  obtain ⟨net₁, connected, outcome⟩ := connects
    { config, solidifyDepth, clock, nodes := #[⟨Node.peerAt 0, f⟩, ⟨Node.peerAt 1, e⟩] } rfl
    (fun _ => Std.TreeMap.getElem?_emptyc) alone begun ample ends
  obtain ⟨k, net', stepped, finished⟩ : ∃ k net',
      (List.replicate k Act.step).foldlM (act 0) net₁ = .ok net' ∧ CaughtUp f.ledger net' := by
    rcases outcome with finished | ⟨m, nears⟩
    · exact ⟨0, net₁, rfl, finished⟩
    · exact nears.converges
  refine ⟨k, net', ?_, alone.height ▸ finished.visible alone.linear⟩
  rw [List.foldlM_append]
  exact Checked.bind_eq_ok_iff.2 ⟨_, prepared, Checked.bind_eq_ok_iff.2 ⟨_, connected, stepped⟩⟩

/-- Limits that take many rounds: a reply adds three blocks, two are asked for at a time, and one is
applied in a turn, while no second one may wait. -/
def tightLimits : Config where
  sync := { batch := 3, maxPerPeer := 2, applyBudget := 1, backlogCap := 1 }

/-- Four blocks, and a step after each of them. -/
def fourWithSteps : List Act :=
  [.produce [], .step, .produce [], .step, .produce [], .step, .produce [], .step]

/-- Under tight limits, ten blocks are caught up with, of which four were followed by steps. -/
theorem catches_up_under_tightLimits :
    ∃ net k net', start tightLimits 2 1 ⟨0, 9000⟩ = .ok net ∧
      (∀ act ∈ fourWithSteps ++ List.replicate 6 (Act.produce []), act.isSolitary = true) ∧
      (fourWithSteps ++ List.replicate 6 (Act.produce [])).countP Act.isProduce = 10 ∧
      tightLimits.Ample 9000 10 ∧
      ((fourWithSteps ++ Act.addNode :: List.replicate 6 (Act.produce [])) ++
          Act.connect 1 0 :: List.replicate k Act.step).foldlM (act 0) net = .ok net' ∧
      net'.heads.map UInt64.toNat = [10, 10] ∧
      net'.connected 0 1 = true ∧ net'.connected 1 0 = true ∧
      ∃ node p, net'.nodes[1]? = some node ∧ node.engine.peers[Node.peerAt 0]? = some p ∧
        p.phase = .caughtUp := by
  obtain ⟨net, started⟩ : ∃ net, start tightLimits 2 1 ⟨0, 9000⟩ = .ok net := ⟨_, rfl⟩
  have solitary : ∀ act ∈ fourWithSteps ++ List.replicate 6 (Act.produce []),
      act.isSolitary = true := by
    rw [← List.all_eq_true]
    rfl
  have produced :
      (fourWithSteps ++ List.replicate 6 (Act.produce [])).countP Act.isProduce = 10 := rfl
  have ample : tightLimits.Ample 9000 10 :=
    ⟨by decide, by decide, by decide, by decide, by decide, by decide, by decide⟩
  obtain ⟨k, net', done, visible⟩ := catches_up fourWithSteps (List.replicate 6 (Act.produce []))
    solitary produced started ample (.inr ⟨rfl, rfl⟩)
  exact ⟨net, k, net', started, solitary, produced, ample, done, visible⟩

end StepNetwork

end BlockRelay
