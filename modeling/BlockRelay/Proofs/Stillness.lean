/-
# Steps without work

A network reports that it is quiet when one step has done no work.  In such a step no message is
delivered, no head moves, and every node has a turn without work (`StepNetwork.QuietStep`).  But
only work is counted, and a turn without work may leave an engine poised to ask for blocks.

So the network rests after the step, and all further steps do no work either
(`StepNetwork.Rests`), exactly if no engine is poised (`rests_after_quiet_iff`).  A second step
without work shows it.  One such step does not (`restless_after_quiet`): where few blocks may wait
at a time, the suspension is lifted only after the turn at asking for blocks, and the next step asks
for more.
-/
import BlockRelay.Proofs.Agreement
import BlockRelay.Proofs.Turns

namespace BlockRelay

/-- The number in an accumulator only grows in a fold of which each step makes it grow. -/
theorem Checked.le_foldlM {α β : Type} {f : Nat × β → α → Checked (Nat × β)}
    (grows : ∀ {acc acc' : Nat × β} {a : α}, f acc a = .ok acc' → acc.1 ≤ acc'.1) {list : List α}
    {acc acc' : Nat × β} (done : list.foldlM f acc = .ok acc') : acc.1 ≤ acc'.1 :=
  foldlM_preserves (I := fun b => acc.1 ≤ b.1) (fun _ _ _ _ first le => le.trans (grows first)) done
    (Nat.le_refl _)

/-- A growing fold ends with zero exactly if each of its steps does. -/
theorem Checked.foldlM_cons_eq_zero_iff {α β : Type} {f : Nat × β → α → Checked (Nat × β)}
    (grows : ∀ {acc acc' : Nat × β} {a : α}, f acc a = .ok acc' → acc.1 ≤ acc'.1) {a : α}
    {rest : List α} {b b' : β} :
    (a :: rest).foldlM f (0, b) = .ok (0, b') ↔
      ∃ b₁, f (0, b) a = .ok (0, b₁) ∧ rest.foldlM f (0, b₁) = .ok (0, b') := by
  rw [List.foldlM_cons, bind_eq_ok_iff]
  constructor
  · rintro ⟨⟨n, b₁⟩, first, later⟩
    obtain rfl : n = 0 := Nat.le_zero.1 (le_foldlM grows later)
    exact ⟨b₁, first, later⟩
  · rintro ⟨b₁, first, later⟩
    exact ⟨_, first, later⟩

namespace StepNetwork

variable {net net₁ net' : StepNetwork} {i : Nat} {n : Node}

/-! ## Journals that are taken -/

/-- Whether the journals of all nodes are on the links already. -/
def Taken (net : StepNetwork) : Prop :=
  ∀ (i : Nat) (n : Node), net.nodes[i]? = some n → n.engine.journal = []

namespace Taken

/-- The journal of a node is taken when the node is put in its place. -/
theorem setNode (h : net.Taken) (i : Nat) (n : Node) : (net.setNode i n).Taken := by
  intro j m found
  rcases getElem?_setNode found with ⟨-, rfl⟩ | ⟨-, old⟩
  · rfl
  · exact h j m old

/-- The links have nothing to do with journals. -/
theorem setLinks (h : net.Taken) (links : Std.TreeMap Link (List Message)) :
    Taken { net with links } := h

/-- A node without a journal may be put in its place. -/
theorem place (h : net.Taken) (taken : n.engine.journal = []) (i : Nat) :
    (net.place i n).Taken := by
  rw [← setNode_of_taken taken]
  exact h.setNode i n

/-- An operation leaves no journal behind. -/
theorem perform (h : net.Taken) {op : Operation} {answer : Outcome}
    (done : net.perform i op = .ok (answer, net')) : net'.Taken := by
  unfold StepNetwork.perform at done
  split at done
  next =>
    cases done
    exact h
  next =>
    obtain ⟨⟨outcome, engine⟩, -, done⟩ := Checked.bind_eq_ok_iff.1 done
    cases done
    exact h.setNode i _

/-- Delivering messages leaves no journal behind. -/
theorem deliver {l : Link} {messages : List Message} (h : net.Taken)
    (done : StepNetwork.deliver l messages net = .ok net') : net'.Taken := by
  induction messages generalizing net with
  | nil =>
    cases done
    exact h
  | cons m rest ih =>
    obtain ⟨⟨_, net₁⟩, received, done⟩ := Checked.bind_eq_ok_iff.1 done
    have first := h.perform received
    dsimp only at done
    split at done
    · obtain ⟨⟨_, net₂⟩, lost, done⟩ := Checked.bind_eq_ok_iff.1 done
      cases done
      exact (first.setLinks _).perform lost
    · exact ih first done

/-- Delivering what is on a link leaves no journal behind. -/
theorem drainLink (h : net.Taken) {l : Link} {work : Nat}
    (done : net.drainLink l = .ok (work, net')) : net'.Taken := by
  unfold StepNetwork.drainLink at done
  split at done
  · cases done
    exact h
  · obtain ⟨net₁, delivered, done⟩ := Checked.bind_eq_ok_iff.1 done
    cases done
    exact (h.setLinks _).deliver delivered

/-- A step leaves no journal behind. -/
theorem step (h : net.Taken) {work : Nat} (done : net.step = .ok (work, net')) : net'.Taken := by
  obtain ⟨⟨delivered, net₁⟩, drained, done⟩ := Checked.bind_eq_ok_iff.1 done
  have first : net₁.Taken := by
    refine Checked.foldlM_preserves (I := fun acc => acc.2.Taken) ?_ drained h
    rintro l - ⟨_, net⟩ ⟨_, net'⟩ done here
    obtain ⟨⟨n, net₂⟩, delivered, done⟩ := Checked.bind_eq_ok_iff.1 done
    cases done
    exact here.drainLink delivered
  refine Checked.foldlM_preserves (I := fun acc => acc.2.Taken) ?_ done first
  rintro i - ⟨_, net⟩ ⟨_, net'⟩ done here
  refine Checked.foldlM_preserves (I := fun acc => acc.2.Taken) ?_ done here
  rintro op - ⟨_, net⟩ ⟨_, net'⟩ done here
  obtain ⟨⟨answer, net₂⟩, performed, done⟩ := Checked.bind_eq_ok_iff.1 done
  have after := here.perform performed
  cases answer <;> cases done <;> exact after

/-- Whatever happens leaves no journal behind. -/
theorem act (h : net.Taken) {k : Nat} {a : Act} (done : net.act k a = .ok net') : net'.Taken := by
  cases a with
  | addNode =>
    obtain ⟨⟨_, net₁⟩, added, done⟩ := Checked.bind_eq_ok_iff.1 done
    cases done
    obtain ⟨n, launched, added⟩ := Checked.bind_eq_ok_iff.1 added
    obtain ⟨engine, started, eq⟩ := Checked.bind_eq_ok_iff.1 launched
    obtain ⟨slots, -, fresh⟩ := Checked.bind_eq_ok_iff.1 started
    cases fresh
    cases eq
    cases added
    intro j m found
    rw [Array.getElem?_push] at found
    split at found
    · cases found
      rfl
    · exact h j m found
  | connect a b =>
    dsimp only [StepNetwork.act] at done
    unfold StepNetwork.connect at done
    split at done
    · obtain ⟨⟨_, net₁⟩, first, done⟩ := Checked.bind_eq_ok_iff.1 done
      obtain ⟨⟨_, net₂⟩, second, done⟩ := Checked.bind_eq_ok_iff.1 done
      cases done
      exact (h.perform first).perform second
    · cases done
      exact h
  | step =>
    obtain ⟨⟨_, net₁⟩, stepped, done⟩ := Checked.bind_eq_ok_iff.1 done
    cases done
    exact h.step stepped
  | submit i t =>
    dsimp only [StepNetwork.act] at done
    split at done <;> cases done
    · exact h
    · exact h.setNode i _
  | forbid i hash =>
    dsimp only [StepNetwork.act] at done
    split at done <;> cases done
    · exact h
    · exact h.setNode i _
  | disconnect i id r =>
    obtain ⟨⟨_, net₁⟩, performed, done⟩ := Checked.bind_eq_ok_iff.1 done
    cases done
    exact h.perform performed
  | produce transactions =>
    dsimp only [StepNetwork.act] at done
    split at done
    · cases done
      exact h
    · obtain ⟨⟨_, n'⟩, -, done⟩ := Checked.bind_eq_ok_iff.1 done
      cases done
      exact h.setNode k _
  | advanceClock ms =>
    cases done
    intro j m found
    rw [StepNetwork.advanceClock, Array.getElem?_map, Option.map_eq_some_iff] at found
    obtain ⟨n, found, rfl⟩ := found
    exact h j n found

end Taken

/-- The networks that are reached from one without nodes: anything may happen to them, with any
node as the producer, and any operation may be carried out on the engine of a node. -/
inductive Reached (config : Config) (solidifyDepth : Nat) (clock : Clock) :
    StepNetwork → Prop where
  | start : Reached config solidifyDepth clock { config, solidifyDepth, clock }
  | act {net net' : StepNetwork} {k : Nat} {a : Act} : Reached config solidifyDepth clock net →
    net.act k a = .ok net' → Reached config solidifyDepth clock net'
  | perform {net net' : StepNetwork} {i : Nat} {op : Operation} {answer : Outcome} :
    Reached config solidifyDepth clock net → net.perform i op = .ok (answer, net') →
      Reached config solidifyDepth clock net'

/-- No journal is left in a network that is reached. -/
theorem Reached.taken {config : Config} {solidifyDepth : Nat} {clock : Clock}
    (h : Reached config solidifyDepth clock net) : net.Taken := by
  induction h with
  | start =>
    intro i n found
    simp at found
  | act _ done ih => exact ih.act done
  | perform _ done ih => exact ih.perform done

/-- A step leads from one network that is reached to another. -/
theorem Reached.step {config : Config} {solidifyDepth : Nat} {clock : Clock} {work : Nat}
    (h : Reached config solidifyDepth clock net) (done : net.step = .ok (work, net')) :
    Reached config solidifyDepth clock net' :=
  h.act (k := 0) (a := .step) (Checked.bind_eq_ok_iff.2 ⟨_, done, rfl⟩)

/-- What may happen one after the other leads from one network that is reached to another. -/
theorem Reached.acts {config : Config} {solidifyDepth : Nat} {clock : Clock} {k : Nat}
    {acts : List Act} (h : Reached config solidifyDepth clock net)
    (done : acts.foldlM (StepNetwork.act k) net = .ok net') :
    Reached config solidifyDepth clock net' :=
  Checked.foldlM_preserves (fun _ _ _ _ happens here => here.act happens) done h

/-! ## The messages of a quiet step -/

/-- Whether nothing is queued on a link. -/
def Empty (net : StepNetwork) (l : Link) : Prop :=
  ∀ messages, net.links[l]? = some messages → messages = []

/-- Only the content of the links matters. -/
theorem Empty.congr {l : Link} (h : net.Empty l) (same : net'.links[l]? = net.links[l]?) :
    net'.Empty l := fun messages found => h messages (same ▸ found)

/-- Delivering no message empties a link that was empty, and changes nothing. -/
theorem drainLink_eq_zero {l : Link} (done : net.drainLink l = .ok (0, net')) :
    net.Empty l ∧ ∃ links, net' = { net with links } ∧ ∀ l : Link, links[l]? = net.links[l]? := by
  unfold drainLink at done
  split at done
  next none =>
    cases done
    exact ⟨fun messages found => absurd (none.symm.trans found) nofun, _, rfl, fun _ => rfl⟩
  next batch found =>
    obtain ⟨net₁, delivered, done⟩ := Checked.bind_eq_ok_iff.1 done
    obtain ⟨count, rfl⟩ := Prod.mk.inj (Except.ok.inj done)
    obtain rfl := List.length_eq_zero_iff.1 count
    cases delivered
    refine ⟨fun messages there => Option.some.inj (there.symm.trans found), _, rfl, fun other => ?_⟩
    rw [Std.TreeMap.getElem?_insert]
    split
    next same => rw [← Std.LawfulEqCmp.eq_of_compare same, found]
    next => rfl

/-- From an empty link no message is delivered. -/
theorem drainLink_of_empty {l : Link} (h : net.Empty l) :
    ∃ net', net.drainLink l = .ok (0, net') := by
  unfold drainLink
  split
  next => exact ⟨_, rfl⟩
  next batch found =>
    obtain rfl := h batch found
    exact ⟨_, rfl⟩

/-- Deliver everything that is queued on a link, and add how much it was. -/
def drain (acc : Nat × StepNetwork) (l : Link) : Checked (Nat × StepNetwork) := do
  let (n, net) ← acc.2.drainLink l
  return (acc.1 + n, net)

/-- What is delivered is added. -/
theorem le_drain {acc acc' : Nat × StepNetwork} {l : Link} (done : drain acc l = .ok acc') :
    acc.1 ≤ acc'.1 := by
  obtain ⟨⟨n, net⟩, -, done⟩ := Checked.bind_eq_ok_iff.1 done
  cases done
  exact Nat.le_add_right ..

/-- If nothing is added, nothing is delivered. -/
theorem drain_eq_zero_iff {l : Link} :
    drain (0, net) l = .ok (0, net') ↔ net.drainLink l = .ok (0, net') := by
  unfold drain
  rw [Checked.bind_eq_ok_iff]
  simp only [Nat.zero_add]
  constructor
  · rintro ⟨⟨n, net⟩, drained, done⟩
    cases done
    exact drained
  · exact fun drained => ⟨_, drained, rfl⟩

/-- If no message is delivered on some links, they were empty, and nothing changes. -/
theorem drains_eq_zero {ls : List Link} (done : ls.foldlM drain (0, net) = .ok (0, net')) :
    (∀ l ∈ ls, net.Empty l) ∧
      ∃ links, net' = { net with links } ∧ ∀ l : Link, links[l]? = net.links[l]? := by
  induction ls generalizing net with
  | nil =>
    cases done
    exact ⟨List.forall_mem_nil _, _, rfl, fun _ => rfl⟩
  | cons l rest ih =>
    obtain ⟨net₁, first, later⟩ := (Checked.foldlM_cons_eq_zero_iff le_drain).1 done
    obtain ⟨empty, links, rfl, same⟩ := drainLink_eq_zero (drain_eq_zero_iff.1 first)
    obtain ⟨others, links', rfl, same'⟩ := ih later
    refine ⟨List.forall_mem_cons.2 ⟨empty, fun l mem => ?_⟩, links', rfl, fun l => ?_⟩
    · exact (others l mem).congr (same l).symm
    · exact (same' l).trans (same l)

/-- From empty links no message is delivered. -/
theorem drains_of_empty {ls : List Link} (h : ∀ l ∈ ls, net.Empty l) :
    ∃ net', ls.foldlM drain (0, net) = .ok (0, net') := by
  induction ls generalizing net with
  | nil => exact ⟨net, rfl⟩
  | cons l rest ih =>
    obtain ⟨here, later⟩ := List.forall_mem_cons.1 h
    obtain ⟨net₁, first⟩ := drainLink_of_empty here
    obtain ⟨-, links, rfl, same⟩ := drainLink_eq_zero first
    have still : ∀ l ∈ rest, Empty { net with links } l := fun l mem =>
      (later l mem).congr (same l)
    obtain ⟨net', others⟩ := ih still
    exact ⟨net', (Checked.foldlM_cons_eq_zero_iff le_drain).2
      ⟨_, drain_eq_zero_iff.2 first, others⟩⟩

/-! ## The turns of a quiet step -/

/-- A chore only adds work. -/
theorem le_chore {acc acc' : Nat × StepNetwork} {op : Operation}
    (done : chore i acc op = .ok acc') : acc.1 ≤ acc'.1 := by
  obtain ⟨⟨answer, net⟩, -, done⟩ := Checked.bind_eq_ok_iff.1 done
  cases answer <;> cases done
  · exact Nat.le_refl _
  · exact Nat.le_add_right ..
  · exact Nat.le_refl _

/-- A chore that does no work changes the engine of its node. -/
theorem chore_eq_zero_iff {op : Operation} (mem : op ∈ chores) (found : net.nodes[i]? = some n)
    (taken : n.engine.journal = []) :
    chore i (0, net) op = .ok (0, net') ↔
      ∃ e, n.engine.perform op = .ok (.count 0, e) ∧ net' = net.place i { n with engine := e } := by
  unfold chore StepNetwork.perform
  dsimp only
  rw [found]
  dsimp only
  cases performed : n.engine.perform op with
  | error => exact ⟨nofun, nofun⟩
  | ok r =>
    obtain ⟨answer, e⟩ := r
    obtain ⟨k, rfl⟩ := Engine.exists_count_of_chore mem performed
    show (.ok (0 + k, net.setNode i { n with engine := e }) : Checked _) = _ ↔ _
    rw [Nat.zero_add, Except.ok.injEq, Prod.mk.injEq]
    constructor
    · rintro ⟨rfl, rfl⟩
      have kept := (Engine.journal_of_chore mem performed).trans taken
      exact ⟨e, rfl, setNode_of_taken kept⟩
    · rintro ⟨e', eq, rfl⟩
      cases eq
      have kept := (Engine.journal_of_chore mem performed).trans taken
      exact ⟨rfl, setNode_of_taken kept⟩

/-- **Chores that do no work** are a turn of the engine of their node, and nothing else changes. -/
theorem chores_eq_zero_iff {ops : List Operation} (among : ∀ op ∈ ops, op ∈ chores)
    (found : net.nodes[i]? = some n) (taken : n.engine.journal = []) :
    ops.foldlM (chore i) (0, net) = .ok (0, net') ↔
      ∃ e, n.engine.Quietly ops e ∧ net' = net.place i { n with engine := e } := by
  induction ops generalizing net n with
  | nil =>
    constructor
    · intro done
      cases done
      exact ⟨n.engine, .nil _, (place_self found).symm⟩
    · rintro ⟨e, ⟨⟩, rfl⟩
      rw [place_self found]
      rfl
  | cons op rest ih =>
    obtain ⟨mem, later⟩ := List.forall_mem_cons.1 among
    rw [Checked.foldlM_cons_eq_zero_iff le_chore]
    simp only [chore_eq_zero_iff mem found taken]
    constructor
    · rintro ⟨_, ⟨e₁, performed, rfl⟩, done⟩
      have kept := (Engine.journal_of_chore mem performed).trans taken
      obtain ⟨e, quietly, rfl⟩ := (ih later (getElem?_place_self found _) kept).1 done
      exact ⟨e, .cons performed quietly, place_place _ _⟩
    · rintro ⟨e, _ | ⟨performed, quietly⟩, rfl⟩
      have kept := (Engine.journal_of_chore mem performed).trans taken
      refine ⟨_, ⟨_, performed, rfl⟩, ?_⟩
      exact (ih later (getElem?_place_self found _) kept).2 ⟨e, quietly, (place_place _ _).symm⟩

/-- Give the nodes at some positions a turn each. -/
def giveTurns (acc : Nat × StepNetwork) (positions : List Nat) : Checked (Nat × StepNetwork) :=
  positions.foldlM (fun acc i => chores.foldlM (chore i) acc) acc

/-- Turns that do no work: the nodes at some positions have turns without work, and nothing else
changes. -/
structure QuietTurns (positions : List Nat) (net net' : StepNetwork) : Prop where
  links : net'.links = net.links
  size : net'.nodes.size = net.nodes.size
  others : ∀ i, i ∉ positions → net'.nodes[i]? = net.nodes[i]?
  turn : ∀ i ∈ positions, ∀ n, net.nodes[i]? = some n →
    ∃ e, n.engine.QuietTurn e ∧ net'.nodes[i]? = some { n with engine := e }

/-- One turn, and then the others. -/
theorem QuietTurns.cons {rest : List Nat} (found : net.nodes[i]? = some n)
    {e : Engine ChainLedger} (turn : n.engine.QuietTurn e) (out : i ∉ rest)
    (h : QuietTurns rest (net.place i { n with engine := e }) net') :
    QuietTurns (i :: rest) net net' := by
  refine ⟨h.links, h.size.trans Array.size_setIfInBounds, fun j absent => ?_,
    fun j mem m here => ?_⟩
  · rw [List.mem_cons, not_or] at absent
    obtain ⟨ne, absent⟩ := absent
    exact (h.others j absent).trans (getElem?_place_ne (Ne.symm ne) _)
  · by_cases same : j = i
    · subst same
      cases found.symm.trans here
      exact ⟨e, turn, (h.others j out).trans (getElem?_place_self found _)⟩
    · have later := (List.mem_cons.1 mem).resolve_left same
      exact h.turn j later m ((getElem?_place_ne (Ne.symm same) _).trans here)

/-- Turns that do no work, one after the other. -/
theorem quietTurns_of_giveTurns {positions : List Nat} (taken : net.Taken)
    (distinct : positions.Nodup) (inside : ∀ i ∈ positions, i < net.nodes.size)
    (done : giveTurns (0, net) positions = .ok (0, net')) : QuietTurns positions net net' := by
  induction positions generalizing net with
  | nil =>
    cases done
    exact ⟨rfl, rfl, fun _ _ => rfl, nofun⟩
  | cons i rest ih =>
    obtain ⟨out, distinct⟩ := List.nodup_cons.1 distinct
    obtain ⟨here, later⟩ := List.forall_mem_cons.1 inside
    obtain ⟨net₁, first, done⟩ :=
      (Checked.foldlM_cons_eq_zero_iff (Checked.le_foldlM le_chore)).1 done
    have found : net.nodes[i]? = some net.nodes[i] := Array.getElem?_eq_getElem here
    have none := taken i _ found
    obtain ⟨e, turn, rfl⟩ := (chores_eq_zero_iff (fun _ mem => mem) found none).1 first
    have turn : net.nodes[i].engine.QuietTurn e := turn
    refine .cons found turn out (ih (taken.place (turn.silent.1.trans none) i) distinct ?_ done)
    intro j mem
    exact Nat.lt_of_lt_of_eq (later j mem) Array.size_setIfInBounds.symm

/-- Nodes that can have turns without work have them. -/
theorem exists_giveTurns {positions : List Nat} (taken : net.Taken)
    (distinct : positions.Nodup) (inside : ∀ i ∈ positions, i < net.nodes.size)
    (each : ∀ i ∈ positions, ∀ n : Node, net.nodes[i]? = some n →
      ∃ e, n.engine.QuietTurn e) : ∃ net', giveTurns (0, net) positions = .ok (0, net') := by
  induction positions generalizing net with
  | nil => exact ⟨net, rfl⟩
  | cons i rest ih =>
    obtain ⟨out, distinct⟩ := List.nodup_cons.1 distinct
    obtain ⟨here, later⟩ := List.forall_mem_cons.1 inside
    have found : net.nodes[i]? = some net.nodes[i] := Array.getElem?_eq_getElem here
    have none := taken i _ found
    obtain ⟨e, turn⟩ := each i (List.mem_cons_self ..) _ found
    have first := (chores_eq_zero_iff (fun _ mem => mem) found none).2 ⟨e, turn, rfl⟩
    have kept : Taken (net.place i { net.nodes[i] with engine := e }) :=
      taken.place (turn.silent.1.trans none) i
    obtain ⟨net', others⟩ := ih kept distinct
      (fun j mem => Nat.lt_of_lt_of_eq (later j mem) Array.size_setIfInBounds.symm)
      fun j mem n there => by
        have ne : i ≠ j := fun same => out (same ▸ mem)
        exact each j (List.mem_cons_of_mem _ mem) n ((getElem?_place_ne ne _).symm.trans there)
    exact ⟨net', (Checked.foldlM_cons_eq_zero_iff (Checked.le_foldlM le_chore)).2
      ⟨_, first, others⟩⟩

/-! ## Quiet steps -/

/-- A step without work: nothing was queued, and every node has a turn without work. -/
structure QuietStep (net net' : StepNetwork) : Prop where
  empty : ∀ l, net.Empty l
  links : ∀ l : Link, net'.links[l]? = net.links[l]?
  size : net'.nodes.size = net.nodes.size
  turn : ∀ (i : Nat) (n : Node), net.nodes[i]? = some n →
    ∃ e, n.engine.QuietTurn e ∧ net'.nodes[i]? = some { n with engine := e }

/-- The two halves of a step. -/
theorem step_eq (net : StepNetwork) :
    net.step = (net.links.keys.foldlM drain (0, net) >>= fun acc =>
      giveTurns acc (List.range net.nodes.size)) := rfl

/-- A link that is not listed is empty. -/
theorem empty_of_keys (h : ∀ l ∈ net.links.keys, net.Empty l) (l : Link) : net.Empty l := by
  intro messages found
  refine h l ?_ messages found
  rw [Std.TreeMap.mem_keys, Std.TreeMap.mem_iff_isSome_getElem?, found]
  rfl

/-- **A step that does no work.** -/
theorem quietStep_of_step (taken : net.Taken) (done : net.step = .ok (0, net')) :
    net.QuietStep net' := by
  rw [step_eq] at done
  obtain ⟨⟨work, net₁⟩, drained, done⟩ := Checked.bind_eq_ok_iff.1 done
  obtain rfl : work = 0 := Nat.le_zero.1 (Checked.le_foldlM (Checked.le_foldlM le_chore) done)
  obtain ⟨empty, links, rfl, same⟩ := drains_eq_zero drained
  have turns := quietTurns_of_giveTurns (taken.setLinks links) List.nodup_range
    (fun i mem => List.mem_range.1 mem) done
  refine ⟨empty_of_keys empty, fun l => ?_, turns.size, fun i n found => ?_⟩
  · rw [turns.links]
    exact same l
  · have lt := (Array.getElem?_eq_some_iff.1 found).1
    exact turns.turn i (List.mem_range.2 lt) n found

/-- A network does no work in a step if nothing is queued, and every node can have a turn without
work. -/
theorem exists_step (taken : net.Taken) (empty : ∀ l, net.Empty l)
    (each : ∀ (i : Nat) (n : Node), net.nodes[i]? = some n → ∃ e, n.engine.QuietTurn e) :
    ∃ net', net.step = .ok (0, net') := by
  rw [step_eq]
  obtain ⟨net₁, drained⟩ := drains_of_empty fun l (_ : l ∈ net.links.keys) => empty l
  obtain ⟨-, links, rfl, -⟩ := drains_eq_zero drained
  obtain ⟨net', done⟩ := exists_giveTurns (taken.setLinks links) List.nodup_range
    (fun i mem => List.mem_range.1 mem) fun i _ => each i
  exact ⟨net', Checked.bind_eq_ok_iff.2 ⟨_, drained, done⟩⟩

namespace QuietStep

/-- What a node is after a step without work. -/
theorem of_after (h : net.QuietStep net') {n' : Node} (found : net'.nodes[i]? = some n') :
    ∃ n, net.nodes[i]? = some n ∧ n.engine.QuietTurn n'.engine := by
  obtain ⟨lt, -⟩ := Array.getElem?_eq_some_iff.1 found
  obtain ⟨n, here⟩ : ∃ n, net.nodes[i]? = some n :=
    ⟨_, Array.getElem?_eq_getElem (h.size ▸ lt)⟩
  obtain ⟨e, turn, there⟩ := h.turn i n here
  cases there.symm.trans found
  exact ⟨n, here, turn⟩

/-- No head moves in a step without work. -/
theorem heads (h : net.QuietStep net') : net'.heads = net.heads := by
  unfold StepNetwork.heads
  congr 1
  refine Array.ext_getElem? fun i => ?_
  rw [Array.getElem?_map, Array.getElem?_map]
  cases found : net.nodes[i]? with
  | none =>
    have none : net'.nodes[i]? = none := by
      rw [Array.getElem?_eq_none_iff, h.size]
      exact Array.getElem?_eq_none_iff.1 found
    rw [none]
  | some n =>
    obtain ⟨e, turn, there⟩ := h.turn i n found
    have same : Node.height { n with engine := e } = n.height :=
      congrArg (fun l : ChainLedger => l.head.number) turn.silent.2
    rw [there, Option.map_some, Option.map_some, same]

end QuietStep

/-! ## Rest -/

/-- Whether a network has nothing to do: nothing is queued, and no node has anything to do. -/
structure Resting (net : StepNetwork) : Prop where
  taken : net.Taken
  empty : ∀ l, net.Empty l
  node : ∀ (i : Nat) (n : Node), net.nodes[i]? = some n → n.engine.Resting

/-- A network that has nothing to do makes a step without work. -/
theorem Resting.exists_step (h : net.Resting) : ∃ net', net.step = .ok (0, net') :=
  StepNetwork.exists_step h.taken h.empty fun i n found => (h.node i n found).exists_turn

/-- After the step it has nothing to do either. -/
theorem Resting.step (h : net.Resting) (done : net.step = .ok (0, net')) : net'.Resting := by
  have quiet := quietStep_of_step h.taken done
  refine ⟨h.taken.step done, fun l => (quiet.empty l).congr (quiet.links l), fun i n' found => ?_⟩
  obtain ⟨n, here, turn⟩ := quiet.of_after found
  exact (h.node i n here).turn turn

/-- Make some steps, and return the work of all of them. -/
def steps (net : StepNetwork) : Nat → Checked (Nat × StepNetwork)
  | 0 => .ok (0, net)
  | k + 1 => do
    let (work, net) ← net.step
    let (more, net) ← net.steps k
    return (work + more, net)

/-- Steps do no work if each of them does none. -/
theorem steps_succ_eq_zero_iff {k : Nat} {last : StepNetwork} :
    net.steps (k + 1) = .ok (0, last) ↔
      ∃ net', net.step = .ok (0, net') ∧ net'.steps k = .ok (0, last) := by
  rw [steps, Checked.bind_eq_ok_iff]
  constructor
  · rintro ⟨⟨work, net'⟩, first, done⟩
    obtain ⟨⟨more, net''⟩, later, done⟩ := Checked.bind_eq_ok_iff.1 done
    obtain ⟨total, rfl⟩ := Prod.mk.inj (Except.ok.inj done)
    obtain ⟨rfl, rfl⟩ := Nat.add_eq_zero_iff.1 total
    exact ⟨net', first, later⟩
  · rintro ⟨net', first, later⟩
    exact ⟨_, first, Checked.bind_eq_ok_iff.2 ⟨_, later, rfl⟩⟩

/-- Whether a network rests: however many steps it makes, they do no work and move no head. -/
def Rests (net : StepNetwork) : Prop :=
  ∀ k, ∃ last, net.steps k = .ok (0, last) ∧ last.heads = net.heads

/-- A network that rests makes a step without work. -/
theorem Rests.exists_step (h : net.Rests) : ∃ net', net.step = .ok (0, net') := by
  obtain ⟨last, done, -⟩ := h 1
  obtain ⟨net', first, -⟩ := steps_succ_eq_zero_iff.1 done
  exact ⟨net', first⟩

/-- **A network that has nothing to do rests.** -/
theorem Resting.rests (h : net.Resting) : net.Rests := by
  intro k
  induction k generalizing net with
  | zero => exact ⟨net, rfl, rfl⟩
  | succ k ih =>
    obtain ⟨net', first⟩ := h.exists_step
    obtain ⟨last, later, heads⟩ := ih (h.step first)
    refine ⟨last, steps_succ_eq_zero_iff.2 ⟨net', first, later⟩, ?_⟩
    exact heads.trans (quietStep_of_step h.taken first).heads

/-- Whether some node is poised to ask for blocks. -/
def Poised (net : StepNetwork) : Prop :=
  ∃ (i : Nat) (n : Node), net.nodes[i]? = some n ∧ n.engine.Poised

/-- No node is poised before a step without work. -/
theorem QuietStep.not_poised (h : net.QuietStep net') : ¬ net.Poised := by
  rintro ⟨i, n, found, poised⟩
  obtain ⟨e, turn, -⟩ := h.turn i n found
  exact turn.before_apply.1 poised

/-- **After a step without work** a network rests unless some node is poised. -/
theorem QuietStep.rests_iff (h : net.QuietStep net') (taken : net'.Taken) :
    net'.Rests ↔ ¬ net'.Poised := by
  constructor
  · intro rests
    obtain ⟨last, done⟩ := rests.exists_step
    exact (quietStep_of_step taken done).not_poised
  · intro unpoised
    refine Resting.rests ⟨taken, fun l => (h.empty l).congr (h.links l), fun i n' found => ?_⟩
    obtain ⟨n, -, turn⟩ := h.of_after found
    exact turn.resting_iff.2 fun poised => unpoised ⟨i, n', found, poised⟩

/-- A run that ends before its limit ends with a step without work. -/
theorem quiet_of_runFrom {config : Config} {solidifyDepth : Nat} {clock : Clock}
    {done fuel k : Nat} (reached : Reached config solidifyDepth clock net)
    (ran : net.runFrom done fuel = .ok (k, net')) (early : k < done + fuel) :
    ∃ before, Reached config solidifyDepth clock before ∧ before.step = .ok (0, net') := by
  induction fuel generalizing net done with
  | zero =>
    cases ran
    exact absurd early (Nat.lt_irrefl _)
  | succ fuel ih =>
    obtain ⟨⟨work, net₁⟩, stepped, ran⟩ := Checked.bind_eq_ok_iff.1 ran
    dsimp only at ran
    split at ran
    next quiet =>
      subst quiet
      cases ran
      exact ⟨net, reached, stepped⟩
    next => exact ih (reached.step stepped) ran (by omega)

/-- **When a quiet network rests.**  After a step without work no head has moved.  The network rests
exactly if no node is poised to ask for blocks, and exactly if one more step does no work either.  A
node that is poised was to apply blocks and applied none, but lifted the suspension or dropped a
block.  So a run that ends before its limit leaves a network that rests exactly if no node is
poised. -/
theorem rests_after_quiet_iff {config : Config} {solidifyDepth : Nat} {clock : Clock}
    (reached : Reached config solidifyDepth clock net) :
    (∀ net', net.step = .ok (0, net') →
      net'.heads = net.heads ∧ (net'.Rests ↔ ¬ net'.Poised) ∧
        (net'.Rests ↔ ∃ last, net'.step = .ok (0, last)) ∧
        ∀ (i : Nat) (n' : Node), net'.nodes[i]? = some n' → n'.engine.Poised →
          ∃ n, net.nodes[i]? = some n ∧ n.engine.Frees) ∧
      ∀ rounds k net', net.run rounds = .ok (k, net') → k < rounds →
        (net'.Rests ↔ ¬ net'.Poised) := by
  constructor
  · intro net' done
    have quiet := quietStep_of_step reached.taken done
    have taken := (reached.step done).taken
    refine ⟨quiet.heads, quiet.rests_iff taken, ⟨Rests.exists_step, ?_⟩, ?_⟩
    · rintro ⟨last, again⟩
      exact (quiet.rests_iff taken).2 (quietStep_of_step taken again).not_poised
    · intro i n' found poised
      obtain ⟨n, here, turn⟩ := quiet.of_after found
      exact ⟨n, here, turn.frees_of_poised poised⟩
  · intro rounds k net' ran early
    rw [← Nat.zero_add rounds] at early
    obtain ⟨before, there, done⟩ := quiet_of_runFrom reached ran early
    exact (quietStep_of_step there.taken done).rests_iff (there.step done).taken

/-! ## One quiet step is not enough -/

/-- Blocks are asked for two at a time, but they are applied one at a time, and no more are asked
for while one waits. -/
def oneWaiting : Config := { sync := { maxPerPeer := 2, backlogCap := 1, applyBudget := 1 } }

/-- One of two nodes has produced five blocks, and the other one fetches them. -/
def fiveFetched : List Act :=
  [.addNode, .addNode] ++ List.replicate 5 (.produce []) ++ [.connect 0 1] ++
    List.replicate 5 .step

/-- After the next step, which does no work, there is one that does some.  Five steps later two
steps in a row do none. -/
theorem exists_quiet_steps :
    (∃ net net' last work, Reached oneWaiting 2 {} net ∧ net.step = .ok (0, net') ∧
      net'.step = .ok (work, last) ∧ work ≠ 0) ∧
    ∃ net net' last, Reached oneWaiting 2 {} net ∧ net.step = .ok (0, net') ∧
      net'.step = .ok (0, last) := by
  have checked : (fiveFetched.foldlM (act 1)
      { config := oneWaiting, solidifyDepth := 2, clock := ({} : Clock) }).toOption.any (fun net =>
        (net.step.toOption.any fun (work, net') =>
          work = 0 && net'.step.toOption.any fun (work, _) => work ≠ 0) &&
        ((List.replicate 4 Act.step).foldlM (act 1) net).toOption.any fun net =>
          net.step.toOption.any fun (work, net') =>
            work = 0 && net'.step.toOption.any fun (work, _) => work = 0) = true := by
    decide +kernel
  simp only [Option.any_eq_true, Checked.toOption_eq_some_iff, Bool.and_eq_true,
    decide_eq_true_eq] at checked
  obtain ⟨net, done, ⟨⟨_, net'⟩, quiet, rfl, ⟨work, last⟩, again, some⟩,
    net₁, more, ⟨_, net₁'⟩, quiet₁, rfl, ⟨_, last₁⟩, again₁, rfl⟩ := checked
  have reached : Reached oneWaiting 2 {} net := Reached.start.acts done
  exact ⟨⟨net, net', last, work, reached, quiet, again, some⟩,
    net₁, net₁', last₁, reached.acts more, quiet₁, again₁⟩

/-- After one of the quiet steps the network does not rest, since some node is poised; after the
other one it rests. -/
theorem quiet_before_and_at_rest :
    (∃ net net', Reached oneWaiting 2 {} net ∧ net.step = .ok (0, net') ∧ net'.Poised ∧
      ¬ net'.Rests) ∧
    ∃ net net', Reached oneWaiting 2 {} net ∧ net.step = .ok (0, net') ∧ net'.Rests := by
  obtain ⟨⟨net, net', last, work, reached, quiet, again, some⟩,
    net₁, net₁', last₁, reached₁, quiet₁, again₁⟩ := exists_quiet_steps
  obtain ⟨-, poised, rests, -⟩ := (rests_after_quiet_iff reached).1 net' quiet
  obtain ⟨-, -, rests₁, -⟩ := (rests_after_quiet_iff reached₁).1 net₁' quiet₁
  have restless : ¬ net'.Rests := by
    intro rest
    obtain ⟨last', none⟩ := rests.1 rest
    cases again.symm.trans none
    exact some rfl
  exact ⟨⟨net, net', reached, quiet, not_not.1 fun none => restless (poised.2 none), restless⟩,
    net₁, net₁', reached₁, quiet₁, rests₁.2 ⟨last₁, again₁⟩⟩

/-- A network may do work again after a step without work. -/
theorem restless_after_quiet :
    ¬ ∀ (config : Config) (solidifyDepth : Nat) (clock : Clock) (net net' : StepNetwork),
      Reached config solidifyDepth clock net → net.step = .ok (0, net') → net'.Rests := by
  intro always
  obtain ⟨⟨net, net', last, work, reached, quiet, again, some⟩, -⟩ := exists_quiet_steps
  obtain ⟨last', none⟩ := (always _ _ _ net net' reached quiet).exists_step
  cases again.symm.trans none
  exact some rfl

end StepNetwork

end BlockRelay
