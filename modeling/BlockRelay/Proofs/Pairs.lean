/-
# Networks of two nodes

A network of two connected nodes is two engines and the messages that are queued on the two ways
between them (`StepNetwork.Pair`).  What an engine does, on its own, is a list of operations and
the messages that it sends meanwhile (`Engine.Plays`); as long as it begins no session and sends
to nobody but the other node, the network follows (`Pair.perform`).

One step of the network is then four such plays: each engine receives what is queued for it, and
each does its chores (`Pair.step`).  The second engine also receives in the same step what the
first one has just sent.  Before that, the two nodes were connected (`Pair.connect`).
-/
import BlockRelay.Network.Stepped

namespace BlockRelay

/-- The keys of a map are a sorted list of what it contains. -/
theorem keys_eq_of_sorted {κ ν : Type} [Ord κ] [Std.TransOrd κ] [Std.LawfulEqOrd κ]
    {t : Std.TreeMap κ ν} {sorted : List κ} (ascending : sorted.Pairwise (compare · · = .lt))
    (same : ∀ k, t.contains k = true ↔ k ∈ sorted) : t.keys = sorted := by
  have distinct : sorted.Nodup := ascending.imp fun {a b} lt eq => by
    have self : compare b b = .eq := Std.ReflCmp.compare_self
    rw [eq, self] at lt
    cases lt
  refine List.Perm.eq_of_pairwise (fun a b _ _ lt gt => ?_) Std.TreeMap.ordered_keys ascending
    ((List.perm_ext_iff_of_nodup Std.TreeMap.nodup_keys distinct).2 fun k => ?_)
  · exact absurd gt (Std.OrientedCmp.not_lt_of_lt lt)
  · rw [Std.TreeMap.mem_keys]
    exact same k

/-- The message that is sent in an event, and its receiver. -/
def Event.sent? : Event → Option (PeerId × Message)
  | .sent peer m => some (peer, m)
  | _ => none

namespace Engine

variable {σ : Type} {e e₁ e' : Engine σ} {id : PeerId} {messages more : List Message}

/-! ## What an engine says -/

/-- Whether an engine became another one while it sent messages to one peer, sent nothing to anybody
else, and began no session. -/
def Utters (id : PeerId) (messages : List Message) (e e' : Engine σ) : Prop :=
  ∃ events, e'.journal = e.journal ++ events ∧ (∀ peer, Event.opened peer ∉ events) ∧
    events.filterMap Event.sent? = messages.map fun m => (id, m)

namespace Utters

/-- With the same journal, nothing was said. -/
theorem silent (same : e'.journal = e.journal) : Utters id [] e e' :=
  ⟨[], by rw [same, List.append_nil], nofun, rfl⟩

/-- What is sent is said. -/
theorem send {m : Message} (sent : e'.journal = e.journal ++ [.sent id m]) :
    Utters id [m] e e' := by
  refine ⟨_, sent, fun peer mem => ?_, rfl⟩
  cases List.mem_singleton.1 mem

/-- All that is sent is said. -/
theorem sendAll (sent : e'.journal = e.journal ++ messages.map fun m => .sent id m) :
    Utters id messages e e' := by
  refine ⟨_, sent, fun peer mem => ?_, ?_⟩
  · obtain ⟨m, -, eq⟩ := List.mem_map.1 mem
    cases eq
  · rw [List.filterMap_map, ← List.filterMap_eq_map]
    rfl

/-- An event that sends nothing, and begins no session, says nothing. -/
theorem quiet (ev : Event) (visible : e'.journal = e.journal ++ [ev]) (unsent : ev.sent? = none)
    (goesOn : ∀ peer, ev ≠ .opened peer) : Utters id [] e e' := by
  refine ⟨_, visible, fun peer mem => ?_, ?_⟩
  · exact goesOn peer (List.mem_singleton.1 mem).symm
  · rw [List.filterMap_cons, unsent]
    rfl

/-- What is said first and what is said later. -/
theorem trans (first : Utters id messages e e₁) (later : Utters id more e₁ e') :
    Utters id (messages ++ more) e e' := by
  obtain ⟨events, eq, unopened, sent⟩ := first
  obtain ⟨events', eq', unopened', sent'⟩ := later
  refine ⟨events ++ events', by rw [eq', eq, List.append_assoc], fun peer mem => ?_, ?_⟩
  · exact (List.mem_append.1 mem).elim (unopened peer) (unopened' peer)
  · rw [List.filterMap_append, sent, sent', List.map_append]

end Utters

/-- Operations that an engine carries out one after the other, and the messages that it sends to one
peer meanwhile.  The journal is taken after each of them. -/
inductive Plays [Ledger σ] (id : PeerId) :
    List Operation → List Message → Engine σ → Engine σ → Prop where
  | nil {e : Engine σ} : Plays id [] [] e e
  | cons {e e₁ e' : Engine σ} {op : Operation} {ops : List Operation} {answer : Outcome}
    {messages more : List Message} : e.perform op = .ok (answer, e₁) → Utters id messages e e₁ →
      Plays id ops more e₁.takeJournal.2 e' → Plays id (op :: ops) (messages ++ more) e e'

namespace Plays

variable [Ledger σ] {op : Operation} {ops later : List Operation} {answer : Outcome}

/-- One operation. -/
theorem one (done : e.perform op = .ok (answer, e₁)) (utters : Utters id messages e e₁) :
    Plays id [op] messages e e₁.takeJournal.2 := by
  have play := Plays.cons done utters .nil
  rwa [List.append_nil] at play

/-- One operation that says nothing, and then others. -/
theorem silent (done : e.perform op = .ok (answer, e₁)) (same : e₁.journal = e.journal)
    (play : Plays id ops messages e₁.takeJournal.2 e') : Plays id (op :: ops) messages e e' :=
  .cons done (.silent same) play

/-- Operations that are carried out first, and others later. -/
theorem append (first : Plays id ops messages e e₁) (second : Plays id later more e₁ e') :
    Plays id (ops ++ later) (messages ++ more) e e' := by
  induction first with
  | nil => exact second
  | cons done utters _ ih =>
    rw [List.append_assoc]
    exact .cons done utters (ih second)

end Plays

end Engine

namespace StepNetwork

variable {net : StepNetwork} {i j : Nat} {e e' f : Engine ChainLedger}
  {out back said : List Message}

/-- Following the events of a node puts what it says to another one at the end of the link. -/
theorem getElem?_foldl_follow (position : Node.positionOf (Node.peerAt j) = j)
    {events : List Event} {messages : List Message} (unopened : ∀ peer, Event.opened peer ∉ events)
    (sent : events.filterMap Event.sent? = messages.map fun m => (Node.peerAt j, m))
    (links : Std.TreeMap Link (List Message)) (l : Link) :
    (events.foldl (follow i) links)[l]? =
      if l = ⟨i, j⟩ then (links[l]?).map (· ++ messages) else links[l]? := by
  induction events generalizing links messages with
  | nil =>
    cases messages with
    | nil => simp
    | cons => cases sent
  | cons ev rest ih =>
    have unopened' : ∀ peer, Event.opened peer ∉ rest := fun peer mem =>
      unopened peer (List.mem_cons_of_mem _ mem)
    rw [List.foldl_cons]
    cases ev with
    | opened peer => exact absurd (List.mem_cons_self ..) (unopened peer)
    | sent peer m =>
      cases messages with
      | nil => cases sent
      | cons first messages =>
        obtain ⟨here, later⟩ := List.cons.inj sent
        obtain ⟨rfl, rfl⟩ := Prod.mk.inj here
        rw [ih unopened' later, follow, position, Std.TreeMap.getElem?_modify]
        by_cases same : l = ⟨i, j⟩
        · subst same
          cases links[(⟨i, j⟩ : Link)]? <;> simp
        · rw [if_neg same, if_neg same, if_neg]
          exact fun eq => same (Std.LawfulEqCmp.eq_of_compare eq).symm
    | closed | appliedBlock | appliedTransaction | notified => exact ih unopened' sent links

/-- Following the events of a session from its beginning puts what is said in it on a new link. -/
theorem getElem?_foldl_follow_session (position : Node.positionOf (Node.peerAt j) = j)
    (taken : e.journal = [])
    (utters : (e.openSession (Node.peerAt j)).Utters (Node.peerAt j) said e')
    (links : Std.TreeMap Link (List Message)) (l : Link) :
    (e'.journal.foldl (follow i) links)[l]? = if l = ⟨i, j⟩ then some said else links[l]? := by
  obtain ⟨events, journal, unopened, sent⟩ := utters
  have visible : e'.journal = .opened (Node.peerAt j) :: events := by
    rw [journal]
    show (e.journal ++ [_]) ++ events = _
    rw [taken]
    rfl
  rw [visible, List.foldl_cons, getElem?_foldl_follow position unopened sent, follow, position,
    Std.TreeMap.getElem?_insert]
  by_cases same : l = ⟨i, j⟩
  · subst same
    rw [if_pos rfl, if_pos rfl, if_pos Std.ReflCmp.compare_self]
    rfl
  · rw [if_neg same, if_neg same, if_neg]
    exact fun eq => same (Std.LawfulEqCmp.eq_of_compare eq).symm

/-- A network of two nodes that are connected.  The node at position `i` has the engine `e`, the
other one at position `j` has the engine `f`; what is queued from `i` to `j` is `out`, and what is
queued on the way back is `back`. -/
structure Pair (net : StepNetwork) (i j : Nat) (e f : Engine ChainLedger)
    (out back : List Message) : Prop where
  ends : i = 0 ∧ j = 1 ∨ i = 1 ∧ j = 0
  size : net.nodes.size = 2
  here : net.nodes[i]? = some ⟨Node.peerAt i, e⟩
  there : net.nodes[j]? = some ⟨Node.peerAt j, f⟩
  links : ∀ l : Link,
    net.links[l]? = if l = ⟨i, j⟩ then some out else if l = ⟨j, i⟩ then some back else none
  taken : e.journal = [] ∧ f.journal = []

namespace Pair

/-- The two ways between two nodes are different ones. -/
theorem ways (h : Pair net i j e f out back) : i ≠ j ∧ (⟨i, j⟩ : Link) ≠ ⟨j, i⟩ := by
  rcases h.ends with ⟨rfl, rfl⟩ | ⟨rfl, rfl⟩ <;> decide

/-- The other node has the position that its identity says. -/
theorem position (h : Pair net i j e f out back) : Node.positionOf (Node.peerAt j) = j := by
  rcases h.ends with ⟨-, rfl⟩ | ⟨-, rfl⟩ <;> decide

/-- The same network, seen from the other node. -/
theorem symm (h : Pair net i j e f out back) : Pair net j i f e back out := by
  refine ⟨h.ends.elim (fun ⟨hi, hj⟩ => .inr ⟨hj, hi⟩) (fun ⟨hi, hj⟩ => .inl ⟨hj, hi⟩), h.size,
    h.there, h.here, fun l => ?_, h.taken.symm⟩
  rw [h.links]
  by_cases first : l = ⟨i, j⟩
  · rw [if_pos first, if_neg, if_pos first]
    rw [first]
    exact h.ways.2
  · rw [if_neg first, if_neg first]

/-- The two ways are all links. -/
theorem keys (h : Pair net i j e f out back) : net.links.keys = [⟨0, 1⟩, ⟨1, 0⟩] := by
  have ascending : ([⟨0, 1⟩, ⟨1, 0⟩] : List Link).Pairwise (compare · · = .lt) := by
    simp only [List.pairwise_cons, List.mem_singleton, List.not_mem_nil, List.Pairwise.nil]
    exact ⟨fun _ eq => eq ▸ rfl, nofun, trivial⟩
  refine keys_eq_of_sorted ascending fun l => ?_
  rw [Std.TreeMap.contains_eq_isSome_getElem?, h.links, List.mem_cons, List.mem_singleton]
  by_cases first : l = ⟨i, j⟩
  · rw [if_pos first, first]
    rcases h.ends with ⟨rfl, rfl⟩ | ⟨rfl, rfl⟩ <;> simp
  · rw [if_neg first]
    by_cases second : l = ⟨j, i⟩
    · rw [if_pos second, second]
      rcases h.ends with ⟨rfl, rfl⟩ | ⟨rfl, rfl⟩ <;> simp
    · rw [if_neg second]
      rcases h.ends with ⟨rfl, rfl⟩ | ⟨rfl, rfl⟩ <;> simp [first, second]

/-- What is queued for a node may be taken from the link. -/
theorem clear (h : Pair net i j e f out back) :
    Pair { net with links := net.links.insert ⟨j, i⟩ [] } i j e f out [] := by
  refine ⟨h.ends, h.size, h.here, h.there, fun l => ?_, h.taken⟩
  dsimp only
  rw [Std.TreeMap.getElem?_insert, h.links]
  by_cases second : l = ⟨j, i⟩
  · subst second
    rw [if_pos Std.ReflCmp.compare_self, if_neg h.ways.2.symm, if_pos rfl]
  · rw [if_neg fun eq => second (Std.LawfulEqCmp.eq_of_compare eq).symm, if_neg second,
      if_neg second]

/-- **One operation.**  The network follows an engine that talks to the other node only. -/
theorem perform (h : Pair net i j e f out back) {op : Operation} {answer : Outcome}
    (done : e.perform op = .ok (answer, e')) (utters : e.Utters (Node.peerAt j) said e') :
    ∃ net', net.perform i op = .ok (answer, net') ∧
      Pair net' i j e'.takeJournal.2 f (out ++ said) back := by
  obtain ⟨events, journal, unopened, sent⟩ := utters
  rw [h.taken.1, List.nil_append] at journal
  refine ⟨net.setNode i ⟨Node.peerAt i, e'⟩, ?_, h.ends, ?_, ?_, ?_, fun l => ?_, rfl, h.taken.2⟩
  · simp only [StepNetwork.perform, h.here, done]
    rfl
  · exact Array.size_setIfInBounds.trans h.size
  · have lt := (Array.getElem?_eq_some_iff.1 h.here).1
    exact Array.getElem?_setIfInBounds_self_of_lt lt
  · exact (Array.getElem?_setIfInBounds_ne h.ways.1).trans h.there
  · change (e'.journal.foldl (follow i) net.links)[l]? = _
    rw [journal, getElem?_foldl_follow h.position unopened sent, h.links]
    by_cases first : l = ⟨i, j⟩
    · rw [if_pos first, if_pos first, if_pos first]
      rfl
    · rw [if_neg first, if_neg first, if_neg first]

/-- Messages are delivered one after the other, if none of them ends the session. -/
theorem deliver {messages : List Message} (h : Pair net i j e f out back)
    (goesOn : ∀ m ∈ messages, m.isDisconnect = false)
    (plays : Engine.Plays (Node.peerAt j) (messages.map (.receive (Node.peerAt j))) said e e') :
    ∃ net', StepNetwork.deliver ⟨j, i⟩ messages net = .ok net' ∧
      Pair net' i j e' f (out ++ said) back := by
  induction messages generalizing net e out said with
  | nil =>
    cases plays
    rw [List.append_nil]
    exact ⟨net, rfl, h⟩
  | cons m rest ih =>
    cases plays with
    | cons done utters plays =>
      obtain ⟨here, later⟩ := List.forall_mem_cons.1 goesOn
      obtain ⟨net₁, performed, h₁⟩ := h.perform done utters
      obtain ⟨net', delivered, h'⟩ := ih h₁ later plays
      rw [List.append_assoc] at h'
      refine ⟨net', ?_, h'⟩
      simp only [StepNetwork.deliver, performed]
      change (if m.isDisconnect = true then _ else _) = _
      rw [here, if_neg Bool.false_ne_true, delivered]

/-- What is queued for a node is delivered as a whole. -/
theorem drain (h : Pair net i j e f out back) (goesOn : ∀ m ∈ back, m.isDisconnect = false)
    (plays : Engine.Plays (Node.peerAt j) (back.map (.receive (Node.peerAt j))) said e e') :
    ∃ net', net.drainLink ⟨j, i⟩ = .ok (back.length, net') ∧
      Pair net' i j e' f (out ++ said) [] := by
  obtain ⟨net', delivered, h'⟩ := h.clear.deliver goesOn plays
  have queued : net.links[(⟨j, i⟩ : Link)]? = some back := by
    rw [h.links, if_neg h.ways.2.symm, if_pos rfl]
  refine ⟨net', ?_, h'⟩
  simp only [drainLink, queued, delivered]
  rfl

/-- Chores are done one after the other. -/
theorem chores {ops : List Operation} (h : Pair net i j e f out back)
    (plays : Engine.Plays (Node.peerAt j) ops said e e') (work : Nat) :
    ∃ work' net', ops.foldlM (chore i) (work, net) = .ok (work', net') ∧
      Pair net' i j e' f (out ++ said) back := by
  induction ops generalizing net e out said work with
  | nil =>
    cases plays
    rw [List.append_nil]
    exact ⟨work, net, rfl, h⟩
  | cons op rest ih =>
    cases plays with
    | @cons _ e₁ _ _ _ answer _ _ done utters plays =>
      obtain ⟨net₁, performed, h₁⟩ := h.perform done utters
      have first : ∃ n, chore i (work, net) op = .ok (n, net₁) := by
        simp only [chore, performed]
        cases answer <;> exact ⟨_, rfl⟩
      obtain ⟨n, first⟩ := first
      obtain ⟨work', net', rest, h'⟩ := ih h₁ plays n
      rw [List.append_assoc] at h'
      exact ⟨work', net', by rw [List.foldlM_cons, first]; exact rest, h'⟩

/-- **Two nodes are connected.**  Each of them registers the other one, and what it says to it from
then on is queued. -/
theorem connect (ends : i = 0 ∧ j = 1 ∨ i = 1 ∧ j = 0) (size : net.nodes.size = 2)
    (here : net.nodes[i]? = some ⟨Node.peerAt i, e⟩)
    (there : net.nodes[j]? = some ⟨Node.peerAt j, f⟩) (unlinked : ∀ l : Link, net.links[l]? = none)
    (greets : (e.openSession (Node.peerAt j)).Utters (Node.peerAt j) out
      (e.register (Node.peerAt j) f.ledger.head.number))
    (answers : (f.openSession (Node.peerAt i)).Utters (Node.peerAt i) back
      (f.register (Node.peerAt i) e.ledger.head.number))
    (taken : e.journal = [] ∧ f.journal = []) :
    ∃ net', net.connect i j = .ok net' ∧
      Pair net' i j (e.register (Node.peerAt j) f.ledger.head.number).takeJournal.2
        (f.register (Node.peerAt i) e.ledger.head.number).takeJournal.2 out back := by
  obtain ⟨ne, position, position'⟩ : i ≠ j ∧ Node.positionOf (Node.peerAt j) = j ∧
      Node.positionOf (Node.peerAt i) = i := by
    rcases ends with ⟨rfl, rfl⟩ | ⟨rfl, rfl⟩ <;> decide
  have lt := (Array.getElem?_eq_some_iff.1 here).1
  have lt' := (Array.getElem?_eq_some_iff.1 there).1
  obtain ⟨e', registered⟩ : ∃ e', e.register (Node.peerAt j) f.ledger.head.number = e' := ⟨_, rfl⟩
  obtain ⟨f', registered'⟩ : ∃ f', f.register (Node.peerAt i) e.ledger.head.number = f' := ⟨_, rfl⟩
  rw [registered] at greets ⊢
  rw [registered'] at answers ⊢
  have first : net.perform i (.register (Node.peerAt j) f.ledger.head.number) =
      .ok (.done, net.setNode i ⟨Node.peerAt i, e'⟩) := by
    simp only [StepNetwork.perform, here, Engine.perform, registered]
    rfl
  have kept : (net.setNode i ⟨Node.peerAt i, e'⟩).nodes[j]? = some ⟨Node.peerAt j, f⟩ :=
    (Array.getElem?_setIfInBounds_ne ne).trans there
  have second : (net.setNode i ⟨Node.peerAt i, e'⟩).perform j
      (.register (Node.peerAt i) e.ledger.head.number) =
        .ok (.done, (net.setNode i ⟨Node.peerAt i, e'⟩).setNode j ⟨Node.peerAt j, f'⟩) := by
    simp only [StepNetwork.perform, kept, Engine.perform, registered']
    rfl
  refine ⟨(net.setNode i ⟨Node.peerAt i, e'⟩).setNode j ⟨Node.peerAt j, f'⟩, ?_, ends, ?_, ?_, ?_,
    fun l => ?_, rfl, rfl⟩
  · unfold StepNetwork.connect
    simp only [here, there]
    exact Checked.bind_eq_ok_iff.2 ⟨_, first, Checked.bind_eq_ok_iff.2 ⟨_, second, rfl⟩⟩
  · exact Array.size_setIfInBounds.trans (Array.size_setIfInBounds.trans size)
  · exact (Array.getElem?_setIfInBounds_ne ne.symm).trans
      (Array.getElem?_setIfInBounds_self_of_lt lt)
  · refine Array.getElem?_setIfInBounds_self_of_lt (Nat.lt_of_lt_of_eq lt' ?_)
    exact Array.size_setIfInBounds.symm
  · change (f'.journal.foldl (follow j) (e'.journal.foldl (follow i) net.links))[l]? = _
    rw [getElem?_foldl_follow_session position' taken.2 answers,
      getElem?_foldl_follow_session position taken.1 greets, unlinked]
    by_cases way : l = ⟨i, j⟩
    · rw [if_pos way, if_pos way, if_neg]
      rw [way]
      intro same
      exact ne (congrArg Link.sender same)
    · rw [if_neg way, if_neg way]

/-- **A step of two nodes.**  What is queued for the second node is delivered, then what is queued
for the first one, together with what the second one has just sent; then each does its chores. -/
theorem step {e₁ e₂ f₁ f₂ : Engine ChainLedger} {down up said₁ said₂ said₃ said₄ : List Message}
    (h : Pair net 0 1 f e down up)
    (goesOn : ∀ m ∈ down ++ (up ++ said₁), m.isDisconnect = false)
    (hears : Engine.Plays (Node.peerAt 0) (down.map (.receive (Node.peerAt 0))) said₁ e e₁)
    (answers : Engine.Plays (Node.peerAt 1) ((up ++ said₁).map (.receive (Node.peerAt 1))) said₂
      f f₁)
    (chores₀ : Engine.Plays (Node.peerAt 1) StepNetwork.chores said₃ f₁ f₂)
    (chores₁ : Engine.Plays (Node.peerAt 0) StepNetwork.chores said₄ e₁ e₂) :
    ∃ work net', net.step = .ok (work, net') ∧ Pair net' 0 1 f₂ e₂ (said₂ ++ said₃) said₄ := by
  have goesOn := List.forall_mem_append.1 goesOn
  obtain ⟨net₁, drained₁, h₁⟩ := h.symm.drain goesOn.1 hears
  obtain ⟨net₂, drained₂, h₂⟩ := h₁.symm.drain goesOn.2 answers
  obtain ⟨work₃, net₃, done₃, h₃⟩ := h₂.chores chores₀ (0 + down.length + (up ++ said₁).length)
  obtain ⟨work₄, net₄, done₄, h₄⟩ := h₃.symm.chores chores₁ work₃
  refine ⟨work₄, net₄, ?_, h₄.symm⟩
  refine Checked.bind_eq_ok_iff.2 ⟨(0 + down.length + (up ++ said₁).length, net₂), ?_, ?_⟩
  · rw [h.keys]
    refine Checked.bind_eq_ok_iff.2 ⟨(0 + down.length, net₁), ?_, ?_⟩
    · exact Checked.bind_eq_ok_iff.2 ⟨_, drained₁, rfl⟩
    · exact Checked.bind_eq_ok_iff.2 ⟨_, Checked.bind_eq_ok_iff.2 ⟨_, drained₂, rfl⟩, rfl⟩
  · have nodes : List.range net.nodes.size = [0, 1] := by
      rw [h.size]
      rfl
    rw [nodes]
    refine Checked.bind_eq_ok_iff.2 ⟨_, done₃, ?_⟩
    exact Checked.bind_eq_ok_iff.2 ⟨_, done₄, rfl⟩

end Pair

end StepNetwork

end BlockRelay
