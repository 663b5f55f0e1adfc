/-
# Runs

A run of an engine is the list of its moments, newest first.  In a moment an
operation is carried out, or the ledger is changed by other hands: blocks are
produced, transactions submitted, objects forbidden.  `Engine.Run` relates the state
at the start, the moments, and the state that they lead to.

The session of a peer is the part of a run since the peer was registered last.
-/
import Mathlib.Algebra.BigOperators.Group.List.Basic
import Mathlib.Algebra.Order.Ring.Nat
import BlockRelay.Engine.Operation

namespace BlockRelay

variable {σ : Type}

/-- How often an event asks a peer for an object. -/
def Event.asks (id : PeerId) (i : Item) : Event → Nat
  | .sent other (.fetch items) => if other = id then items.count i else 0
  | _ => 0

/-- The announced object that the ledger is asked to apply in an event. -/
def Event.announced? : Event → Option Item
  | .appliedBlock id false => some id.item
  | .appliedTransaction hash => some (.transaction hash)
  | _ => none

/-- Something that happened to an engine.  Without an operation, its ledger was changed by
other hands. -/
structure Moment (σ : Type) where
  before : Engine σ
  operation : Option Operation
  after : Engine σ

namespace Moment

/-- What became visible in a moment. -/
def events (m : Moment σ) : List Event := m.after.journal.drop m.before.journal.length

/-- Whether a moment begins a session with a peer. -/
def opens (m : Moment σ) (id : PeerId) : Bool :=
  match m.operation with
  | some (.register other _) => other = id
  | _ => false

/-- The message from a peer that is handled in a moment. -/
def heard? (m : Moment σ) (id : PeerId) : Option Message :=
  match m.operation with
  | some (.receive other message) => if other = id then some message else none
  | _ => none

/-- How often a peer is asked for an object in a moment. -/
def asked (m : Moment σ) (id : PeerId) (i : Item) : Nat := (m.events.map (Event.asks id i)).sum

/-- How often the ledger is asked to apply an announced object in a moment. -/
def applied (m : Moment σ) (i : Item) : Nat := m.events.countP fun ev => ev.announced? = some i

/-- A session begins where the peer is registered. -/
theorem opens_iff {m : Moment σ} {id : PeerId} :
    m.opens id = true ↔ ∃ height, m.operation = some (.register id height) := by
  unfold opens
  split
  next other height eq => simp [eq]
  next other => simpa using fun height eq => other id height eq

/-- A moment that begins no session with a peer does not register it. -/
theorem ne_register_of_not_opens {e e' : Engine σ} {op : Operation} {id : PeerId}
    (h : ¬ (Moment.mk e (some op) e').opens id = true) (height : UInt64) :
    op ≠ .register id height := fun eq =>
  h (opens_iff.2 ⟨height, congrArg some eq⟩)

/-- What is heard from a peer is the message that is received from it. -/
theorem heard?_eq_some_iff {m : Moment σ} {id : PeerId} {message : Message} :
    m.heard? id = some message ↔ m.operation = some (.receive id message) := by
  unfold heard?
  split
  next other message' eq => simp [eq, ← and_comm]
  next other => simpa using fun eq => other id message eq

end Moment

namespace Engine

/-- The runs from a starting state, newest moment first, with the states that they lead to. -/
inductive Run [Ledger σ] (start : Engine σ) : List (Moment σ) → Engine σ → Prop where
  | start : Run start [] start
  | perform {past : List (Moment σ)} {e e' : Engine σ} {op : Operation} {answer : Outcome} :
    Run start past e → e.perform op = .ok (answer, e') → Run start (⟨e, some op, e'⟩ :: past) e'
  | meddle {past : List (Moment σ)} {e : Engine σ} (ledger : σ) :
    Run start past e → Run start (⟨e, none, { e with ledger }⟩ :: past) { e with ledger }

/-- The part of a run since a peer was registered last. -/
def session (id : PeerId) (past : List (Moment σ)) : List (Moment σ) :=
  past.takeWhile fun m => !m.opens id

/-- The older part of a run is a run. -/
theorem Run.suffix [Ledger σ] {start e : Engine σ} {past older : List (Moment σ)}
    (run : Run start past e) (part : older <:+ past) : ∃ e', Run start older e' := by
  induction run with
  | start =>
    cases List.suffix_nil.1 part
    exact ⟨_, .start⟩
  | perform before done ih =>
    rcases List.suffix_cons_iff.1 part with rfl | part
    · exact ⟨_, before.perform done⟩
    · exact ih part
  | meddle ledger before ih =>
    rcases List.suffix_cons_iff.1 part with rfl | part
    · exact ⟨_, before.meddle ledger⟩
    · exact ih part

/-- What happened before the last moment of a run is a run. -/
theorem Run.before [Ledger σ] {start e : Engine σ} {past : List (Moment σ)} {m : Moment σ}
    (run : Run start (m :: past) e) : Run start past m.before := by
  cases run <;> assumption

/-- What is reached in a moment of a run is reached by the older part of the run. -/
theorem Run.reached [Ledger σ] {start e : Engine σ} {past : List (Moment σ)}
    (run : Run start past e) {m : Moment σ} (mem : m ∈ past) :
    ∃ older, m :: older <:+ past ∧ Run start (m :: older) m.after := by
  obtain ⟨newer, older, rfl⟩ := List.append_of_mem mem
  obtain ⟨e', part⟩ := run.suffix (List.suffix_append newer (m :: older))
  have last : e' = m.after := by cases part <;> rfl
  exact ⟨older, List.suffix_append newer _, last ▸ part⟩

/-- A moment that begins a session has nothing before it in the session; any other one
continues it. -/
theorem session_cons (id : PeerId) (m : Moment σ) (past : List (Moment σ)) :
    session id (m :: past) = if m.opens id then [] else m :: session id past := by
  unfold session
  rw [List.takeWhile_cons]
  cases m.opens id <;> rfl

/-- Whoever changes the ledger begins no session. -/
theorem session_meddle (id : PeerId) (e e' : Engine σ) (past : List (Moment σ)) :
    session id (⟨e, none, e'⟩ :: past) = ⟨e, none, e'⟩ :: session id past :=
  session_cons id _ past

/-- Carry out operations one after the other on top of a run. -/
def trace [Ledger σ] (ops : List Operation) (past : List (Moment σ)) (e : Engine σ) :
    Checked (List (Moment σ) × Engine σ) :=
  match ops with
  | [] => .ok (past, e)
  | op :: rest => do
    let (_, e') ← e.perform op
    e'.trace rest (⟨e, some op, e'⟩ :: past)

/-- Operations that are carried out on top of a run make a longer run. -/
theorem Run.trace [Ledger σ] {start e e' : Engine σ} {past past' : List (Moment σ)}
    {ops : List Operation} (run : Run start past e) (done : e.trace ops past = .ok (past', e')) :
    Run start past' e' := by
  induction ops generalizing past e with
  | nil =>
    cases done
    exact run
  | cons op rest ih =>
    obtain ⟨⟨answer, e₁⟩, performed, done⟩ := Checked.bind_eq_ok_iff.1 done
    exact ih (run.perform performed) done

/-- What is checked to hold after a list of operations holds at the end of some run. -/
theorem exists_run [Ledger σ] (config : Config) (ledger : σ) (clock : Clock)
    (ops : List Operation) (check : List (Moment σ) × Engine σ → Bool)
    (checked : ((Engine.start config ledger clock).bind fun e => e.trace ops []).toOption.any
      check = true) :
    ∃ start past e, Engine.start config ledger clock = .ok start ∧ Run start past e ∧
      check (past, e) = true := by
  simp only [Option.any_eq_true, Checked.toOption_eq_some_iff] at checked
  obtain ⟨⟨past, e⟩, done, passes⟩ := checked
  obtain ⟨start, started, traced⟩ := Checked.bind_eq_ok_iff.1 done
  exact ⟨start, past, e, started, Run.start.trace traced, passes⟩

end Engine

end BlockRelay
