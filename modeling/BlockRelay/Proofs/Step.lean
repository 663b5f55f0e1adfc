/-
# Steps

An operation is carried out in steps.  `Engine.Step` has one constructor for every way in
which the state of an engine changes, with what was checked before the change; `Deed` says
what a step amounts to.  An operation takes steps one after the other, and only steps whose
deeds it allows (`course_perform`).

An invariant of the steps therefore holds throughout every run (`Run.invariant`).

Some invariants are broken while a session or a catch-up begins, and hold again when it has
begun.  For them an operation is taken in moves: steps that begin neither, and beginnings as
a whole (`moves_perform`, `Run.invariant_of_moves`).
-/
import Mathlib.Logic.Relation
import BlockRelay.Engine.Run

namespace BlockRelay

/-- What a step amounts to. -/
inductive Deed where
  /-- A session begins. -/
  | opened (peer : PeerId)
  /-- A session ends. -/
  | left (peer : PeerId)
  /-- A catch-up begins anew. -/
  | restarted (peer : PeerId)
  /-- A summary is sent. -/
  | summarized (peer : PeerId)
  /-- A legal reply to a summary ends a catch-up. -/
  | finished (peer : PeerId)
  /-- A legal reply to a summary is joined to what is still to be fetched. -/
  | joined (peer : PeerId) (ids : List BlockId)
  /-- A block is taken from a peer that was asked for it. -/
  | tookBlock (peer : PeerId) (block : Block)
  /-- A transaction is taken from a peer that was asked for it. -/
  | tookTransaction (peer : PeerId) (transaction : Transaction)
  /-- Candidates are reserved, and the peers are asked for them. -/
  | reserved
  /-- A peer is asked for blocks of a catch-up. -/
  | requested (peer : PeerId)
  /-- An item that a peer announced is noted. -/
  | noted (peer : PeerId) (item : Item)
  /-- Stale candidates are dropped. -/
  | sorted
  /-- A waiting block is next in line, and is settled. -/
  | settled
  /-- A waiting block is next in line, and is refused. -/
  | refused
  /-- An object is queued for announcement. -/
  | queued (message : Message)
  /-- Applying waiting blocks is no longer due. -/
  | rested
  /-- What is out of date is forgotten. -/
  | forgot
  /-- Anything else. -/
  | internal
  deriving DecidableEq

/-- The deeds that an operation may consist of. -/
def Operation.Allows (op : Operation) : Deed → Prop
  | .opened id => ∃ height, op = .register id height
  | .finished id => ∃ ids remaining, op = .receive id (.summaryReply ids remaining)
  | .joined id ids => ∃ remaining, op = .receive id (.summaryReply ids remaining)
  | .noted id i => ∃ items, op = .receive id (.announce items) ∧ i ∈ items
  | .tookBlock id b => op = .receive id (.block b)
  | .tookTransaction id t =>
    op = .receive id (.transaction t) ∨ ∃ ts, op = .receive id (.transactions ts) ∧ t ∈ ts
  | .reserved => op = .reserveCandidates
  | .requested _ => op = .issueRequests ∨ op = .issueTick
  | .settled | .refused => op = .applyWaiting ∨ op = .applyTick
  | .queued m => op = .broadcast m
  | .rested => op = .applyTick
  | .forgot => op = .forgetOutdated
  | .left _ | .restarted _ | .summarized _ | .sorted | .internal => True

/-- The deeds that every operation may consist of. -/
def Deed.IsRoutine (d : Deed) : Prop := ∀ op : Operation, op.Allows d

/-- A deed is routine unless it takes an operation of its own. -/
theorem Deed.isRoutine_iff {d : Deed} : d.IsRoutine ↔
    match d with
    | .left _ | .restarted _ | .summarized _ | .sorted | .internal => True
    | _ => False := by
  constructor
  · intro h
    have unexplained := h .announceSpread
    cases d <;> first | trivial | simp [Operation.Allows] at unexplained
  · intro h op
    cases d <;> trivial

/-- Whether a deed begins neither a session nor a catch-up. -/
def Deed.IsPlain : Deed → Prop
  | .opened _ | .restarted _ => False
  | _ => True

namespace Engine

variable {σ : Type} [Ledger σ]

/-- One step of an engine. -/
inductive Step : Deed → Engine σ → Engine σ → Prop where
  /-- A session begins with a peer that is not registered. -/
  | openSession {e : Engine σ} {id : PeerId} (unknown : e.peers[id]? = none) :
    Step (.opened id) e (e.openSession id)
  /-- A peer that has just connected has nothing for us. -/
  | welcome {e : Engine σ} {id : PeerId}
      (hp : e.peers[id]? = some (Peer.connected e.genesis e.now)) :
    Step .internal e (e.modifyPeer id fun p => { p with phase := .caughtUp })
  /-- A session ends. -/
  | remove {e : Engine σ} {id : PeerId} {p : Peer} (r : Option Reason)
      (hp : e.peers[id]? = some p) :
    Step (.left id) e (e.remove id r)
  /-- A catch-up begins anew. -/
  | restart {e : Engine σ} {id : PeerId} {p : Peer} (hp : e.peers[id]? = some p) :
    Step (.restarted id) e (e.restart id)
  /-- A summary is sent while none is outstanding. -/
  | sendSummary {e : Engine σ} {id : PeerId} {p : Peer} {ids : List BlockId}
      (hp : e.peers[id]? = some p) (settled : p.summary = none)
      (sample : Ledger.sampleChain e.ledger p.bothHave p.toFetch = .ok ids) :
    Step (.summarized id) e (e.sendSummary id ids)
  /-- A summary is answered. -/
  | sendAnswer {e : Engine σ} {id : PeerId} {p : Peer} {summary ids : List BlockId}
      (hp : e.peers[id]? = some p) (missing : e.missingFor summary = .ok ids) :
    Step .internal e (e.sendAnswer id summary ids)
  /-- A legal reply shows that the peer has nothing that we lack. -/
  | finishCatchUp {e e' : Engine σ} {id : PeerId} {p : Peer} {s : SummaryRequest}
      {ids : List BlockId} {remaining : UInt64}
      (hp : e.peers[id]? = some p) (asked : p.summary = some s)
      (legal : e.chainFacts.judge e.config.net e.clock.wallTime s.ids ids remaining =
        .ok (.ok ()))
      (nothing : p.nothingNew (ids.map fun b => (b, Ledger.containsBlock e.ledger b)) = true)
      (done : e.finishCatchUp id { p with summary := none } = .ok e') :
    Step (.finished id) e e'
  /-- A legal reply is joined to what is still to be fetched. -/
  | takeUp {e e' : Engine σ} {id : PeerId} {p : Peer} {s : SummaryRequest}
      {ids : List BlockId} {remaining : UInt64} {elsewhere enough : Bool}
      (hp : e.peers[id]? = some p) (asked : p.summary = some s)
      (legal : e.chainFacts.judge e.config.net e.clock.wallTime s.ids ids remaining =
        .ok (.ok ()))
      (done : e.takeUp id
        ({ p with summary := none }.continueCatchUp
          (ids.map fun b => (b, Ledger.containsBlock e.ledger b)) remaining elsewhere e.recent)
        enough = .ok e') :
    Step (.joined id ids) e e'
  /-- An announced item is taken in. -/
  | takeIn {e : Engine σ} {id : PeerId} {p : Peer} (i : Item) (hp : e.peers[id]? = some p) :
    Step (.noted id i) e (e.takeIn id i)
  /-- The metrics change. -/
  | measure (e : Engine σ) (metrics : Metrics) : Step .internal e { e with metrics := metrics }
  /-- The spread set is announced. -/
  | announceSpread (e : Engine σ) : Step .internal e e.announceSpread.2
  /-- Stale candidates are dropped. -/
  | dropStale (e : Engine σ) (maxAge : Nat) :
    Step .sorted e { e with candidates := (e.candidates.dropStale e.now maxAge).2 }
  /-- Candidates are reserved. -/
  | reserve (e : Engine σ) : Step .reserved e (e.reserveAll.2.requestReserved e.reserveAll.1)
  /-- A request is served. -/
  | serve {e : Engine σ} {id : PeerId} {p : Peer} (items : List Item)
      (hp : e.peers[id]? = some p) :
    Step .internal e (e.serve id items)
  /-- A block of a catch-up arrives. -/
  | arrive {e : Engine σ} {id : PeerId} {p : Peer} {b : Block}
      (hp : e.peers[id]? = some p) (asked : p.blocksAsked.contains b.id.hash = true) :
    Step (.tookBlock id b) e
      ({ e with peers := e.peers.insert id (p.takeDelivery b.id) }.arrive id b)
  /-- An announced block is submitted. -/
  | submitAnnounced {e e' : Engine σ} {id : PeerId} {p : Peer} {b : Block} {r : Option Refusal}
      (hp : e.peers[id]? = some p) (notAsked : p.blocksAsked.contains b.id.hash = false)
      (reserved : p.reserved.contains b.id.item = true)
      (done : { e with peers := e.peers.insert id (p.takeDelivery b.id) }.submitAnnounced b =
        .ok (r, e')) :
    Step (.tookBlock id b) e e'
  /-- An announced transaction is submitted. -/
  | submitTransaction {e : Engine σ} {id : PeerId} {p : Peer} {t : Transaction}
      (hp : e.peers[id]? = some p) (reserved : p.reserved.contains t.item = true) :
    Step (.tookTransaction id t) e
      ((e.modifyPeer id fun p =>
        { p with reserved := p.reserved.erase t.item }).submitTransaction t).2
  /-- A peer that is not busy is asked for blocks of its queue that nobody else was asked for. -/
  | requestBlocks {e : Engine σ} {id : PeerId} {p : Peer} {batch : List BlockId}
      (hp : e.peers[id]? = some p) (needed : p.needFromPeer = true)
      (free : p.isBusy = false) (queued : batch.Sublist p.toFetch)
      (short : batch.length ≤ e.config.sync.maxPerPeer)
      (unasked : ∀ b ∈ batch, e.requested.contains b.hash e.now = false) :
    Step (.requested id) e (e.requestBlocks id batch)
  /-- Asking for blocks becomes due or is no longer due, or applying them becomes due. -/
  | due (e : Engine σ) (issueDue : Bool) {applyDue : Bool}
      (kept : e.applyDue = true → applyDue = true) :
    Step .internal e { e with issueDue := issueDue, applyDue := applyDue }
  /-- Waiting blocks are about to be applied, so that this is no longer due. -/
  | rest (e : Engine σ) : Step .rested e { e with applyDue := false }
  /-- Arrived blocks are put with those that wait. -/
  | absorb (e : Engine σ) : Step .internal e e.absorb
  /-- Asking for blocks is suspended, or is no longer suspended. -/
  | suspend (e : Engine σ) (suspended : Bool) :
    Step .internal e { e with suspended := suspended }
  /-- A waiting block whose origin has left is dropped. -/
  | dropOrphan {e : Engine σ} {hash : Hash} {w : WaitingBlock} (hw : e.waiting[hash]? = some w)
      (gone : e.peers[w.origin]? = none) :
    Step .internal e (e.dropOrphan hash)
  /-- A waiting block that is next in line is settled. -/
  | settle {e e' : Engine σ} {hash : Hash} {w : WaitingBlock} (hw : e.waiting[hash]? = some w)
      (next : e.anyPeer (heads hash) = true)
      (done : (e.takeNext hash).submitFetched w.block = .ok (none, e')) :
    Step .settled e e'
  /-- A waiting block that is next in line is refused, and the peers that had it in front are
  left. -/
  | refuse {e e' : Engine σ} {hash : Hash} {w : WaitingBlock} {error : Refusal}
      (hw : e.waiting[hash]? = some w) (next : e.anyPeer (heads hash) = true)
      (done : (e.takeNext hash).submitFetched w.block = .ok (some error, e')) :
    Step .refused e (e'.leaveOffenders w.block.id.hash error.reason)
  /-- What is out of date is forgotten. -/
  | forgetOutdated {e e' : Engine σ} {n : Nat} (done : e.forgetOutdated = .ok (n, e')) :
    Step .forgot e e'
  /-- The flood window moves on. -/
  | advanceFlood (e : Engine σ) : Step .internal e e.advanceFlood
  /-- Time passes. -/
  | advanceClock (e : Engine σ) (ms : Nat) : Step .internal e (e.advanceClock ms)
  /-- An object is queued for announcement. -/
  | broadcast (e : Engine σ) (m : Message) : Step (.queued m) e (e.broadcast m)

/-- A sequence of steps whose deeds are allowed. -/
def Course (allowed : Deed → Prop) : Engine σ → Engine σ → Prop :=
  Relation.ReflTransGen fun e e' => ∃ d, allowed d ∧ Step d e e'

namespace Course

variable {allowed wider : Deed → Prop} {e e₁ e₂ : Engine σ}

/-- Taking no step at all. -/
theorem refl (e : Engine σ) : Course allowed e e := Relation.ReflTransGen.refl

/-- One course after the other. -/
theorem trans (h : Course allowed e e₁) (h' : Course allowed e₁ e₂) : Course allowed e e₂ :=
  Relation.ReflTransGen.trans h h'

/-- A single step. -/
theorem step {d : Deed} (h : Step d e e₁) (allows : allowed d) : Course allowed e e₁ :=
  Relation.ReflTransGen.single ⟨d, allows, h⟩

/-- What is allowed may be widened. -/
theorem mono (wide : ∀ d, allowed d → wider d) (h : Course allowed e e₁) :
    Course wider e e₁ :=
  Relation.ReflTransGen.mono (fun _ _ ⟨d, allows, step⟩ => ⟨d, wide d allows, step⟩) _ _ h

/-- What every step preserves, a course preserves. -/
theorem preserves {I : Engine σ → Prop}
    (step : ∀ {d : Deed} {e e' : Engine σ}, allowed d → Step d e e' → I e → I e')
    (h : Course allowed e e₁) (start : I e) : I e₁ := by
  induction h with
  | refl => exact start
  | tail _ last ih =>
    obtain ⟨_, allows, last⟩ := last
    exact step allows last ih

end Course

/-! ## Sessions -/

/-- Removing a peer ends its session, if it has one. -/
theorem course_remove (e : Engine σ) (id : PeerId) (r : Option Reason) :
    Course Deed.IsRoutine e (e.remove id r) := by
  cases hp : e.peers[id]? with
  | none =>
    rw [remove_of_unknown hp]
    exact .refl e
  | some p => exact .step (.remove r hp) fun _ => trivial

/-! ## Summaries -/

/-- The next summary is one step, or nothing changes. -/
theorem nextSummary_cases (e : Engine σ) (id : PeerId) :
    e.nextSummary id = e ∨ Step (.summarized id) e (e.nextSummary id) ∨
      Step (.left id) e (e.nextSummary id) := by
  unfold nextSummary
  cases hp : e.peers[id]? with
  | none => exact .inl rfl
  | some p =>
    cases hs : p.summary with
    | some s => exact .inl (by simp [hs])
    | none =>
      refine .inr ?_
      cases sample : Ledger.sampleChain e.ledger p.bothHave p.toFetch with
      | error =>
        simpa only [hs, sample] using .inr (.remove (some .forked) hp)
      | ok ids => simpa only [hs, sample] using .inl (.sendSummary hp hs sample)

/-- The next summary is sent, or the peer is left. -/
theorem course_nextSummary (e : Engine σ) (id : PeerId) :
    Course Deed.IsRoutine e (e.nextSummary id) := by
  rcases nextSummary_cases e id with eq | s | s
  · rw [eq]
    exact .refl e
  · exact .step s fun _ => trivial
  · exact .step s fun _ => trivial

/-- A catch-up begins anew, and goes on with the next summary. -/
theorem course_startCatchUp (e : Engine σ) (id : PeerId) :
    Course Deed.IsRoutine e (e.startCatchUp id) := by
  unfold startCatchUp
  by_cases known : e.isRegistered id = true
  · obtain ⟨p, hp⟩ := isRegistered_iff.1 known
    rw [if_pos known]
    exact (Course.step (.restart hp) fun _ => trivial).trans (course_nextSummary _ id)
  · rw [if_neg known]
    exact .refl e

/-- What follows the beginning of a session. -/
theorem course_welcome (e : Engine σ) (id : PeerId) (height : UInt64) :
    Course Deed.IsRoutine ((e.remove id none).openSession id) (e.register id height) := by
  simp only [register]
  split
  · exact course_startCatchUp _ id
  · exact .step (.welcome ((peers_openSession ..).trans (if_pos rfl))) fun _ => trivial

/-! ## Moves -/

/-- A move of an engine: a step that begins neither a session nor a catch-up, or the whole of
what begins one. -/
inductive Move : Deed → Engine σ → Engine σ → Prop where
  | step {d : Deed} {e e' : Engine σ} (s : Step d e e') (plain : d.IsPlain) : Move d e e'
  | startCatchUp (e : Engine σ) (id : PeerId) : Move (.restarted id) e (e.startCatchUp id)
  | register (e : Engine σ) (id : PeerId) (height : UInt64) :
    Move (.opened id) e (e.register id height)

/-- A sequence of moves whose deeds are allowed. -/
def Moves (allowed : Deed → Prop) : Engine σ → Engine σ → Prop :=
  Relation.ReflTransGen fun e e' => ∃ d, allowed d ∧ Move d e e'

namespace Moves

variable {allowed wider : Deed → Prop} {e e₁ e₂ : Engine σ}

/-- Making no move at all. -/
theorem refl (e : Engine σ) : Moves allowed e e := Relation.ReflTransGen.refl

/-- Moves after moves. -/
theorem trans (h : Moves allowed e e₁) (h' : Moves allowed e₁ e₂) : Moves allowed e e₂ :=
  Relation.ReflTransGen.trans h h'

/-- A single move. -/
theorem move {d : Deed} (h : Move d e e₁) (allows : allowed d) : Moves allowed e e₁ :=
  Relation.ReflTransGen.single ⟨d, allows, h⟩

/-- A single step that begins neither a session nor a catch-up. -/
theorem step {d : Deed} (h : Step d e e₁) (plain : d.IsPlain) (allows : allowed d) :
    Moves allowed e e₁ :=
  .move (.step h plain) allows

/-- What is allowed may be widened. -/
theorem mono (wide : ∀ d, allowed d → wider d) (h : Moves allowed e e₁) : Moves wider e e₁ :=
  Relation.ReflTransGen.mono (fun _ _ ⟨d, allows, move⟩ => ⟨d, wide d allows, move⟩) _ _ h

/-- What every operation may do, each one may. -/
theorem ofRoutine (op : Operation) (h : Moves Deed.IsRoutine e e₁) : Moves op.Allows e e₁ :=
  h.mono fun _ routine => routine op

/-- Moves for each element of a list make moves for the list. -/
theorem foldl {α : Type} {f : Engine σ → α → Engine σ}
    (one : ∀ (e : Engine σ) (a : α), Moves allowed e (f e a)) (list : List α) (e : Engine σ) :
    Moves allowed e (list.foldl f e) := by
  induction list generalizing e with
  | nil => exact refl e
  | cons a rest ih => exact (one e a).trans (ih (f e a))

/-- What every move preserves, moves preserve. -/
theorem preserves {I : Engine σ → Prop}
    (move : ∀ {d : Deed} {e e' : Engine σ}, allowed d → Move d e e' → I e → I e')
    (h : Moves allowed e e₁) (start : I e) : I e₁ := by
  induction h with
  | refl => exact start
  | tail _ last ih =>
    obtain ⟨_, allows, last⟩ := last
    exact move allows last ih

/-- Moves are courses, as what begins a session or a catch-up is taken in routine steps. -/
theorem course (routine : ∀ d : Deed, d.IsRoutine → allowed d) (h : Moves allowed e e₁) :
    Course allowed e e₁ := by
  induction h with
  | refl => exact .refl e
  | tail _ last ih =>
    refine ih.trans ?_
    obtain ⟨d, allows, last⟩ := last
    cases last with
    | step s => exact .step s allows
    | startCatchUp _ id => exact (course_startCatchUp _ id).mono routine
    | register _ id height =>
      refine ((course_remove _ id none).mono routine).trans ?_
      refine (Course.step (.openSession ?_) allows).trans ((course_welcome _ id height).mono routine)
      rw [peers_remove, if_pos rfl]

end Moves

/-- Removing a peer ends its session, if it has one. -/
theorem moves_remove (e : Engine σ) (id : PeerId) (r : Option Reason) :
    Moves Deed.IsRoutine e (e.remove id r) := by
  cases hp : e.peers[id]? with
  | none =>
    rw [remove_of_unknown hp]
    exact .refl e
  | some p => exact .step (.remove r hp) trivial fun _ => trivial

/-- Leaving several peers ends their sessions. -/
theorem moves_disconnectAll (e : Engine σ) (leaving : List (PeerId × Reason)) :
    Moves Deed.IsRoutine e (e.disconnectAll leaving) :=
  Moves.foldl (fun e (l : PeerId × Reason) => moves_remove e l.1 (some l.2)) leaving e

/-- The next summary is sent, or the peer is left. -/
theorem moves_nextSummary (e : Engine σ) (id : PeerId) :
    Moves Deed.IsRoutine e (e.nextSummary id) := by
  rcases nextSummary_cases e id with eq | s | s
  · rw [eq]
    exact .refl e
  · exact .step s trivial fun _ => trivial
  · exact .step s trivial fun _ => trivial

/-- A catch-up begins anew. -/
theorem moves_startCatchUp (e : Engine σ) (id : PeerId) :
    Moves Deed.IsRoutine e (e.startCatchUp id) :=
  .move (.startCatchUp e id) fun _ => trivial

/-- Several peers are caught up with. -/
theorem moves_startCatchUps (e : Engine σ) (ids : List PeerId) :
    Moves Deed.IsRoutine e (e.startCatchUps ids) :=
  Moves.foldl moves_startCatchUp ids e

/-- Several peers are sent the next summary. -/
theorem moves_nextSummaries (e : Engine σ) (ids : List PeerId) :
    Moves Deed.IsRoutine e (e.nextSummaries ids) :=
  Moves.foldl moves_nextSummary ids e

/-! ## Summaries and replies -/

/-- A summary is answered, and may start a catch-up. -/
theorem moves_answerSummary {e e' : Engine σ} {id : PeerId} {summary : List BlockId}
    (done : e.answerSummary id summary = .ok e') : Moves Deed.IsRoutine e e' := by
  obtain ⟨ids, missing, done⟩ := Checked.bind_eq_ok_iff.1 done
  cases hp : e.peers[id]? with
  | none =>
    simp only [hp] at done
    cases done
    exact .refl e
  | some p =>
    simp only [hp] at done
    split at done
    · cases done
      exact moves_remove e id _
    · cases done
      refine (Moves.step (.sendAnswer hp missing) trivial fun _ => trivial).trans ?_
      split
      · exact moves_startCatchUp _ id
      · exact .refl _

/-- What is done with a legal reply. -/
theorem receiveReply_eq_of_legal {e : Engine σ} {id : PeerId} {ids : List BlockId}
    {remaining : UInt64} {p : Peer} {s : SummaryRequest} (hp : e.peers[id]? = some p)
    (hs : p.summary = some s)
    (legal : e.chainFacts.judge e.config.net e.clock.wallTime s.ids ids remaining =
      .ok (.ok ())) :
    let stored := ids.map fun b => (b, Ledger.containsBlock e.ledger b)
    e.receiveReply id ids remaining =
      if remaining = 0 && p.nothingNew stored then e.finishCatchUp id { p with summary := none }
      else e.resumeCatchUp id { p with summary := none } stored remaining := by
  simp only [receiveReply, hp, hs, legal]
  rfl

/-- A legal reply ends the catch-up, or is joined, and the next summary may follow. -/
theorem receiveReply_of_legal {e e' : Engine σ} {id : PeerId} {ids : List BlockId}
    {remaining : UInt64} {p : Peer} {s : SummaryRequest} (hp : e.peers[id]? = some p)
    (hs : p.summary = some s)
    (legal : e.chainFacts.judge e.config.net e.clock.wallTime s.ids ids remaining = .ok (.ok ()))
    (done : e.receiveReply id ids remaining = .ok e') :
    let stored := ids.map fun b => (b, Ledger.containsBlock e.ledger b)
    remaining = 0 ∧ p.nothingNew stored = true ∧
        e.finishCatchUp id { p with summary := none } = .ok e' ∨
      ∃ elsewhere enough e₁, e.takeUp id ({ p with summary := none }.continueCatchUp stored
          remaining elsewhere e.recent) enough = .ok e₁ ∧
        (e' = e₁ ∨ e' = e₁.nextSummary id) := by
  rw [receiveReply_eq_of_legal hp hs legal] at done
  split at done
  next nothing =>
    rw [Bool.and_eq_true, decide_eq_true_eq] at nothing
    exact .inl ⟨nothing.1, nothing.2, done⟩
  next =>
    obtain ⟨e₁, taken, done⟩ := Checked.bind_eq_ok_iff.1 done
    cases done
    refine .inr ⟨_, _, e₁, taken, ?_⟩
    -- the next summary follows unless there is enough to fetch
    generalize (if remaining = 0 then _ else _ : Bool) = enough
    cases enough with
    | true => exact .inl rfl
    | false => exact .inr rfl

/-- A reply of a registered peer is received as a reply. -/
theorem perform_reply {e : Engine σ} {id : PeerId} {p : Peer} (hp : e.peers[id]? = some p)
    (ids : List BlockId) (remaining : UInt64) :
    e.perform (.receive id (.summaryReply ids remaining)) =
      (e.receiveReply id ids remaining).map fun e' => (.done, e') := by
  have heard : e.receive id (.summaryReply ids remaining) = e.receiveReply id ids remaining :=
    if_pos (isRegistered_iff.2 ⟨p, hp⟩)
  rw [perform, heard]
  cases e.receiveReply id ids remaining <;> rfl

/-- A reply that is not legal, or to no summary, ends the session. -/
theorem receiveReply_of_not_legal {e e' : Engine σ} {id : PeerId} {ids : List BlockId}
    {remaining : UInt64} {p : Peer} (hp : e.peers[id]? = some p)
    (illegal : ∀ s, p.summary = some s →
      e.chainFacts.judge e.config.net e.clock.wallTime s.ids ids remaining ≠ .ok (.ok ()))
    (done : e.receiveReply id ids remaining = .ok e') : e' = e.disconnect id .badProtocol := by
  simp only [receiveReply, hp] at done
  cases hs : p.summary with
  | none =>
    simp only [hs] at done
    cases done
    rfl
  | some s =>
    simp only [hs] at done
    obtain ⟨verdict, judged, done⟩ := Checked.bind_eq_ok_iff.1 done
    cases verdict with
    | error =>
      cases done
      rfl
    | ok => exact absurd judged (illegal s hs)

/-- **A reply.**  An unsolicited or illegal reply ends the session.  A legal one ends the
catch-up, or is joined, and the next summary may follow. -/
theorem receiveReply_cases {e e' : Engine σ} {id : PeerId} {ids : List BlockId}
    {remaining : UInt64} {p : Peer} (hp : e.peers[id]? = some p)
    (done : e.receiveReply id ids remaining = .ok e') :
    e' = e.disconnect id .badProtocol ∨
      ∃ s, p.summary = some s ∧
        e.chainFacts.judge e.config.net e.clock.wallTime s.ids ids remaining = .ok (.ok ()) ∧
        let stored := ids.map fun b => (b, Ledger.containsBlock e.ledger b)
        (remaining = 0 ∧ p.nothingNew stored = true ∧
            e.finishCatchUp id { p with summary := none } = .ok e' ∨
          ∃ elsewhere enough e₁, e.takeUp id ({ p with summary := none }.continueCatchUp stored
              remaining elsewhere e.recent) enough = .ok e₁ ∧
            (e' = e₁ ∨ e' = e₁.nextSummary id)) := by
  by_cases legal : ∃ s, p.summary = some s ∧
      e.chainFacts.judge e.config.net e.clock.wallTime s.ids ids remaining = .ok (.ok ())
  · obtain ⟨s, hs, legal⟩ := legal
    exact .inr ⟨s, hs, legal, receiveReply_of_legal hp hs legal done⟩
  · exact .inl (receiveReply_of_not_legal hp (fun s hs ok => legal ⟨s, hs, ok⟩) done)

/-- A reply ends the session, ends the catch-up, or is joined. -/
theorem moves_receiveReply {e e' : Engine σ} {id : PeerId} {ids : List BlockId}
    {remaining : UInt64} (done : e.receiveReply id ids remaining = .ok e') :
    Moves (Operation.receive id (.summaryReply ids remaining)).Allows e e' := by
  cases hp : e.peers[id]? with
  | none =>
    simp only [receiveReply, hp] at done
    cases done
    exact .refl e
  | some p =>
    rcases receiveReply_cases hp done with rfl | ⟨s, hs, legal, ⟨-, nothing, done⟩ | joined⟩
    · exact (moves_remove e id _).ofRoutine _
    · exact .step (.finishCatchUp hp hs legal nothing done) trivial ⟨ids, remaining, rfl⟩
    · obtain ⟨elsewhere, enough, e₁, taken, rfl | rfl⟩ := joined
      · exact .step (.takeUp hp hs legal taken) trivial ⟨remaining, rfl⟩
      · refine (Moves.step (.takeUp hp hs legal taken) trivial ⟨remaining, rfl⟩).trans ?_
        exact (moves_nextSummary _ id).ofRoutine _

/-! ## Announcements and deliveries -/

omit [Ledger σ] in
/-- Taking in an announced item ends no session. -/
theorem isRegistered_takeIn (e : Engine σ) (id : PeerId) (i : Item) (other : PeerId) :
    (e.takeIn id i).isRegistered other = e.isRegistered other := by
  unfold takeIn
  split
  · rfl
  · dsimp only
    split <;> exact isRegistered_modifyPeer ..

/-- Announced items are taken in one after the other. -/
theorem moves_takeIns {allowed : Deed → Prop} (id : PeerId) (items : List Item)
    (allows : ∀ i ∈ items, allowed (.noted id i)) {e : Engine σ}
    (known : e.isRegistered id = true) :
    Moves allowed e (items.foldl (fun e i => e.takeIn id i) e) := by
  induction items generalizing e with
  | nil => exact .refl e
  | cons i rest ih =>
    obtain ⟨p, hp⟩ := isRegistered_iff.1 known
    refine (Moves.step (.takeIn i hp) trivial (allows i (List.mem_cons_self ..))).trans ?_
    refine ih (fun j mem => allows j (List.mem_cons_of_mem _ mem)) ?_
    rw [isRegistered_takeIn, known]

/-- An announcement is passed over, refused, or taken in. -/
theorem moves_receiveAnnouncement {e e' : Engine σ} {id : PeerId} {items : List Item}
    (done : e.receiveAnnouncement id items = .ok e') :
    Moves (Operation.receive id (.announce items)).Allows e e' := by
  unfold receiveAnnouncement at done
  cases hp : e.peers[id]? with
  | none =>
    simp only [hp] at done
    cases done
    exact .refl e
  | some p =>
    simp only [hp] at done
    obtain ⟨cap, -, done⟩ := Checked.bind_eq_ok_iff.1 done
    split at done
    · cases done
      exact .refl e
    · -- only announcements of transactions have a budget; what follows is the same for all
      have judged {budget : Checked Bool} (done : (do
          if ← budget then return { e with metrics := e.metrics.countRejection }
          else return (e.freshItems items).foldl (fun e i => e.takeIn id i) e) = .ok e') :
          Moves (Operation.receive id (.announce items)).Allows e e' := by
        obtain ⟨refused, -, done⟩ := Checked.bind_eq_ok_iff.1 done
        cases refused with
        | true =>
          cases done
          exact .step (.measure e _) trivial trivial
        | false =>
          cases done
          refine moves_takeIns id _ (fun i fresh => ?_) (isRegistered_iff.2 ⟨p, hp⟩)
          exact ⟨items, rfl, (List.mem_filter.1 fresh).1⟩
      split at done <;> exact judged done

/-- What follows the submission of an announced block.  Nothing follows one that is not
refused. -/
theorem moves_applyAnnounced {e e' : Engine σ} {id : PeerId} {b : Block}
    (done : e.applyAnnounced id b = .ok e') :
    ∃ r e₁, e.submitAnnounced b = .ok (r, e₁) ∧ Moves Deed.IsRoutine e₁ e' ∧
      (r = none → e' = e₁) := by
  obtain ⟨⟨r, e₁⟩, submitted, done⟩ := Checked.bind_eq_ok_iff.1 done
  refine ⟨r, e₁, submitted, ?_⟩
  split at done
  next eq =>
    cases eq
    cases done
    exact ⟨.refl _, fun _ => rfl⟩
  next eq =>
    cases eq
    cases done
    exact ⟨moves_startCatchUp _ id, nofun⟩
  next eq =>
    cases eq
    cases done
    exact ⟨moves_remove _ id _, nofun⟩

/-- What follows the arrival of a block of a catch-up. -/
theorem moves_receiveRequested (e : Engine σ) (id : PeerId) (p : Peer) (b : Block) :
    Moves Deed.IsRoutine (e.arrive id b) (e.receiveRequested id p b) := by
  unfold receiveRequested
  split
  · exact .refl _
  · split
    · exact moves_nextSummary _ id
    · exact .step (.due _ true fun due => due) trivial fun _ => trivial

/-- **A delivered block.**  It ends the session of a peer that was not asked for it; from any
other peer it is taken, and only routine steps follow. -/
theorem receiveBlock_cases {e e' : Engine σ} {id : PeerId} {b : Block} {p : Peer}
    (hp : e.peers[id]? = some p) (done : e.receiveBlock id b = .ok e') :
    (p.blocksAsked.contains b.id.hash = false ∧ p.reserved.contains b.id.item = false ∧
        e' = e.disconnect id .badProtocol) ∨
      ((p.blocksAsked.contains b.id.hash = true ∨ p.reserved.contains b.id.item = true) ∧
        ∃ e₁, Step (.tookBlock id b) e e₁ ∧ Moves Deed.IsRoutine e₁ e') := by
  simp only [receiveBlock, hp] at done
  split at done
  next asked =>
    cases done
    exact .inr ⟨.inl asked, _, .arrive hp asked, moves_receiveRequested _ id _ b⟩
  next notAsked =>
    rw [Bool.not_eq_true] at notAsked
    split at done
    next reserved =>
      obtain ⟨r, e₁, submitted, rest, -⟩ := moves_applyAnnounced done
      exact .inr ⟨.inr reserved, e₁, .submitAnnounced hp notAsked reserved submitted, rest⟩
    next notReserved =>
      rw [Bool.not_eq_true] at notReserved
      cases done
      exact .inl ⟨notAsked, notReserved, rfl⟩

/-- A delivered block is taken, or the session ends. -/
theorem moves_receiveBlock {e e' : Engine σ} {id : PeerId} {b : Block}
    (done : e.receiveBlock id b = .ok e') :
    Moves (Operation.receive id (.block b)).Allows e e' := by
  cases hp : e.peers[id]? with
  | none =>
    simp only [receiveBlock, hp] at done
    cases done
    exact .refl e
  | some p =>
    rcases receiveBlock_cases hp done with ⟨-, -, rfl⟩ | ⟨-, e₁, took, rest⟩
    · exact (moves_remove e id _).ofRoutine _
    · have first : Moves (Operation.receive id (.block b)).Allows e e₁ := .step took trivial rfl
      exact first.trans (rest.ofRoutine _)

/-- A delivered transaction is taken, or the session ends. -/
theorem moves_receiveTransaction (e : Engine σ) (id : PeerId) (t : Transaction) :
    Moves (fun d => d.IsRoutine ∨ d = .tookTransaction id t) e (e.receiveTransaction id t) := by
  have widen {e₁ e₂ : Engine σ} (h : Moves Deed.IsRoutine e₁ e₂) :
      Moves (fun d => d.IsRoutine ∨ d = .tookTransaction id t) e₁ e₂ := h.mono fun _ => .inl
  cases hp : e.peers[id]? with
  | none =>
    simp only [receiveTransaction, hp]
    exact .refl e
  | some p =>
    simp only [receiveTransaction, hp]
    split
    next reserved =>
      refine (Moves.step (.submitTransaction hp reserved) trivial (.inr rfl)).trans ?_
      unfold applyDelivered
      split
      next eq =>
        rw [eq]
        exact .refl _
      next eq =>
        rw [eq]
        exact widen (moves_remove _ id _)
    next => exact widen (moves_remove e id _)

/-- Delivered transactions are taken one after the other. -/
theorem moves_receiveTransactions (e : Engine σ) (id : PeerId) (ts : List Transaction) :
    Moves (fun d => d.IsRoutine ∨ ∃ t ∈ ts, d = .tookTransaction id t) e
      (e.receiveTransactions id ts) := by
  unfold receiveTransactions
  induction ts generalizing e with
  | nil => exact .refl e
  | cons t rest ih =>
    refine ((moves_receiveTransaction e id t).mono ?_).trans ((ih _).mono ?_)
    · rintro d (routine | rfl)
      · exact .inl routine
      · exact .inr ⟨t, List.mem_cons_self .., rfl⟩
    · rintro d (routine | ⟨t', ht', rfl⟩)
      · exact .inl routine
      · exact .inr ⟨t', List.mem_cons_of_mem _ ht', rfl⟩

/-! ## Blocks of a catch-up -/

/-- One visit asks a peer for blocks, or leaves it alone. -/
theorem moves_issueVisit (s : IssuePass σ) {id : PeerId} {p : Peer}
    (hp : s.engine.peers[id]? = some p) :
    Moves (· = .requested id) s.engine (s.visit id p).engine := by
  unfold IssuePass.visit
  split
  next => exact .refl _
  next nonempty =>
    obtain ⟨needed, free⟩ := IssuePass.free_of_batchFor_ne_nil nonempty
    exact .step (.requestBlocks hp needed free (s.batchFor_sublist p) (s.length_batchFor_le p)
      fun b hb => IssuePass.unasked_of_mem_batchFor hb) trivial rfl

/-- A pass asks peers for blocks, one after the other. -/
theorem moves_issueRequests (e : Engine σ) :
    Moves (fun d => ∃ id, d = .requested id) e e.issueRequests.2 := by
  refine issueRequests_induction
    (P := fun s => Moves (fun d => ∃ id, d = .requested id) e s.engine) e (.refl e)
    fun s id p hp before => ?_
  exact before.trans ((moves_issueVisit s hp).mono fun d h => ⟨id, h⟩)

/-- A pass takes place only if it is due. -/
theorem moves_issueTick (e : Engine σ) :
    Moves (fun d => d = .internal ∨ ∃ id, d = .requested id) e e.issueTick.2 := by
  unfold issueTick
  split
  · exact .refl e
  · split
    · exact (Moves.step (.due e false id) trivial (.inl rfl)).trans
        ((moves_issueRequests _).mono fun _ => .inr)
    · exact .refl e

/-- A block that is next in line is settled or refused. -/
theorem moves_applyFetched {e e' : Engine σ} {hash : Hash} {w : WaitingBlock}
    (hw : e.waiting[hash]? = some w) (next : e.anyPeer (heads hash) = true)
    (done : (e.takeNext hash).applyFetched w.block = .ok e') :
    Moves Operation.applyWaiting.Allows e e' := by
  obtain ⟨⟨r, e₁⟩, submitted, done⟩ := Checked.bind_eq_ok_iff.1 done
  cases r with
  | none =>
    cases done
    refine (Moves.step (.settle hw next submitted) trivial (.inl rfl)).trans ?_
    exact ((moves_startCatchUps _ _).trans (moves_nextSummaries _ _)).ofRoutine _
  | some error =>
    cases done
    exact .step (.refuse hw next submitted) trivial (.inl rfl)

/-- A waiting block is dropped, settled, refused, or left where it is. -/
theorem moves_applyVisit {s s' : ApplyPass σ} {hash : Hash} (done : s.visit hash = .ok s') :
    Moves Operation.applyWaiting.Allows s.engine s'.engine := by
  cases ApplyPass.visited_of_visit done with
  | passed => exact .refl _
  | dropped hw gone =>
    refine .step (.dropOrphan hw ?_) trivial trivial
    rw [isRegistered, Std.TreeMap.contains_eq_isSome_getElem?] at gone
    exact Option.isNone_iff_eq_none.1 (Option.isSome_eq_false_iff.1 gone)
  | submitted hw _ next applied => exact moves_applyFetched hw next applied

/-- A sweep visits waiting blocks, one after the other. -/
theorem moves_sweep (budget : Nat) (hashes : List Hash) {s s' : ApplyPass σ}
    (done : ApplyPass.sweep budget hashes s = .ok s') :
    Moves Operation.applyWaiting.Allows s.engine s'.engine := by
  induction hashes generalizing s with
  | nil =>
    cases done
    exact .refl _
  | cons hash rest ih =>
    unfold ApplyPass.sweep at done
    split at done
    · cases done
      exact .refl _
    · obtain ⟨s₁, visited, done⟩ := Checked.bind_eq_ok_iff.1 done
      exact (moves_applyVisit visited).trans (ih done)

/-- A pass is one sweep after the other. -/
theorem moves_applyPass (budget n : Nat) {s s' : ApplyPass σ}
    (done : ApplyPass.run budget n s = .ok s') :
    Moves Operation.applyWaiting.Allows s.engine s'.engine := by
  induction n generalizing s with
  | zero =>
    cases done
    exact .refl _
  | succ n ih =>
    obtain ⟨s₁, swept, done⟩ := Checked.bind_eq_ok_iff.1 done
    have first := moves_sweep budget _ swept
    split at done
    · cases done
      exact first
    · exact first.trans (ih done)

/-- Before a pass arrived blocks are put with those that wait, and asking for blocks may be
resumed. -/
theorem moves_resume (e : Engine σ) : Moves Deed.IsRoutine e e.absorb.resume := by
  have absorbed : Moves Deed.IsRoutine e e.absorb := .step (.absorb e) trivial fun _ => trivial
  obtain ⟨suspended, eq⟩ := resume_eq e.absorb
  rw [eq]
  exact absorbed.trans (.step (.suspend _ suspended) trivial fun _ => trivial)

/-- After a pass that used up its budget asking for blocks may be suspended, and another pass is
due. -/
theorem moves_exhaust (e : Engine σ) : Moves Deed.IsRoutine e e.exhaust := by
  have suspended : Moves Deed.IsRoutine e { e with suspended := e.exhaust.suspended } :=
    .step (.suspend ..) trivial fun _ => trivial
  exact suspended.trans (.step (.due _ e.issueDue fun _ => rfl) trivial fun _ => trivial)

/-- Waiting blocks are applied in one pass. -/
theorem moves_applyWaiting {e e' : Engine σ} {n : Nat} (done : e.applyWaiting = .ok (n, e')) :
    Moves Operation.applyWaiting.Allows e e' := by
  obtain ⟨s, ran, -, final⟩ := applyWaiting_cases done
  have before := ((moves_resume e).ofRoutine .applyWaiting).trans (moves_applyPass _ _ ran)
  rcases final with ⟨rfl, -⟩ | rfl
  · exact before
  · exact before.trans ((moves_exhaust s.engine).ofRoutine _)

/-- Waiting blocks are applied only if that is due. -/
theorem moves_applyTick {e e' : Engine σ} {n : Nat} (done : e.applyTick = .ok (n, e')) :
    Moves Operation.applyTick.Allows e e' := by
  unfold applyTick at done
  split at done
  · have rested : Moves Operation.applyTick.Allows e { e with applyDue := false } :=
      .step (.rest e) trivial rfl
    refine rested.trans ((moves_applyWaiting done).mono fun d allows => ?_)
    cases d <;> simp_all [Operation.Allows]
  · cases done
    exact .refl e

/-! ## Operations -/

/-- Candidates are reserved after stale ones are dropped. -/
theorem moves_reserveCandidates {e e' : Engine σ} {n : Nat}
    (done : e.reserveCandidates = .ok (n, e')) :
    Moves Operation.reserveCandidates.Allows e e' := by
  unfold reserveCandidates at done
  split at done
  · cases done
    exact .refl e
  · obtain ⟨maxAge, -, done⟩ := Checked.bind_eq_ok_iff.1 done
    cases done
    exact (Moves.step (.dropStale e maxAge) trivial trivial).trans (.step (.reserve _) trivial rfl)

/-- The flood window moves on slot by slot. -/
theorem moves_advanceFloods (e : Engine σ) (n : Nat) :
    Moves Deed.IsRoutine e (n.repeat advanceFlood e) := by
  induction n with
  | zero => exact .refl e
  | succ n ih => exact ih.trans (.step (.advanceFlood _) trivial fun _ => trivial)

/-- A message is handled in steps that its kind allows. -/
theorem moves_receive {e e' : Engine σ} {id : PeerId} {m : Message}
    (done : e.receive id m = .ok e') : Moves (Operation.receive id m).Allows e e' := by
  unfold receive at done
  split at done
  next known =>
    obtain ⟨p, hp⟩ := isRegistered_iff.1 known
    cases m with
    | announce items => exact moves_receiveAnnouncement done
    | fetch items =>
      cases done
      exact .step (.serve items hp) trivial trivial
    | notFound =>
      cases done
      exact .refl e
    | block b => exact moves_receiveBlock done
    | transaction t =>
      cases done
      refine (moves_receiveTransaction e id t).mono ?_
      rintro d (routine | rfl)
      · exact routine _
      · exact .inl rfl
    | transactions ts =>
      cases done
      refine (moves_receiveTransactions e id ts).mono ?_
      rintro d (routine | ⟨t, ht, rfl⟩)
      · exact routine _
      · exact .inr ⟨ts, rfl, ht⟩
    | summaryRequest known => exact (moves_answerSummary done).ofRoutine _
    | summaryReply ids remaining => exact moves_receiveReply done
    | disconnect r =>
      cases done
      exact (moves_remove e id none).ofRoutine _
  next =>
    cases done
    exact .refl e

/-- **Operations are moves.**  An operation is carried out in moves that it allows. -/
theorem moves_perform {e e' : Engine σ} {op : Operation} {answer : Outcome}
    (done : e.perform op = .ok (answer, e')) : Moves op.Allows e e' := by
  cases op with
  | register id height =>
    cases done
    exact .move (.register e id height) ⟨height, rfl⟩
  | receive id m =>
    obtain ⟨e₁, received, done⟩ := Checked.bind_eq_ok_iff.1 done
    cases done
    exact moves_receive received
  | broadcast m =>
    cases done
    exact .step (.broadcast e m) trivial rfl
  | disconnect id r =>
    cases done
    exact (moves_remove e id (some r)).ofRoutine _
  | lost id =>
    cases done
    exact (moves_remove e id none).ofRoutine _
  | close =>
    cases done
    exact (moves_disconnectAll e _).ofRoutine _
  | startCatchUp id =>
    cases done
    exact (moves_startCatchUp e id).ofRoutine _
  | nextSummary id =>
    cases done
    exact (moves_nextSummary e id).ofRoutine _
  | announceSpread =>
    cases done
    exact .step (.announceSpread e) trivial trivial
  | reserveCandidates =>
    obtain ⟨n, done⟩ := eq_ok_of_counted done
    exact moves_reserveCandidates done
  | issueRequests =>
    cases done
    refine (moves_issueRequests e).mono ?_
    rintro d ⟨id, rfl⟩
    exact .inl rfl
  | issueTick =>
    cases done
    refine (moves_issueTick e).mono ?_
    rintro d (rfl | ⟨id, rfl⟩)
    · exact trivial
    · exact .inr rfl
  | applyWaiting =>
    obtain ⟨n, done⟩ := eq_ok_of_counted done
    exact moves_applyWaiting done
  | applyTick =>
    obtain ⟨n, done⟩ := eq_ok_of_counted done
    exact moves_applyTick done
  | leaveSilent =>
    cases done
    exact (moves_disconnectAll e _).ofRoutine _
  | forgetOutdated =>
    obtain ⟨n, done⟩ := eq_ok_of_counted done
    exact .step (.forgetOutdated done) trivial rfl
  | advanceFlood n =>
    cases done
    exact (moves_advanceFloods e n).ofRoutine _
  | advanceClock ms =>
    cases done
    exact .step (.advanceClock e ms) trivial trivial
  | refreshGauges =>
    obtain ⟨e₁, refreshed, done⟩ := Checked.bind_eq_ok_iff.1 done
    cases done
    obtain ⟨census, -, refreshed⟩ := Checked.bind_eq_ok_iff.1 refreshed
    cases refreshed
    exact .step (.measure e _) trivial trivial

/-- **Operations are courses.**  An operation is carried out in steps that it allows. -/
theorem course_perform {e e' : Engine σ} {op : Operation} {answer : Outcome}
    (done : e.perform op = .ok (answer, e')) : Course op.Allows e e' :=
  (moves_perform done).course fun _ routine => routine op

/-! ## Runs -/

/-- **The rule of invariants.**  What holds at the start and is preserved by every step and by
every change of the ledger holds at the end of every run. -/
theorem Run.invariant {I : Engine σ → Prop} {start e : Engine σ} {past : List (Moment σ)}
    (run : Run start past e) (holds : I start)
    (step : ∀ {d : Deed} {e e' : Engine σ}, Step d e e' → I e → I e')
    (meddle : ∀ (e : Engine σ) (ledger : σ), I e → I { e with ledger := ledger }) : I e := by
  induction run with
  | start => exact holds
  | perform _ done ih => exact (course_perform done).preserves (fun _ => step) ih
  | meddle ledger _ ih => exact meddle _ ledger ih

/-- **The rule of invariants, by moves.**  What holds at the start and is preserved by every move
and by every change of the ledger holds at the end of every run. -/
theorem Run.invariant_of_moves {I : Engine σ → Prop} {start e : Engine σ}
    {past : List (Moment σ)} (run : Run start past e) (holds : I start)
    (move : ∀ {d : Deed} {e e' : Engine σ}, Move d e e' → I e → I e')
    (meddle : ∀ (e : Engine σ) (ledger : σ), I e → I { e with ledger := ledger }) : I e := by
  induction run with
  | start => exact holds
  | perform _ done ih => exact (moves_perform done).preserves (fun _ => move) ih
  | meddle ledger _ ih => exact meddle _ ledger ih

end Engine

end BlockRelay
