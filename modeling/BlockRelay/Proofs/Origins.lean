/-
# Where applied objects come from

The ledger is asked to apply announced objects only while a message from a peer is handled,
and never more often than the peer was asked for them in its session: a call uses up what the
peer owes (`Step.charge`).  A block of a catch-up is applied later, by which time the request
is long forgotten; it waits from the delivery on, and what waits was delivered by a peer
that was asked for it (`Run.brought`).
-/
import BlockRelay.Proofs.Arrivals
import BlockRelay.Proofs.Deliveries

namespace BlockRelay

variable {σ : Type}

/-- Whether a waiting block is delivered in a moment, by a peer that was asked for it in a
catch-up. -/
def Moment.Brings (m : Moment σ) (w : WaitingBlock) : Prop :=
  m.heard? w.origin = some (.block w.block) ∧
    ∃ p, m.before.peers[w.origin]? = some p ∧ p.blocksAsked.contains w.block.id.hash = true

namespace Engine

/-! ## Calls for announced objects -/

/-- How often the ledger was asked to apply an announced object up to now. -/
def calls (e : Engine σ) (i : Item) : Nat := e.journal.countP fun ev => ev.announced? = some i

/-- How often the ledger was asked to apply an announced object while a message from a peer was
handled, in part of a run. -/
def appliedFor (id : PeerId) (i : Item) (past : List (Moment σ)) : Nat :=
  (past.map fun m => if (m.heard? id).isSome then m.applied i else 0).sum

/-- Events that apply no announced object leave the count of calls alone. -/
theorem calls_of_appends {P : Event → Prop} {e e' : Engine σ} (h : Appends P e e') {i : Item}
    (silent : ∀ ev, P ev → ev.announced? ≠ some i) : e'.calls i = e.calls i := by
  obtain ⟨events, eq, all⟩ := h
  have none : events.countP (fun ev => ev.announced? = some i) = 0 :=
    List.countP_eq_zero.2 fun ev mem found => silent ev (all ev mem) (of_decide_eq_true found)
  rw [calls, eq, List.countP_append, none, Nat.add_zero, calls]

/-- The count of requests never falls. -/
theorem asks_le_of_appends {P : Event → Prop} {e e' : Engine σ} (h : Appends P e e') (id : PeerId)
    (i : Item) : e.asks id i ≤ e'.asks id i := by
  obtain ⟨events, eq, -⟩ := h
  rw [asks, asks, eq, List.map_append, List.sum_append]
  exact Nat.le_add_right ..

/-- The count of calls after a moment. -/
theorem calls_moment {P : Event → Prop} {m : Moment σ} (h : Appends P m.before m.after)
    (i : Item) : m.after.calls i = m.before.calls i + m.applied i := by
  rw [calls, h.events.1, List.countP_append]
  rfl

end Engine

/-- Only a step that takes an object from a peer shows a call for it. -/
theorem Deed.takes_of_shows {d : Deed} {ev : Event} {i : Item} (h : d.Shows ev)
    (call : ev.announced? = some i) : ∃ id, d.Takes id i := by
  cases ev with
  | appliedBlock b duringCatchUp =>
    cases duringCatchUp with
    | true => cases call
    | false =>
      cases call
      obtain ⟨id, b, rfl, rfl⟩ := h
      exact ⟨id, rfl, rfl⟩
  | appliedTransaction hash =>
    cases call
    obtain ⟨id, t, rfl, rfl⟩ := h
    exact ⟨id, rfl, rfl⟩
  | _ => cases call

namespace Engine

variable [Ledger σ]

/-- A step that takes an object from a peer takes one that the peer owes, and calls the ledger
once at most. -/
theorem Step.calls_of_takes {d : Deed} {e e' : Engine σ} (s : Step d e e') {id : PeerId}
    {i : Item} (takes : d.Takes id i) :
    1 ≤ e.owed id i ∧ e'.calls i ≤ e.calls i + 1 := by
  have once {ev : Event} (h : e'.journal = e.journal ∨ e'.journal = e.journal ++ [ev]) :
      e'.calls i ≤ e.calls i + 1 := by
    rcases h with eq | eq
    · rw [calls, eq]
      exact Nat.le_succ _
    · rw [calls, eq, List.countP_append, calls]
      exact Nat.add_le_add_left (List.countP_le_length (l := [ev])) _
  cases d with
  | tookBlock other b =>
    obtain ⟨rfl, rfl⟩ := takes
    obtain ⟨p, hp, solicited, -⟩ := s.tookBlock
    refine ⟨?_, once s.journal_tookBlock⟩
    rw [owed_eq hp]
    exact (Peer.owes_of_solicited solicited).symm ▸ Nat.le_add_right ..
  | tookTransaction other t =>
    obtain ⟨rfl, rfl⟩ := takes
    obtain ⟨p, hp, reserved, -⟩ := s.tookTransaction
    refine ⟨?_, once s.journal_tookTransaction⟩
    rw [owed_eq hp, Peer.owes, reserved]
    exact Nat.le_add_right ..
  | _ => exact takes.elim

/-- A step that begins no session with a peer makes it owe no more than what it is asked for,
and settles what it delivers. -/
theorem Step.owed_le {d : Deed} {e e' : Engine σ} (s : Step d e e') (h : e.Orderly) {id : PeerId}
    (old : d ≠ .opened id) (i : Item) :
    e'.owed id i + e.asks id i ≤ (if d.Takes id i then 0 else e.owed id i) + e'.asks id i := by
  cases hp' : e'.peers[id]? with
  | none =>
    -- a peer that has left owes nothing, and the count of requests never falls
    have nothing : e'.owed id i = 0 := by rw [owed, view, hp']; rfl
    have grows := asks_le_of_appends s.appends id i
    omega
  | some p' => exact (s.account h.exclusive h.queues hp' old i).le

/-- **A call uses up what is owed.**  While a message from a peer is handled, what it owes and
what the ledger was asked for grow by what the peer is asked for at most. -/
theorem Step.charge {d : Deed} {e e' : Engine σ} (s : Step d e e') (h : e.Orderly) {id : PeerId}
    {i : Item} (old : d ≠ .opened id) (only : ∀ other, d.Takes other i → other = id) :
    e'.owed id i + e'.calls i + e.asks id i ≤ e.owed id i + e.calls i + e'.asks id i := by
  have owed := s.owed_le h old i
  by_cases takes : d.Takes id i
  · obtain ⟨owes, once⟩ := s.calls_of_takes takes
    rw [if_pos takes] at owed
    omega
  · have silent : e'.calls i = e.calls i :=
      calls_of_appends s.appends fun ev shows call => by
        obtain ⟨other, taken⟩ := Deed.takes_of_shows shows call
        exact takes (only other taken ▸ taken)
    rw [if_neg takes] at owed
    omega

/-- In a course that begins no session with a peer it owes no more than what it is asked for. -/
theorem Course.owed_le {allowed : Deed → Prop} {e e' : Engine σ} (c : Course allowed e e')
    (h : e.Orderly) {id : PeerId} (old : ∀ d, allowed d → d ≠ .opened id) (i : Item) :
    e'.owed id i + e.asks id i ≤ e.owed id i + e'.asks id i := by
  induction c with
  | refl => exact Nat.le_refl _
  | tail first last ih =>
    obtain ⟨d, allows, last⟩ := last
    have here : Orderly _ := Course.preserves (fun _ => Orderly.step) first h
    have step := last.owed_le here (old d allows) i
    split at step <;> omega

/-- In a course that takes an object from one peer only, calls use up what the peer owes. -/
theorem Course.charge {allowed : Deed → Prop} {e e' : Engine σ} (c : Course allowed e e')
    (h : e.Orderly) {id : PeerId} {i : Item}
    (only : ∀ d, allowed d → d ≠ .opened id ∧ ∀ other, d.Takes other i → other = id) :
    e'.owed id i + e'.calls i + e.asks id i ≤ e.owed id i + e.calls i + e'.asks id i := by
  induction c with
  | refl => exact Nat.le_refl _
  | tail first last ih =>
    obtain ⟨d, allows, last⟩ := last
    have here : Orderly _ := Course.preserves (fun _ => Orderly.step) first h
    have step := last.charge here (only d allows).1 (only d allows).2
    omega

/-- What is taken from a peer is taken while a message from it is received. -/
theorem receive_of_takes {op : Operation} {d : Deed} {id : PeerId} {i : Item}
    (allows : op.Allows d) (takes : d.Takes id i) : ∃ message, op = .receive id message := by
  cases d with
  | tookBlock peer b =>
    obtain ⟨rfl, -⟩ := takes
    exact ⟨_, allows⟩
  | tookTransaction peer t =>
    obtain ⟨rfl, -⟩ := takes
    rcases allows with eq | ⟨ts, eq, -⟩ <;> exact ⟨_, eq⟩
  | _ => exact takes.elim

/-- The message of a peer makes the ledger apply only what the peer owes, and asks for
nothing. -/
theorem charge_receive {e e' : Engine σ} {id : PeerId} {message : Message} {answer : Outcome}
    (h : e.Orderly) (done : e.perform (.receive id message) = .ok (answer, e')) (i : Item) :
    let m : Moment σ := ⟨e, some (.receive id message), e'⟩
    e'.owed id i + m.applied i ≤ e.owed id i ∧ m.asked id i = 0 := by
  intro m
  have course := course_perform done
  have only (d : Deed) (allows : (Operation.receive id message).Allows d) :
      d ≠ .opened id ∧ ∀ other, d.Takes other i → other = id := by
    constructor
    · rintro rfl
      obtain ⟨height, eq⟩ := allows
      cases eq
    · intro other takes
      obtain ⟨_, eq⟩ := receive_of_takes allows takes
      cases eq
      rfl
  have charged := course.charge h only
  have silent := course.asks_eq (fun d => Deed.quiet_of_receive) id i
  have asks : _ = _ + m.asked id i := asks_perform done id i
  have calls : e'.calls i = e.calls i + m.applied i := calls_moment (m := m) course.appends i
  omega

/-- **Calls are covered by requests.**  In a session the ledger was never asked to apply more
than the peer was asked for and does not owe any more. -/
theorem appliedFor_le {config : Config} {ledger : σ} {clock : Clock} {start e : Engine σ}
    {past : List (Moment σ)} (started : Engine.start config ledger clock = .ok start)
    (run : Run start past e) (id : PeerId) (i : Item) :
    appliedFor id i (session id past) + e.owed id i ≤ asked id i (session id past) := by
  induction run with
  | start =>
    obtain ⟨_, -, eq⟩ := Checked.bind_eq_ok_iff.1 started
    cases eq
    exact Nat.le_refl _
  | @meddle past e ledger _ ih =>
    rw [session_meddle, asked_cons, appliedFor, List.map_cons, List.sum_cons]
    show 0 + appliedFor id i _ + e.owed id i ≤ _
    omega
  | @perform past e e' op answer before done ih =>
    have here := before.orderly started
    rw [session_cons]
    split
    next opening =>
      obtain ⟨height, eq⟩ := Moment.opens_iff.1 opening
      cases eq
      cases done
      rw [owed_register here]
      rfl
    next opening =>
      rw [asked_cons, appliedFor, List.map_cons, List.sum_cons]
      show _ + appliedFor id i _ + _ ≤ _
      -- only a message from the peer makes the ledger apply anything on its account
      cases heard : (Moment.mk e (some op) e').heard? id with
      | some message =>
        cases Moment.heard?_eq_some_iff.1 heard
        have charged := (charge_receive here done i).1
        rw [Option.isSome_some, if_pos rfl]
        omega
      | none =>
        have old (d : Deed) (allows : op.Allows d) : d ≠ .opened id := by
          rintro rfl
          obtain ⟨height, eq⟩ := allows
          exact Moment.ne_register_of_not_opens opening height eq
        have owed := (course_perform done).owed_le here old i
        have asks := asks_perform done id i
        rw [Option.isSome_none, if_neg Bool.false_ne_true]
        omega

/-! ## Blocks of a catch-up -/

/-- A block is in hand after an operation only if it was before, or is delivered by a peer that
was asked for it. -/
theorem InHand.of_perform {e e' : Engine σ} {op : Operation} {answer : Outcome}
    {w : WaitingBlock} (done : e.perform op = .ok (answer, e')) (h : e'.InHand w) :
    e.InHand w ∨ (Moment.mk e (some op) e').Brings w := by
  by_cases delivery : ∃ id b, op = .receive id (.block b)
  · obtain ⟨id, b, rfl⟩ := delivery
    have received := receive_of_perform done
    by_cases known : e.isRegistered id = true
    · obtain ⟨p, hp⟩ := isRegistered_iff.1 known
      rw [receive, if_pos known] at received
      have routine (id : PeerId) (b : Block) : ¬ Deed.IsRoutine (.tookBlock id b) :=
        Deed.isRoutine_iff.1
      rcases receiveBlock_cases hp received with ⟨-, -, rfl⟩ | ⟨-, e₁, took, rest⟩
      · exact .inl (h.of_course (course_remove e id _) routine)
      · have rest := rest.course fun _ routine => routine
        refine ((h.of_course rest routine).of_step took).imp_right ?_
        rintro ⟨eq, asked⟩
        cases eq
        exact ⟨Moment.heard?_eq_some_iff.2 rfl, asked⟩
    · rw [receive, if_neg known] at received
      cases received
      exact .inl h
  · exact .inl (h.of_course (course_perform done) fun id b allows => delivery ⟨id, b, allows⟩)

/-- **What is in hand was delivered.**  A block in hand was delivered earlier in the run, by a
peer that was asked for it then. -/
theorem Run.brought {config : Config} {ledger : σ} {clock : Clock} {start e : Engine σ}
    {past : List (Moment σ)} (run : Run start past e)
    (started : Engine.start config ledger clock = .ok start) {w : WaitingBlock}
    (h : e.InHand w) : ∃ d ∈ past, d.Brings w := by
  induction run with
  | start => exact (not_inHand_of_start started w h).elim
  | meddle ledger _ ih =>
    obtain ⟨d, mem, brings⟩ := ih h
    exact ⟨d, List.mem_cons_of_mem _ mem, brings⟩
  | perform _ done ih =>
    rcases h.of_perform done with h | brings
    · obtain ⟨d, mem, brings⟩ := ih h
      exact ⟨d, List.mem_cons_of_mem _ mem, brings⟩
    · exact ⟨_, List.mem_cons_self .., brings⟩

/-- Whether an event applies no block of a catch-up but those in hand. -/
def AppliesInHand (e : Engine σ) (ev : Event) : Prop :=
  ∀ id, ev = .appliedBlock id true → ∃ w, e.InHand w ∧ w.block.id = id

/-- A step applies no block of a catch-up but those in hand. -/
theorem Step.appends_inHand {d : Deed} {e e' : Engine σ} (s : Step d e e') :
    Appends e.AppliesInHand e e' := by
  have shown := s.appends
  have other (h : d ≠ .settled ∧ d ≠ .refused) : Appends e.AppliesInHand e e' :=
    shown.mono fun ev shows id eq => by
      subst eq
      exact (shows.elim h.1 h.2).elim
  cases s with
  | @settle _ _ hash w hw _ done =>
    refine .submitFetched done fun id eq => ?_
    cases eq
    exact ⟨w, .inr ⟨hash, hw⟩, rfl⟩
  | @refuse _ _ hash w _ hw _ done =>
    refine (Appends.submitFetched done fun id eq => ?_).trans
      (.disconnectAll _ _ (fun _ _ => by simp [AppliesInHand]) fun _ => by simp [AppliesInHand])
    cases eq
    exact ⟨w, .inr ⟨hash, hw⟩, rfl⟩
  | _ => exact other (by simp)

/-- Without a delivery a course applies no block of a catch-up but those in hand. -/
theorem Course.appends_inHand {allowed : Deed → Prop} {e e' : Engine σ}
    (c : Course allowed e e') (quiet : ∀ id b, ¬ allowed (.tookBlock id b)) :
    Appends e.AppliesInHand e e' := by
  induction c with
  | refl => exact .same rfl
  | tail first last ih =>
    obtain ⟨d, allows, last⟩ := last
    refine ih.trans (last.appends_inHand.mono fun ev applies id eq => ?_)
    obtain ⟨w, inHand, same⟩ := applies id eq
    exact ⟨w, inHand.of_course first quiet, same⟩

/-- **Only what was asked for is applied.**  Announced objects are applied only while a message
from a peer is handled, in each session not more often than the peer was asked for them
before.  A block of a catch-up is applied only after it was delivered by a peer that was asked
for it in a catch-up. -/
theorem applied_of_requested {config : Config} {ledger : σ} {clock : Clock} {start e : Engine σ}
    {m : Moment σ} {past : List (Moment σ)}
    (started : Engine.start config ledger clock = .ok start) (run : Run start (m :: past) e) :
    (∀ id, (m.heard? id).isSome = true → ∀ i,
        appliedFor id i (session id past) + m.applied i ≤ asked id i (session id past)) ∧
      (∀ i, 0 < m.applied i → ∃ id, (m.heard? id).isSome = true) ∧
      ∀ b : BlockId, .appliedBlock b true ∈ m.events →
        ∃ w : WaitingBlock, w.block.id = b ∧ ∃ d ∈ past, d.Brings w := by
  cases run with
  | meddle ledger _ =>
    -- nothing becomes visible while other hands change the ledger
    refine ⟨?_, ?_, ?_⟩
    · intro id heard
      simp [Moment.heard?] at heard
    · intro i applied
      simp [Moment.applied, Moment.events] at applied
    · intro b mem
      simp [Moment.events] at mem
  | @perform _ e₀ _ op answer before done =>
    have course := course_perform done
    obtain ⟨appended, shown⟩ := Appends.events (m := ⟨e₀, some op, e⟩) course.appends
    refine ⟨?_, ?_, ?_⟩
    · intro id heard i
      obtain ⟨message, heard⟩ := Option.isSome_iff_exists.1 heard
      cases Moment.heard?_eq_some_iff.1 heard
      have charged := (charge_receive (before.orderly started) done i).1
      have covered := appliedFor_le started before id i
      omega
    · intro i applied
      obtain ⟨ev, mem, call⟩ := List.countP_pos_iff.1 applied
      obtain ⟨d, allows, shows⟩ := shown ev mem
      obtain ⟨id, takes⟩ := Deed.takes_of_shows shows (of_decide_eq_true call)
      obtain ⟨message, rfl⟩ := receive_of_takes allows takes
      exact ⟨id, Option.isSome_iff_exists.2 ⟨message, Moment.heard?_eq_some_iff.2 rfl⟩⟩
    · intro b mem
      -- waiting blocks are applied in passes, in which nothing is delivered
      obtain ⟨d, allows, shows⟩ := shown _ mem
      have applying : op = .applyWaiting ∨ op = .applyTick := by
        rcases shows with rfl | rfl <;> exact allows
      have quiet (id : PeerId) (b : Block) : ¬ op.Allows (.tookBlock id b) := by
        intro allows
        rcases applying with rfl | rfl <;> cases allows
      obtain ⟨-, applies⟩ :=
        Appends.events (m := ⟨e₀, some op, e⟩) (course.appends_inHand quiet)
      obtain ⟨w, inHand, same⟩ := applies _ mem b rfl
      exact ⟨w, same, before.brought started inHand⟩

/-- A transaction that was asked for once is applied once. -/
theorem applied_transaction :
    ∃ (start e : Engine ChainLedger) (m : Moment ChainLedger) (past : List (Moment ChainLedger)),
      Engine.start {} (.ofGenesis (.genesis 0) 0 10) {} = .ok start ∧ Run start (m :: past) e ∧
        m.applied (Transaction.mk [] 1).item = 1 ∧
        appliedFor ⟨1⟩ (Transaction.mk [] 1).item (session ⟨1⟩ past) +
            m.applied (Transaction.mk [] 1).item ≤
          asked ⟨1⟩ (Transaction.mk [] 1).item (session ⟨1⟩ past) := by
  obtain ⟨start, past, e, started, run, checked⟩ := exists_run {}
    (ChainLedger.ofGenesis (.genesis 0) 0 10) {}
    [.register ⟨1⟩ 0, .receive ⟨1⟩ (.announce [(Transaction.mk [] 1).item]), .reserveCandidates,
      .receive ⟨1⟩ (.transaction ⟨[], 1⟩)]
    (fun (past, _) => past.head?.any fun m => (m.heard? ⟨1⟩).isSome &&
      m.applied (Transaction.mk [] 1).item = 1) (by decide +kernel)
  cases past with
  | nil => cases checked
  | cons m past =>
    simp only [List.head?_cons, Option.any_some, Bool.and_eq_true, decide_eq_true_eq] at checked
    obtain ⟨heard, applied⟩ := checked
    exact ⟨start, e, m, past, started, run, applied,
      (applied_of_requested started run).1 ⟨1⟩ heard _⟩

end Engine

end BlockRelay
