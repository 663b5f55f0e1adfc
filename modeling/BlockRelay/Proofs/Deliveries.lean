/-
# Requests for a block and their answers

A block may be asked of one peer twice: as an announced object, and as a block of a
catch-up.  The two requests are two messages, and a peer that answers each of them delivers
the block twice.  But the first delivery clears both records, so that the second one is
unsolicited, and the peer is left for it.

`asked_eq` is the account of a session: every request for a block was answered by a
delivery, or crossed with one that answered two requests at once, or is still owed.  From it
follows exactly which deliveries end the session (`refused_iff_crossed`).
-/
import BlockRelay.Ledger.Chain
import BlockRelay.Proofs.Accounts

namespace BlockRelay

variable {σ : Type}

/-! ## Counting requests and deliveries -/

namespace Moment

/-- Whether a peer delivers the block with a hash in a moment. -/
def delivers (m : Moment σ) (id : PeerId) (hash : Hash) : Bool :=
  match m.heard? id with
  | some (.block b) => b.id.hash = hash
  | _ => false

/-- Whether a peer delivers a block that it was asked for in both ways. -/
def crosses (m : Moment σ) (id : PeerId) (hash : Hash) : Bool :=
  m.delivers id hash &&
    (m.before.peers[id]?).any fun p =>
      p.reserved.contains (.block hash) && p.blocksAsked.contains hash

/-- A block is delivered where it is received. -/
theorem delivers_iff {m : Moment σ} {id : PeerId} {hash : Hash} :
    m.delivers id hash = true ↔
      ∃ b : Block, b.id.hash = hash ∧ m.operation = some (.receive id (.block b)) := by
  unfold delivers
  split
  next b eq => simp [heard?_eq_some_iff.1 eq, eq_comm]
  next other =>
    simpa using fun b _ eq => other b (heard?_eq_some_iff.2 eq)

end Moment

/-- A peer that was asked for a block owes it once, or twice if it was asked in both ways. -/
theorem Peer.owes_of_solicited {p : Peer} {hash : Hash}
    (h : p.blocksAsked.contains hash = true ∨ p.reserved.contains (.block hash) = true) :
    p.owes (.block hash) =
      1 + (p.reserved.contains (.block hash) && p.blocksAsked.contains hash).toNat := by
  show (p.reserved.contains (.block hash)).toNat + (p.blocksAsked.contains hash).toNat = _
  revert h
  cases p.reserved.contains (.block hash) <;> cases p.blocksAsked.contains hash <;> simp

namespace Engine

/-- How often a peer was asked for an object in part of a run. -/
def asked (id : PeerId) (i : Item) (past : List (Moment σ)) : Nat :=
  (past.map (·.asked id i)).sum

/-- How often a peer delivered a block in part of a run. -/
def delivered (id : PeerId) (hash : Hash) (past : List (Moment σ)) : Nat :=
  past.countP (·.delivers id hash)

/-- How often a delivery answered two requests in part of a run. -/
def crossed (id : PeerId) (hash : Hash) (past : List (Moment σ)) : Nat :=
  past.countP (·.crosses id hash)

/-- The requests of a longer part of a run. -/
theorem asked_cons (id : PeerId) (i : Item) (m : Moment σ) (past : List (Moment σ)) :
    asked id i (m :: past) = m.asked id i + asked id i past := rfl

/-- The deliveries of a longer part of a run. -/
theorem delivered_cons (id : PeerId) (hash : Hash) (m : Moment σ) (past : List (Moment σ)) :
    delivered id hash (m :: past) = delivered id hash past + (m.delivers id hash).toNat := by
  rw [delivered, List.countP_cons]
  cases m.delivers id hash <;> rfl

/-- The crossed requests of a longer part of a run. -/
theorem crossed_cons (id : PeerId) (hash : Hash) (m : Moment σ) (past : List (Moment σ)) :
    crossed id hash (m :: past) = crossed id hash past + (m.crosses id hash).toNat := by
  rw [crossed, List.countP_cons]
  cases m.crosses id hash <;> rfl

/-- Whether a peer delivers a block only while it delivered the block less often in the session
than it was asked for it. -/
def onlyAnswers (id : PeerId) : List (Moment σ) → Bool
  | [] => true
  | m :: past => onlyAnswers id past &&
    match m.heard? id with
    | some (.block b) =>
      delivered id b.id.hash (session id past) < asked id b.id.item (session id past)
    | _ => true

/-! ## The account of a session -/

variable [Ledger σ]

/-- An operation that is no delivery of a block takes it from nobody. -/
theorem not_takes_block {op : Operation} {d : Deed} (allows : op.Allows d) {id : PeerId}
    {hash : Hash} (other : ∀ b : Block, b.id.hash = hash → op ≠ .receive id (.block b)) :
    ¬ d.Takes id (.block hash) := by
  cases d with
  | tookBlock peer b =>
    rintro ⟨rfl, same⟩
    exact other b (BlockId.item_eq_iff.1 same).2 allows
  | tookTransaction peer t =>
    rintro ⟨-, same⟩
    simp [Transaction.item, Item.transaction, Item.block] at same
  | _ => exact fun taken => taken

/-- The requests of an operation are those of its moment. -/
theorem asks_perform {e e' : Engine σ} {op : Operation} {answer : Outcome}
    (done : e.perform op = .ok (answer, e')) (id : PeerId) (i : Item) :
    e'.asks id i = e.asks id i + (Moment.mk e (some op) e').asked id i :=
  asks_moment (m := ⟨e, some op, e'⟩) (course_perform done).appends id i

/-- The account of a delivery that is taken: the peer owed the block once, or twice if the
delivery answers two requests, and it owes the block no longer. -/
theorem account_delivery {e e' : Engine σ} {answer : Outcome} (h : e.Orderly) {id : PeerId}
    {b : Block} (done : e.perform (.receive id (.block b)) = .ok (answer, e')) {p' : Peer}
    (hp' : e'.peers[id]? = some p') :
    let m : Moment σ := ⟨e, some (.receive id (.block b)), e'⟩
    e.isRegistered id = true ∧
      m.asked id (.block b.id.hash) + e.owed id (.block b.id.hash) =
        1 + (m.crosses id b.id.hash).toNat + e'.owed id (.block b.id.hash) := by
  intro m
  have received := receive_of_perform done
  have known := isRegistered_of_receive received (isRegistered_iff.2 ⟨p', hp'⟩)
  obtain ⟨p, hp⟩ := isRegistered_iff.1 known
  have delivered : m.delivers id b.id.hash = true := Moment.delivers_iff.2 ⟨b, rfl, rfl⟩
  have crossed : m.crosses id b.id.hash =
      (p.reserved.contains (.block b.id.hash) && p.blocksAsked.contains b.id.hash) := by
    rw [Moment.crosses, delivered, hp]
    rfl
  have asks : _ = _ + m.asked id (.block b.id.hash) := asks_perform done id _
  have silent := (course_perform done).asks_eq (fun d => Deed.quiet_of_receive) id
    (.block b.id.hash)
  rw [receive, if_pos known] at received
  rcases receiveBlock_cases hp received with ⟨-, -, rfl⟩ | ⟨solicited, e₁, took, rest⟩
  · simp [disconnect, peers_remove] at hp'
  · -- the step that takes the block clears both records, and the steps after it ask for nothing
    have here : Orderly e₁ := .step took h
    have rest := rest.course fun _ routine => routine
    obtain ⟨⟨p₁, hp₁⟩, after⟩ := rest.account (i := .block b.id.hash) here
      (fun d routine => (routine.quiet id _).1) hp'
    have first := took.account h.exclusive h.queues hp₁ (by simp) (.block b.id.hash)
    rw [if_pos ⟨rfl, rfl⟩] at first
    have later := rest.asks_eq (fun d routine => (routine.quiet id (.block b.id.hash)).2) id
      (.block b.id.hash)
    have owed : e.owed id (.block b.id.hash) = 1 + (m.crosses id b.id.hash).toNat := by
      rw [owed_eq hp, crossed, Peer.owes_of_solicited solicited]
    exact ⟨known, by omega⟩

/-- The account of a moment that does not begin a session with the peer. -/
theorem account_moment {e e' : Engine σ} {op : Operation} {answer : Outcome} (h : e.Orderly)
    (done : e.perform op = .ok (answer, e')) {id : PeerId} {p' : Peer}
    (hp' : e'.peers[id]? = some p') (old : ∀ height, op ≠ .register id height) (hash : Hash) :
    let m : Moment σ := ⟨e, some op, e'⟩
    e.isRegistered id = true ∧
      m.asked id (.block hash) + e.owed id (.block hash) =
        (m.delivers id hash).toNat + (m.crosses id hash).toNat + e'.owed id (.block hash) := by
  intro m
  by_cases delivery : m.delivers id hash = true
  · obtain ⟨b, rfl, eq⟩ := Moment.delivers_iff.1 delivery
    cases eq
    rw [delivery]
    exact account_delivery h done hp'
  · have other (b : Block) (same : b.id.hash = hash) : op ≠ .receive id (.block b) := fun eq =>
      delivery (Moment.delivers_iff.2 ⟨b, same, congrArg some eq⟩)
    have quiet (d : Deed) (allows : op.Allows d) :
        d ≠ .opened id ∧ ¬ d.Takes id (.block hash) := by
      refine ⟨?_, not_takes_block allows other⟩
      rintro rfl
      obtain ⟨height, eq⟩ := allows
      exact old height eq
    obtain ⟨known, account⟩ := (course_perform done).account h quiet hp'
    have asks : _ = _ + m.asked id (.block hash) := asks_perform done id _
    rw [Bool.not_eq_true] at delivery
    rw [Moment.crosses, delivery, Bool.false_and, Bool.toNat_false]
    exact ⟨isRegistered_iff.2 known, by omega⟩

/-- **The account of a session.**  Every request for a block was answered by a delivery, or
crossed with one that answered two, or is still owed. -/
theorem asked_eq {config : Config} {ledger : σ} {clock : Clock} {start e : Engine σ}
    {past : List (Moment σ)} (started : Engine.start config ledger clock = .ok start)
    (run : Run start past e) {id : PeerId} (known : e.isRegistered id = true) (hash : Hash) :
    asked id (.block hash) (session id past) =
      delivered id hash (session id past) + crossed id hash (session id past) +
        e.owed id (.block hash) := by
  induction run with
  | start =>
    obtain ⟨p, hp⟩ := isRegistered_iff.1 known
    cases (peers_of_start started id).symm.trans hp
  | @meddle past e ledger _ ih =>
    rw [session_meddle, asked_cons, delivered_cons, crossed_cons]
    have silent : Moment.asked ⟨e, none, { e with ledger }⟩ id (.block hash) = 0 := by
      simp [Moment.asked, Moment.events]
    rw [silent, Nat.zero_add]
    exact ih known
  | @perform past e e' op answer before done ih =>
    have here := before.orderly started
    obtain ⟨p', hp'⟩ := isRegistered_iff.1 known
    rw [session_cons]
    split
    next opening =>
      obtain ⟨height, eq⟩ := Moment.opens_iff.1 opening
      cases eq
      cases done
      rw [owed_register here]
      rfl
    next opening =>
      obtain ⟨before, account⟩ :=
        account_moment here done hp' (Moment.ne_register_of_not_opens opening) hash
      have session := ih before
      rw [asked_cons, delivered_cons, crossed_cons]
      omega

/-! ## Refusals -/

/-- The next summary blames no peer for breaking the protocol. -/
theorem appends_nextSummary (e : Engine σ) (id : PeerId) :
    Appends (· ≠ .sent id (.disconnect .badProtocol)) e (e.nextSummary id) := by
  unfold nextSummary
  split
  next => exact .same rfl
  next p hp =>
    split
    next => exact .same rfl
    next =>
      split
      next => exact .one rfl (by simp)
      next =>
        obtain ⟨_, _, _, eq⟩ := remove_eq hp (some .forked)
        exact ⟨farewell id (some .forked), by rw [disconnect, eq], by simp [farewell]⟩

/-- Receiving a block of a catch-up blames no peer for breaking the protocol. -/
theorem appends_receiveRequested (e : Engine σ) (id : PeerId) (p : Peer) (b : Block) :
    Appends (· ≠ .sent id (.disconnect .badProtocol)) (e.arrive id b)
      (e.receiveRequested id p b) := by
  unfold receiveRequested
  split
  next => exact .same rfl
  next =>
    split
    next => exact appends_nextSummary ..
    next => exact .same rfl

/-- Applying an announced block shows the call first, if there is one. -/
theorem journal_applyAnnounced {e e' : Engine σ} {id : PeerId} {b : Block}
    (done : e.applyAnnounced id b = .ok e') :
    e'.journal = e.journal ∨
      ∃ more, e'.journal = e.journal ++ .appliedBlock b.id false :: more := by
  obtain ⟨r, e₁, submitted, rest, unrefused⟩ := moves_applyAnnounced done
  obtain ⟨more, eq, -⟩ := (rest.course fun _ routine => routine).appends
  rcases submitAnnounced_cases submitted with ⟨-, rfl, rfl⟩ | ⟨result, ledger, -, result_eq⟩
  · rw [unrefused rfl]
    exact .inl rfl
  · have called : e₁.journal = e.journal ++ [.appliedBlock b.id false] := by
      cases result with
      | ok transactions =>
        obtain ⟨-, rfl⟩ := result_eq
        rfl
      | error error =>
        obtain ⟨-, quarantine, rfl⟩ := result_eq
        rfl
    exact .inr ⟨more, by rw [eq, called, List.append_assoc, List.singleton_append]⟩

/-- A peer that was asked for a block is not left as one that was not. -/
theorem journal_receiveBlock {e e' : Engine σ} {id : PeerId} {b : Block} {p : Peer}
    (hp : e.peers[id]? = some p) (done : e.receiveBlock id b = .ok e')
    (solicited : p.blocksAsked.contains b.id.hash = true ∨ p.reserved.contains b.id.item = true) :
    e'.journal ≠ e.journal ++ farewell id (some .badProtocol) := by
  simp only [receiveBlock, hp] at done
  split at done
  next =>
    cases done
    -- the only farewell that may follow names another reason
    exact (appends_receiveRequested { e with peers := e.peers.insert id (p.takeDelivery b.id) } id
      (p.takeDelivery b.id) b).ne_farewell
  next notAsked =>
    rw [if_pos (solicited.resolve_left notAsked)] at done
    intro refused
    rcases journal_applyAnnounced done with eq | ⟨more, eq⟩ <;> rw [refused] at eq
    -- what is shown first is the call to the ledger, and not the farewell
    · exact List.cons_ne_nil _ _ (List.append_right_eq_self.1 eq)
    · cases List.head_eq_of_cons_eq (List.append_cancel_left eq)

/-- **Which deliveries are refused.**  A delivered block ends the session as unsolicited
exactly when every request for it in the session was answered by an earlier delivery, or
crossed with one that answered two requests. -/
theorem refused_iff_crossed {config : Config} {ledger : σ} {clock : Clock}
    {start e e' : Engine σ} {past : List (Moment σ)} {answer : Outcome}
    (started : Engine.start config ledger clock = .ok start) (run : Run start past e)
    {id : PeerId} (known : e.isRegistered id = true) {b : Block}
    (done : e.perform (.receive id (.block b)) = .ok (answer, e')) :
    (Moment.mk e (some (.receive id (.block b))) e').events = farewell id (some .badProtocol) ↔
      asked id b.id.item (session id past) =
        delivered id b.id.hash (session id past) + crossed id b.id.hash (session id past) := by
  obtain ⟨p, hp⟩ := isRegistered_iff.1 known
  have account : asked id b.id.item (session id past) =
      delivered id b.id.hash (session id past) + crossed id b.id.hash (session id past) +
        p.owes (.block b.id.hash) := by
    rw [← owed_eq hp]
    exact asked_eq started run known b.id.hash
  obtain ⟨appended, -⟩ :=
    Appends.events (m := ⟨e, some (.receive id (.block b)), e'⟩) (course_perform done).appends
  have received := receive_of_perform done
  rw [receive, if_pos known] at received
  rcases receiveBlock_cases hp received with ⟨notAsked, notReserved, rfl⟩ | ⟨solicited, -⟩
  · obtain ⟨_, _, _, eq⟩ := remove_eq hp (some .badProtocol)
    have farewell := appended.symm.trans ((congrArg Engine.journal eq).trans rfl)
    have nothing : p.owes (.block b.id.hash) = 0 := by
      show (p.reserved.contains b.id.item).toNat + (p.blocksAsked.contains b.id.hash).toNat = 0
      rw [notReserved, notAsked]
      rfl
    constructor
    · intro _
      omega
    · intro _
      exact List.append_cancel_left farewell
  · rw [Peer.owes_of_solicited solicited] at account
    constructor
    · intro farewell
      have shown := appended.trans (congrArg _ farewell)
      exact absurd shown (journal_receiveBlock hp received solicited)
    · intro eq
      omega

/-- A peer is asked for the first block twice, as an announced object and in a catch-up. -/
def doubleRequest : List Operation :=
  [.register ⟨1⟩ 0, .receive ⟨1⟩ (.announce [(Block.bare 1).id.item]), .reserveCandidates,
    .startCatchUp ⟨1⟩, .receive ⟨1⟩ (.summaryReply [(Block.bare 0).id, (Block.bare 1).id] 0),
    .issueTick]

/-- The answer to the second of two requests is refused. -/
theorem refused_second_answer :
    ∃ (start e e' : Engine ChainLedger) (past : List (Moment ChainLedger)) (answer : Outcome),
      Engine.start {} (.ofGenesis (.genesis 0) 0 10) {} = .ok start ∧ Run start past e ∧
        e.isRegistered ⟨1⟩ = true ∧
        e.perform (.receive ⟨1⟩ (.block (.bare 1))) = .ok (answer, e') ∧
        (Moment.mk e (some (.receive ⟨1⟩ (.block (.bare 1)))) e').events =
          farewell ⟨1⟩ (some .badProtocol) := by
  obtain ⟨start, past, e, started, run, checked⟩ := exists_run {}
    (ChainLedger.ofGenesis (.genesis 0) 0 10) {}
    (doubleRequest ++ [.receive ⟨1⟩ (.block (.bare 1))])
    (fun (past, e) => e.isRegistered ⟨1⟩ &&
      (e.perform (.receive ⟨1⟩ (.block (.bare 1)))).toOption.isSome &&
      asked ⟨1⟩ (Block.bare 1).id.item (session ⟨1⟩ past) = 2 &&
      delivered ⟨1⟩ (Block.bare 1).id.hash (session ⟨1⟩ past) = 1 &&
      crossed ⟨1⟩ (Block.bare 1).id.hash (session ⟨1⟩ past) = 1) (by decide +kernel)
  simp only [Bool.and_eq_true, decide_eq_true_eq] at checked
  obtain ⟨⟨⟨⟨known, performed⟩, asked⟩, delivered⟩, crossed⟩ := checked
  cases done : e.perform (.receive ⟨1⟩ (.block (.bare 1))) with
  | error => simp [done, Except.toOption] at performed
  | ok r =>
    obtain ⟨answer, e'⟩ := r
    refine ⟨start, e, e', past, answer, started, run, known, done, ?_⟩
    exact (refused_iff_crossed started run known done).2 (by rw [asked, delivered, crossed])

/-- A peer may be left for a block although it delivers blocks only as answers. -/
theorem onlyAnswers_refused :
    ¬ ∀ (start e : Engine ChainLedger) (past : List (Moment ChainLedger)) (id : PeerId)
      (b : Block), Engine.start {} (.ofGenesis (.genesis 0) 0 10) {} = .ok start →
        Run start past e → onlyAnswers id past = true →
          ∀ m ∈ past, m.heard? id = some (.block b) →
            m.events ≠ farewell id (some .badProtocol) := by
  intro never
  obtain ⟨start, past, e, started, run, checked⟩ := exists_run {}
    (ChainLedger.ofGenesis (.genesis 0) 0 10) {}
    (doubleRequest ++ [.receive ⟨1⟩ (.block (.bare 1)), .receive ⟨1⟩ (.block (.bare 1))])
    (fun (past, _) => onlyAnswers ⟨1⟩ past &&
      past.any fun m => m.heard? ⟨1⟩ = some (.block (.bare 1)) &&
        m.events = farewell ⟨1⟩ (some .badProtocol)) (by decide +kernel)
  simp only [Bool.and_eq_true, List.any_eq_true, decide_eq_true_eq] at checked
  obtain ⟨answers, m, mem, heard, refused⟩ := checked
  exact never start e past ⟨1⟩ (.bare 1) started run answers m mem heard refused

end Engine

end BlockRelay
