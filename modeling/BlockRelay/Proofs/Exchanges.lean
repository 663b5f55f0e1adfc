/-
# Exchanges of summaries

The exchange with a peer lists the summaries that it was sent in its session, and its replies that
were accepted, oldest first.  The turns of an exchange alternate, and a summary is outstanding
exactly if the last turn is ours (`Run.alternates`).

A summary is sent in many places, and some of them are reached from within others.  But each is
one step that finds no summary outstanding, so that the exchange is followed step by step
(`Follows.step`).  A reply is accepted in one step of the operation that receives it.
-/
import BlockRelay.Proofs.Dismissals
import BlockRelay.Proofs.Records

namespace BlockRelay

/-- A turn of an exchange of summaries. -/
inductive SummaryTurn where
  /-- A summary is sent. -/
  | request (ids : List BlockId)
  /-- A reply is accepted. -/
  | reply (ids : List BlockId) (remaining : UInt64)
  deriving DecidableEq, Repr

namespace SummaryTurn

/-- The summary that is sent in a turn. -/
def request? : SummaryTurn → Option (List BlockId)
  | .request ids => some ids
  | .reply .. => none

/-- Whether a summary is sent in a turn. -/
def isRequest (t : SummaryTurn) : Bool := t.request?.isSome

/-- The summary that waits for a reply at the end of an exchange. -/
def outstanding? (turns : List SummaryTurn) : Option (List BlockId) := turns.getLast?.bind request?

/-- Requests and replies alternate, and a request comes first. -/
structure Alternate (turns : List SummaryTurn) : Prop where
  first : ∀ t ∈ turns.head?, t.isRequest = true
  chain : turns.IsChain fun a b => a.isRequest ≠ b.isRequest

variable {turns : List SummaryTurn} {t : SummaryTurn}

/-- Only the last turn decides whether a summary is outstanding. -/
@[simp] theorem outstanding?_concat (turns : List SummaryTurn) (t : SummaryTurn) :
    outstanding? (turns ++ [t]) = t.request? := by
  rw [outstanding?, List.getLast?_concat, Option.bind_some]

/-- An exchange goes on with a request exactly if no summary is outstanding. -/
theorem alternate_concat : Alternate (turns ++ [t]) ↔
    Alternate turns ∧ t.isRequest = (outstanding? turns).isNone := by
  rcases List.eq_nil_or_concat turns with rfl | ⟨older, last, rfl⟩
  · constructor
    · intro h
      exact ⟨⟨nofun, .nil⟩, h.first t rfl⟩
    · intro h
      exact ⟨fun _ mem => Option.some.inj mem ▸ h.2, .singleton t⟩
  · rw [List.concat_eq_append, outstanding?_concat]
    have front : (older ++ [last] ++ [t]).head? = (older ++ [last]).head? := by
      cases older <;> rfl
    have turned : last.isRequest ≠ t.isRequest ↔ t.isRequest = last.request?.isNone := by
      cases last <;> cases t <;> simp [isRequest, request?]
    constructor
    · intro h
      obtain ⟨before, -, next⟩ := List.isChain_append.1 h.chain
      refine ⟨⟨front ▸ h.first, before⟩, turned.1 (next last ?_ t rfl)⟩
      exact List.getLast?_concat
    · rintro ⟨h, next⟩
      refine ⟨front ▸ h.first, List.isChain_append.2 ⟨h.chain, .singleton t, ?_⟩⟩
      intro a mem b mem'
      rw [List.getLast?_concat] at mem
      cases mem
      cases mem'
      exact turned.2 next

/-- In an alternating exchange there is one request more than there are replies while a summary is
outstanding, and there are as many otherwise. -/
theorem Alternate.count (h : Alternate turns) : turns.countP isRequest =
    turns.countP (fun t => !t.isRequest) + (outstanding? turns).isSome.toNat := by
  induction turns using List.reverseRecOn with
  | nil => rfl
  | append_singleton older t ih =>
    obtain ⟨before, next⟩ := alternate_concat.1 h
    have counted := ih before
    rw [List.countP_append, List.countP_append, outstanding?_concat, counted]
    cases free : outstanding? older <;> cases t <;> simp_all [isRequest, request?]

/-- The summary that is outstanding is the last one that was sent. -/
theorem getLast?_requests {ids : List BlockId} (h : outstanding? turns = some ids) :
    (turns.filterMap request?).getLast? = some ids := by
  obtain ⟨t, last, sent⟩ := Option.bind_eq_some_iff.1 h
  obtain ⟨older, rfl⟩ := List.getLast?_eq_some_iff.1 last
  rw [List.filterMap_append, List.filterMap_cons_some sent, List.filterMap_nil,
    List.getLast?_concat]

end SummaryTurn

open SummaryTurn

/-- The summary that is sent to a peer in an event. -/
def Event.summary? (id : PeerId) : Event → Option (List BlockId)
  | .sent other (.summaryRequest ids) => if other = id then some ids else none
  | _ => none

/-- The turns in which a peer is sent a summary. -/
def requestsTo (id : PeerId) (events : List Event) : List SummaryTurn :=
  (events.filterMap (Event.summary? id)).map .request

/-- Without a summary to the peer there is no turn. -/
theorem requestsTo_eq_nil {id : PeerId} {events : List Event}
    (unsent : ∀ ids, Event.sent id (.summaryRequest ids) ∉ events) : requestsTo id events = [] := by
  rw [requestsTo, List.map_eq_nil_iff, List.filterMap_eq_nil_iff]
  intro ev mem
  unfold Event.summary?
  split
  next other ids =>
    rw [if_neg]
    rintro rfl
    exact unsent ids mem
  next => rfl

/-- Later events make later turns. -/
theorem requestsTo_append (id : PeerId) (events later : List Event) :
    requestsTo id (events ++ later) = requestsTo id events ++ requestsTo id later := by
  rw [requestsTo, List.filterMap_append, List.map_append]
  rfl

variable {σ : Type} [Ledger σ]

/-- Whether a reply of a peer is accepted: a summary is outstanding, and the reply is legal. -/
def Engine.accepts (e : Engine σ) (id : PeerId) (ids : List BlockId) (remaining : UInt64) : Bool :=
  (e.peers[id]?).any fun p => p.summary.any fun s =>
    match e.chainFacts.judge e.config.net e.clock.wallTime s.ids ids remaining with
    | .ok (.ok ()) => true
    | _ => false

namespace Moment

/-- The turn in which a reply of a peer is accepted. -/
def replies (m : Moment σ) (id : PeerId) : List SummaryTurn :=
  match m.heard? id with
  | some (.summaryReply ids remaining) =>
    if m.before.accepts id ids remaining then [.reply ids remaining] else []
  | _ => []

/-- The turns that are taken in a moment.  A reply comes before the summaries that it leads to. -/
def turns (m : Moment σ) (id : PeerId) : List SummaryTurn :=
  m.replies id ++ requestsTo id m.events

end Moment

namespace Engine

/-- The exchange with a peer since it was registered last. -/
def exchange (id : PeerId) : List (Moment σ) → List SummaryTurn
  | [] => []
  | m :: past => (if m.opens id then [] else exchange id past) ++ m.turns id

variable {e e₁ e' : Engine σ} {id : PeerId} {turns : List SummaryTurn}

/-- A reply is accepted if it is legal for the summary that is outstanding. -/
theorem accepts_iff {ids : List BlockId} {remaining : UInt64} :
    e.accepts id ids remaining = true ↔ ∃ p s, e.peers[id]? = some p ∧ p.summary = some s ∧
      e.chainFacts.judge e.config.net e.clock.wallTime s.ids ids remaining = .ok (.ok ()) := by
  simp only [accepts, Option.any_eq_true]
  constructor
  · rintro ⟨p, hp, s, hs, legal⟩
    refine ⟨p, s, hp, hs, ?_⟩
    split at legal
    next eq => exact eq
    next => cases legal
  · rintro ⟨p, s, hp, hs, legal⟩
    exact ⟨p, hp, s, hs, by rw [legal]⟩

/-! ## Following an exchange -/

/-- The turns alternate, and the record of the peer says which summary is outstanding. -/
structure Follows (e : Engine σ) (id : PeerId) (turns : List SummaryTurn) : Prop where
  alternate : Alternate turns
  awaits : ∀ p : Peer, e.peers[id]? = some p → p.summary.map (·.ids) = outstanding? turns

/-- The exchange that leads to `e'` is the one that leads to `e`, with the summaries after it that
are sent between the two. -/
def Prolongs (id : PeerId) (turns : List SummaryTurn) (e e' : Engine σ) : Prop :=
  ∃ events, e'.journal = e.journal ++ events ∧ e'.Follows id (turns ++ requestsTo id events)

omit [Ledger σ] in
/-- What is appended without sending a summary to the peer leaves the exchange as it is. -/
theorem Prolongs.of_unsent {P : Event → Prop} (appends : Appends P e e')
    (unsent : ∀ ids, ¬ P (.sent id (.summaryRequest ids))) (h : e'.Follows id turns) :
    Prolongs id turns e e' := by
  obtain ⟨events, eq, shown⟩ := appends
  refine ⟨events, eq, ?_⟩
  rwa [requestsTo_eq_nil fun ids mem => unsent ids (shown _ mem), List.append_nil]

omit [Ledger σ] in
/-- One stretch of an exchange after the other. -/
theorem Prolongs.trans (h : ∃ events, e₁.journal = e.journal ++ events ∧
      Prolongs id (turns ++ requestsTo id events) e₁ e') : Prolongs id turns e e' := by
  obtain ⟨events, eq, later, eq', follows⟩ := h
  refine ⟨events ++ later, by rw [eq', eq, List.append_assoc], ?_⟩
  rwa [requestsTo_append, ← List.append_assoc]

/-- **One step of an exchange.**  A step that neither begins the session nor accepts a reply sends
the peer nothing, or a summary while none is outstanding. -/
theorem Follows.step {d : Deed} (h : e.Follows id turns) (s : Step d e e')
    (old : d ≠ .opened id) (unfinished : d ≠ .finished id) (unjoined : ∀ ids, d ≠ .joined id ids) :
    Prolongs id turns e e' := by
  by_cases sent : d = .summarized id
  · subst sent
    cases s with
    | @sendSummary _ _ p ids hp settled =>
      have free : outstanding? turns = none := by rw [← h.awaits p hp, settled, Option.map_none]
      have turn : requestsTo id [.sent id (.summaryRequest ids)] = [.request ids] := by
        simp [requestsTo, Event.summary?]
      refine ⟨[.sent id (.summaryRequest ids)], rfl, ?_⟩
      rw [turn]
      refine ⟨alternate_concat.2 ⟨h.alternate, by rw [free]; rfl⟩, fun p' hp' => ?_⟩
      have awaits : (e.modifyPeer id fun p => p.await ids e.now).peers[id]? = some p' := hp'
      rw [peers_modifyPeer, if_pos rfl, hp] at awaits
      cases awaits
      rw [outstanding?_concat]
      rfl
  · refine .of_unsent s.appends (fun _ => sent) ⟨h.alternate, fun p' hp' => ?_⟩
    rcases s.revised id p' hp' with ⟨opened, -⟩ | ⟨p, hp, r⟩
    · exact absurd opened old
    · rw [r.summary_eq sent unfinished unjoined]
      exact h.awaits p hp

/-- A course that neither begins the session nor accepts a reply prolongs the exchange. -/
theorem Follows.course {allowed : Deed → Prop} (h : e.Follows id turns)
    (c : Course allowed e e') (old : ¬ allowed (.opened id)) (unfinished : ¬ allowed (.finished id))
    (unjoined : ∀ ids, ¬ allowed (.joined id ids)) : Prolongs id turns e e' := by
  induction c with
  | refl => exact ⟨[], (List.append_nil _).symm, by simpa [requestsTo] using h⟩
  | tail _ last ih =>
    obtain ⟨d, allows, last⟩ := last
    obtain ⟨events, eq, follows⟩ := ih
    refine .trans ⟨events, eq, follows.step last ?_ ?_ ?_⟩
    · exact fun opened => old (opened ▸ allows)
    · exact fun finished => unfinished (finished ▸ allows)
    · exact fun ids joined => unjoined ids (joined ▸ allows)

/-- Routine prolongs an exchange. -/
theorem Follows.routine (h : e.Follows id turns) (c : Course Deed.IsRoutine e e') :
    Prolongs id turns e e' :=
  h.course c Deed.isRoutine_iff.1 Deed.isRoutine_iff.1 fun _ => Deed.isRoutine_iff.1

/-- The exchange of a session that begins is empty before routine follows. -/
theorem prolongs_register (e : Engine σ) (id : PeerId) (height : UInt64) :
    Prolongs id [] e (e.register id height) := by
  have begun : ((e.remove id none).openSession id).Follows id [] := by
    refine ⟨⟨nofun, .nil⟩, fun p hp => ?_⟩
    rw [peers_openSession, if_pos rfl] at hp
    cases hp
    rfl
  -- before the session begins, the one that it replaces ends
  have opened : Prolongs id [] e ((e.remove id none).openSession id) := by
    refine .of_unsent (P := fun ev => ∀ ids, ev ≠ .sent id (.summaryRequest ids)) ?_
      (fun ids unsent => unsent ids rfl) begun
    exact (Appends.remove e id none (fun _ => nofun) nofun).trans (.one rfl nofun)
  obtain ⟨events, eq, follows⟩ := opened
  exact .trans ⟨events, eq, follows.routine (course_welcome e id height)⟩

/-- **A reply in an exchange.**  A reply that is accepted is the next turn, and a summary may
follow. -/
theorem Follows.accept {ids : List BlockId} {remaining : UInt64} (h : e.Follows id turns)
    (accepted : e.accepts id ids remaining = true)
    (done : e.receiveReply id ids remaining = .ok e') :
    Prolongs id (turns ++ [.reply ids remaining]) e e' := by
  obtain ⟨p, s, hp, hs, legal⟩ := accepts_iff.1 accepted
  have waiting : outstanding? turns = some s.ids := by rw [← h.awaits p hp, hs, Option.map_some]
  have alternate : Alternate (turns ++ [.reply ids remaining]) :=
    alternate_concat.2 ⟨h.alternate, by rw [waiting]; rfl⟩
  -- the step that accepts the reply sends nothing, and leaves no summary outstanding
  have accept {d : Deed} {q : Peer} {e₁ : Engine σ} (step : Step d e e₁)
      (unsent : d ≠ .summarized id) (peers : e₁.peers = e.peers.insert id q)
      (answered : q.summary = none) : Prolongs id (turns ++ [.reply ids remaining]) e e₁ := by
    refine .of_unsent step.appends (fun _ => unsent) ⟨alternate, fun q' hq' => ?_⟩
    rw [peers, Std.TreeMap.getElem?_insert_self] at hq'
    cases hq'
    rw [answered, outstanding?_concat]
    rfl
  rcases receiveReply_of_legal hp hs legal done with ⟨-, nothing, ended⟩ | joined
  · exact accept (.finishCatchUp hp hs legal nothing ended) nofun (peers_finishCatchUp ended) rfl
  · obtain ⟨elsewhere, enough, e₁, taken, followed⟩ := joined
    have first := accept (.takeUp hp hs legal taken) nofun (peers_takeUp taken)
      (Peer.summary_continueCatchUp ..)
    rcases followed with rfl | rfl
    · exact first
    · obtain ⟨events, eq, follows⟩ := first
      exact .trans ⟨events, eq, follows.routine (course_nextSummary e₁ id)⟩

/-- **One moment of an exchange.**  An operation takes the turns of its moment. -/
theorem Follows.perform {op : Operation} {answer : Outcome} (h : e.Follows id turns)
    (done : e.perform op = .ok (answer, e')) :
    let m : Moment σ := ⟨e, some op, e'⟩
    e'.Follows id ((if m.opens id then [] else turns) ++ m.turns id) := by
  intro m
  have events_eq {events : List Event} (eq : e'.journal = e.journal ++ events) :
      m.events = events := by
    change e'.journal.drop e.journal.length = events
    rw [eq, List.drop_left]
  -- what is left to show is how the moment prolongs the exchange up to its reply
  suffices Prolongs id ((if m.opens id then [] else turns) ++ m.replies id) e e' by
    obtain ⟨events, eq, follows⟩ := this
    rwa [Moment.turns, events_eq eq, ← List.append_assoc]
  by_cases opens : m.opens id = true
  · obtain ⟨height, eq⟩ := Moment.opens_iff.1 opens
    cases eq
    cases done
    have silent : m.replies id = [] := rfl
    rw [if_pos opens, silent]
    exact prolongs_register e id height
  rw [if_neg opens]
  have old : ¬ op.Allows (.opened id) := fun ⟨height, eq⟩ =>
    Moment.ne_register_of_not_opens opens height eq
  by_cases reply : ∃ ids remaining, op = .receive id (.summaryReply ids remaining)
  · obtain ⟨ids, remaining, rfl⟩ := reply
    have replies : m.replies id =
        if e.accepts id ids remaining then [.reply ids remaining] else [] := by
      rw [Moment.replies, Moment.heard?_eq_some_iff.2 rfl]
    have received := receive_of_perform done
    rw [replies]
    unfold receive at received
    split at received
    next known =>
      obtain ⟨p, hp⟩ := isRegistered_iff.1 known
      split
      next accepted => exact h.accept accepted received
      next refused =>
        have illegal := fun s hs legal => refused (accepts_iff.2 ⟨p, s, hp, hs, legal⟩)
        rw [receiveReply_of_not_legal hp illegal received, List.append_nil]
        exact h.routine (course_remove e id _)
    next unknown =>
      cases received
      rw [if_neg, List.append_nil]
      · exact h.routine (.refl e)
      · intro accepted
        obtain ⟨p, -, hp, -⟩ := accepts_iff.1 accepted
        exact unknown (isRegistered_iff.2 ⟨p, hp⟩)
  · have silent : m.replies id = [] := by
      unfold Moment.replies
      split
      next ids remaining heard =>
        have received := Moment.heard?_eq_some_iff.1 heard
        exact absurd ⟨ids, remaining, Option.some.inj received⟩ reply
      next => rfl
    rw [silent, List.append_nil]
    refine h.course (course_perform done) old (fun allows => reply allows) fun ids => ?_
    rintro ⟨remaining, eq⟩
    exact reply ⟨ids, remaining, eq⟩

/-! ## Runs -/

/-- The exchange of a run is followed throughout. -/
theorem Run.follows {config : Config} {ledger : σ} {clock : Clock} {start e : Engine σ}
    {past : List (Moment σ)} (started : Engine.start config ledger clock = .ok start)
    (run : Run start past e) (id : PeerId) : e.Follows id (exchange id past) := by
  induction run with
  | start =>
    refine ⟨⟨nofun, .nil⟩, fun p hp => ?_⟩
    rw [peers_of_start started] at hp
    cases hp
  | perform _ done ih => exact ih.perform done
  | @meddle past e ledger _ ih =>
    have nothing : (Moment.mk e none { e with ledger }).turns id = [] := by
      have silent : (Moment.mk e none { e with ledger }).events = [] := List.drop_length
      rw [Moment.turns, silent]
      rfl
    have unchanged : exchange id (⟨e, none, { e with ledger }⟩ :: past) = exchange id past := by
      rw [exchange, nothing, List.append_nil]
      rfl
    rw [unchanged]
    exact ⟨ih.alternate, ih.awaits⟩

/-- A reply while no summary is outstanding ends the session. -/
theorem receive_unsolicited {p : Peer} (hp : e.peers[id]? = some p) (settled : p.summary = none)
    (ids : List BlockId) (remaining : UInt64) :
    ∃ e', e.perform (.receive id (.summaryReply ids remaining)) = .ok (.done, e') ∧
      e'.peers[id]? = none ∧
      e'.journal = e.journal ++ [.sent id (.disconnect .badProtocol), .closed id] := by
  have departure := (departure_of_disconnect hp .badProtocol).1
  refine ⟨_, ?_, departure.gone, departure.journal⟩
  rw [perform_reply hp, receiveReply_of_dismisses hp (.inl settled)]
  rfl

/-- **One exchange at a time.**  In every session of a run the summaries that the peer is sent and
its replies that are accepted alternate, and a summary comes first.  A summary is outstanding
exactly if one more of them was sent than replies were accepted, and it is the one that was sent
last.  A reply while none is outstanding ends the session. -/
theorem Run.alternates {config : Config} {ledger : σ} {clock : Clock} {start e : Engine σ}
    {past : List (Moment σ)} (started : Engine.start config ledger clock = .ok start)
    (run : Run start past e) (id : PeerId) :
    (∀ part, part <:+ past → Alternate (exchange id part)) ∧
      ∀ p : Peer, e.peers[id]? = some p →
        (p.summary ≠ none ↔ (exchange id past).countP isRequest =
          (exchange id past).countP (fun t => !t.isRequest) + 1) ∧
        (∀ s, p.summary = some s →
          ((exchange id past).filterMap request?).getLast? = some s.ids) ∧
        (p.summary = none → ∀ ids remaining,
          ∃ e', e.perform (.receive id (.summaryReply ids remaining)) = .ok (.done, e') ∧
            e'.peers[id]? = none ∧
            e'.journal = e.journal ++ [.sent id (.disconnect .badProtocol), .closed id]) := by
  refine ⟨fun part suffix => ?_, fun p hp => ?_⟩
  · obtain ⟨e₁, older⟩ := run.suffix suffix
    exact (older.follows started id).alternate
  · obtain ⟨alternate, awaits⟩ := run.follows started id
    have awaits := awaits p hp
    refine ⟨?_, fun s hs => ?_, fun settled ids remaining => ?_⟩
    · rw [alternate.count, ← awaits]
      cases p.summary <;> simp
    · exact getLast?_requests (by rw [← awaits, hs, Option.map_some])
    · exact receive_unsolicited hp settled ids remaining

/-- A reply that leaves two blocks unnamed is followed by the next summary. -/
theorem alternates_summary_reply_summary :
    ∃ (start e : Engine ChainLedger) (past : List (Moment ChainLedger)) (p : Peer)
      (s : SummaryRequest),
      Engine.start {} (.ofGenesis (.genesis 0) 0 10) {} = .ok start ∧ Run start past e ∧
        e.peers[PeerId.mk 1]? = some p ∧ p.summary = some s ∧
          (exchange ⟨1⟩ past).length = 3 ∧ Alternate (exchange ⟨1⟩ past) ∧
            (exchange ⟨1⟩ past).countP isRequest =
              (exchange ⟨1⟩ past).countP (fun t => !t.isRequest) + 1 ∧
            ((exchange ⟨1⟩ past).filterMap request?).getLast? = some s.ids := by
  obtain ⟨start, past, e, started, run, checked⟩ := exists_run {}
    (ChainLedger.ofGenesis (.genesis 0) 0 10) {}
    [.register ⟨1⟩ 4,
      .receive ⟨1⟩ (.summaryReply [(Block.bare 0).id, (Block.bare 1).id, (Block.bare 2).id] 2)]
    (fun (past, e) => (e.peers[PeerId.mk 1]?).any (·.summary.isSome) &&
      (exchange ⟨1⟩ past).length = 3)
    (by decide +kernel)
  simp only [Bool.and_eq_true, Option.any_eq_true, decide_eq_true_eq,
    Option.isSome_iff_exists] at checked
  obtain ⟨⟨p, hp, s, hs⟩, three⟩ := checked
  obtain ⟨alternate, here⟩ := run.alternates started ⟨1⟩
  obtain ⟨outstanding, last, -⟩ := here p hp
  exact ⟨start, e, past, p, s, started, run, hp, hs, three, alternate past (List.suffix_refl _),
    outstanding.1 (by rw [hs]; nofun), last s hs⟩

end Engine

end BlockRelay
