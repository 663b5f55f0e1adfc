/-
# Queues that nobody fetches

Blocks are asked of a peer only while its chain is fetched.  A catch-up ends with an empty queue,
and a new one begins with an empty queue; so a queue is stranded, with blocks in it and nobody to
fetch them, only by a reply that is joined when the catch-up has ended (`Step.stranded`).

Such a reply answers a summary that was sent although the catch-up had ended (`Run.sent_idle`).
A reply that ends a catch-up is followed by the next summary, unless it brings nothing new.
-/
import BlockRelay.Ledger.Chain
import BlockRelay.Proofs.Journal
import BlockRelay.Proofs.Records

namespace BlockRelay

namespace Engine

variable {σ : Type}

/-- Whether blocks are queued for a registered peer whose chain is not fetched. -/
def Stranded (e : Engine σ) (id : PeerId) : Prop :=
  ∃ p, e.peers[id]? = some p ∧ p.needFromPeer = false ∧ p.toFetch ≠ []

/-- Whether a summary is outstanding at a registered peer whose chain is not fetched. -/
def AwaitsIdly (e : Engine σ) (id : PeerId) (s : SummaryRequest) : Prop :=
  ∃ p, e.peers[id]? = some p ∧ p.summary = some s ∧ p.needFromPeer = false

end Engine

/-- Whether a reply of a peer whose chain is not fetched any more fills the empty queue of the
peer. -/
def Moment.Strands {σ : Type} (m : Moment σ) (id : PeerId) : Prop :=
  ∃ ids remaining p p', m.operation = some (.receive id (.summaryReply ids remaining)) ∧
    m.before.peers[id]? = some p ∧ p.needFromPeer = false ∧ p.toFetch = [] ∧
      m.after.peers[id]? = some p' ∧ p'.toFetch ≠ []

namespace Engine

variable {σ : Type} [Ledger σ]

/-! ## How queues are stranded -/

/-- A reply that is joined ends the catch-up only with an empty queue. -/
theorem needFromPeer_of_queued {p : Peer} {ids : List (BlockId × Bool)} {remaining : UInt64}
    {elsewhere : Bool} {recent : RecentBlocks}
    (queued : (p.continueCatchUp ids remaining elsewhere recent).toFetch ≠ []) :
    (p.continueCatchUp ids remaining elsewhere recent).needFromPeer = p.needFromPeer := by
  have kept : (p.joinReply ids elsewhere).needFromPeer = p.needFromPeer := by
    obtain ⟨_, _, eq⟩ := p.joinReply_eq ids elsewhere
    rw [eq]
  have filled : (skipRecent recent (p.joinReply ids elsewhere).bothHave
      (p.joinReply ids elsewhere).toFetch).2.isEmpty = false :=
    Bool.eq_false_iff.2 fun empty => queued (List.isEmpty_iff.1 empty)
  simp only [Peer.continueCatchUp, filled, Bool.and_false, Bool.not_false, Bool.and_true, kept]

/-- **How a queue is stranded.**  Only a step that uses a reply strands a queue. -/
theorem Step.stranded {d : Deed} {e e' : Engine σ} (s : Step d e e') {id : PeerId}
    (h : e'.Stranded id) : e.Stranded id ∨ d = .finished id ∨ ∃ ids, d = .joined id ids := by
  obtain ⟨p', hp', idle, queued⟩ := h
  rcases s.revised id p' hp' with ⟨-, rfl⟩ | ⟨p, hp, r⟩
  · exact absurd rfl queued
  suffices (p.needFromPeer = false ∧ p.toFetch ≠ []) ∨ d = .finished id ∨
      ∃ ids, d = .joined id ids from this.imp_left fun stranded => ⟨p, hp, stranded⟩
  cases r with
  | joined => exact .inr (.inr ⟨_, rfl⟩)
  | finished => exact .inr (.inl rfl)
  | restarted => cases idle
  | announced p items =>
    rw [Peer.announceAll_eq] at idle queued
    exact .inl ⟨idle, queued⟩
  | requested p batch =>
    rw [Peer.requestBlocks_eq] at idle queued
    exact .inl ⟨idle, queued⟩
  | settled p hash b =>
    obtain ⟨_, _, settled⟩ := settlePeer_eq b (takeFront hash p)
    obtain ⟨_, _, rest, taken⟩ := takeFront_eq hash p
    rw [settled, taken] at idle queued
    exact .inl ⟨idle, fun empty => queued (List.suffix_nil.1 (empty ▸ rest))⟩
  | refused p hash =>
    obtain ⟨_, _, rest, taken⟩ := takeFront_eq hash p
    rw [taken] at idle queued
    exact .inl ⟨idle, fun empty => queued (List.suffix_nil.1 (empty ▸ rest))⟩
  | same | welcomed | summarized | answered | noted | reserved | served | accepted | tookBlock
  | tookTransaction | forgot => exact .inl ⟨idle, queued⟩

/-- A reply that leaves blocks queued answers a summary, and it does not change whether the chain
of its peer is fetched. -/
theorem needFromPeer_receiveReply {e e' : Engine σ} {id : PeerId} {ids : List BlockId}
    {remaining : UInt64} {p p' : Peer} (hp : e.peers[id]? = some p)
    (done : e.receiveReply id ids remaining = .ok e') (hp' : e'.peers[id]? = some p')
    (queued : p'.toFetch ≠ []) :
    (∃ s, p.summary = some s) ∧ p'.needFromPeer = p.needFromPeer := by
  rcases receiveReply_cases hp done with rfl | ⟨s, hs, -, ⟨-, nothing, ended⟩ | joined⟩
  · rw [disconnect, peers_remove, if_pos rfl] at hp'
    cases hp'
  · -- a catch-up is ended only with an empty queue
    rw [peers_finishCatchUp ended, Std.TreeMap.getElem?_insert_self] at hp'
    cases hp'
    exact absurd (Peer.fetched_of_nothingNew nothing).1 queued
  · obtain ⟨elsewhere, enough, e₁, taken, followed⟩ := joined
    have hp₁ : e₁.peers[id]? = some ({ p with summary := none }.continueCatchUp
        (ids.map fun b => (b, Ledger.containsBlock e.ledger b)) remaining elsewhere e.recent) := by
      rw [peers_takeUp taken, Std.TreeMap.getElem?_insert_self]
    refine ⟨⟨s, hs⟩, ?_⟩
    rcases followed with rfl | rfl
    · cases hp₁.symm.trans hp'
      exact needFromPeer_of_queued queued
    · obtain ⟨q, hq, same⟩ := record_nextSummary hp'
      cases hp₁.symm.trans hq
      rcases same with rfl | ⟨-, _, rfl⟩ <;> exact needFromPeer_of_queued queued

/-- A peer that has just been registered has an empty queue, and no summary is outstanding at it
unless its chain is fetched. -/
theorem fresh_register {e : Engine σ} {id : PeerId} {height : UInt64} :
    ¬ (e.register id height).Stranded id ∧ ∀ s, ¬ (e.register id height).AwaitsIdly id s := by
  suffices ∀ p, (e.register id height).peers[id]? = some p → p.needFromPeer = false →
      p.toFetch = [] ∧ p.summary = none by
    constructor
    · rintro ⟨p, hp, idle, queued⟩
      exact queued (this p hp idle).1
    · rintro s ⟨p, hp, outstanding, idle⟩
      cases (this p hp idle).2.symm.trans outstanding
  intro p hp idle
  simp only [register] at hp
  split at hp
  · exact absurd idle (by rw [needFromPeer_startCatchUp hp]; decide)
  · rw [peers_modifyPeer, if_pos rfl, peers_openSession, if_pos rfl] at hp
    cases hp
    exact ⟨rfl, rfl⟩

section

variable {config : Config} {ledger : σ} {clock : Clock} {start e : Engine σ}
  {past : List (Moment σ)}

/-- A queue that is stranded was stranded by a reply in the session of its peer. -/
theorem Run.strands_of_stranded (run : Run start past e)
    (started : Engine.start config ledger clock = .ok start) {id : PeerId}
    (stranded : e.Stranded id) : ∃ m ∈ session id past, m.Strands id := by
  induction run with
  | start =>
    obtain ⟨p, hp, -⟩ := stranded
    cases (peers_of_start started id).symm.trans hp
  | @meddle past e ledger _ ih =>
    obtain ⟨m, mem, strands⟩ := ih stranded
    exact ⟨m, session_meddle id _ _ past ▸ List.mem_cons_of_mem _ mem, strands⟩
  | @perform past e e' op answer _ done ih =>
    rw [session_cons]
    split
    next opens =>
      obtain ⟨height, eq⟩ := Moment.opens_iff.1 opens
      cases eq
      cases done
      exact absurd stranded fresh_register.1
    next =>
      by_cases before : e.Stranded id
      · obtain ⟨m, mem, strands⟩ := ih before
        exact ⟨m, List.mem_cons_of_mem _ mem, strands⟩
      -- the queue was stranded by the operation, which is then a reply
      have replied : ∃ ids remaining, op = .receive id (.summaryReply ids remaining) := by
        have cause := (course_perform done).cause (F := (·.Stranded id))
          (C := fun d => d = .finished id ∨ ∃ ids, d = .joined id ids)
          (fun s h => s.stranded h) stranded
        rcases cause.resolve_left before with ⟨d, allows, rfl | ⟨ids, rfl⟩⟩
        · exact allows
        · obtain ⟨remaining, eq⟩ := allows
          exact ⟨ids, remaining, eq⟩
      obtain ⟨ids, remaining, rfl⟩ := replied
      obtain ⟨p', hp', idle, queued⟩ := stranded
      have received := receive_of_perform done
      have known := isRegistered_of_receive received (isRegistered_iff.2 ⟨p', hp'⟩)
      obtain ⟨p, hp⟩ := isRegistered_iff.1 known
      rw [receive, if_pos known] at received
      obtain ⟨-, same⟩ := needFromPeer_receiveReply hp received hp' queued
      have empty : p.toFetch = [] := by
        by_contra filled
        exact before ⟨p, hp, same ▸ idle, filled⟩
      exact ⟨_, List.mem_cons_self .., ids, remaining, p, p', rfl, hp, same ▸ idle, empty, hp',
        queued⟩

/-! ## Summaries that are sent idly -/

/-- A step leaves a summary outstanding at a peer whose chain is not fetched only if it was
outstanding before, or if the step sends it. -/
theorem Step.awaitsIdly {d : Deed} {e e' : Engine σ} (step : Step d e e') {id : PeerId}
    {s : SummaryRequest} (h : e'.AwaitsIdly id s) :
    e.AwaitsIdly id s ∨ e'.journal = e.journal ++ [.sent id (.summaryRequest s.ids)] := by
  obtain ⟨p', hp', outstanding, idle⟩ := h
  rcases step.revised id p' hp' with ⟨-, rfl⟩ | ⟨p, hp, r⟩
  · cases outstanding
  suffices (p.summary = some s ∧ p.needFromPeer = false) ∨
      e'.journal = e.journal ++ [.sent id (.summaryRequest s.ids)] from
    this.imp_left fun awaits => ⟨p, hp, awaits⟩
  cases r with
  | summarized =>
    cases step with
    | @sendSummary _ _ _ ids =>
      -- the record after the step shows which summary was sent
      have sent : (e.modifyPeer id fun p => p.await ids e.now).peers[id]? =
          some (p.await ids e.now) := by rw [peers_modifyPeer, if_pos rfl, hp, Option.map_some]
      have shown := congrArg (Option.bind · Peer.summary) (hp'.symm.trans sent)
      cases outstanding.symm.trans shown
      exact .inr rfl
  | restarted => cases idle
  | finished => cases outstanding
  | joined =>
    rw [Peer.summary_continueCatchUp] at outstanding
    cases outstanding
  | announced p items =>
    rw [Peer.announceAll_eq] at outstanding idle
    exact .inl ⟨outstanding, idle⟩
  | requested p batch =>
    rw [Peer.requestBlocks_eq] at outstanding idle
    exact .inl ⟨outstanding, idle⟩
  | settled p hash b =>
    obtain ⟨_, _, settled⟩ := settlePeer_eq b (takeFront hash p)
    obtain ⟨_, _, -, taken⟩ := takeFront_eq hash p
    rw [settled, taken] at outstanding idle
    exact .inl ⟨outstanding, idle⟩
  | refused p hash =>
    obtain ⟨_, _, -, taken⟩ := takeFront_eq hash p
    rw [taken] at outstanding idle
    exact .inl ⟨outstanding, idle⟩
  | same | welcomed | answered | noted | reserved | served | accepted | tookBlock
  | tookTransaction | forgot => exact .inl ⟨outstanding, idle⟩

/-- An operation leaves a summary outstanding at a peer whose chain is not fetched only if it was
outstanding before, or if the operation sends it. -/
theorem Course.awaitsIdly {allowed : Deed → Prop} {e e' : Engine σ} (c : Course allowed e e')
    {id : PeerId} {s : SummaryRequest} (h : e'.AwaitsIdly id s) :
    e.AwaitsIdly id s ∨
      ∃ events, e'.journal = e.journal ++ events ∧ .sent id (.summaryRequest s.ids) ∈ events := by
  induction c with
  | refl => exact .inl h
  | tail first last ih =>
    obtain ⟨d, -, last⟩ := last
    rcases last.awaitsIdly h with before | sent
    · obtain ⟨later, eq, -⟩ := last.appends
      refine (ih before).imp_right fun ⟨events, sent, mem⟩ => ?_
      exact ⟨events ++ later, by rw [eq, sent, List.append_assoc], List.mem_append_left _ mem⟩
    · obtain ⟨events, eq, -⟩ := Course.appends first
      exact .inr ⟨events ++ [_], by rw [sent, eq, List.append_assoc],
        List.mem_append_right _ (List.mem_singleton.2 rfl)⟩

/-- **Where idle summaries come from.**  A summary that is outstanding at a peer whose chain is not
fetched was sent in the session of the peer, in a moment that left its chain not to be fetched. -/
theorem Run.sent_idle (run : Run start past e)
    (started : Engine.start config ledger clock = .ok start) {id : PeerId} {s : SummaryRequest}
    (awaits : e.AwaitsIdly id s) :
    ∃ d ∈ session id past, .sent id (.summaryRequest s.ids) ∈ d.events ∧
      d.after.AwaitsIdly id s := by
  induction run with
  | start =>
    obtain ⟨p, hp, -⟩ := awaits
    cases (peers_of_start started id).symm.trans hp
  | @meddle past e ledger _ ih =>
    obtain ⟨d, mem, sent⟩ := ih awaits
    exact ⟨d, session_meddle id _ _ past ▸ List.mem_cons_of_mem _ mem, sent⟩
  | @perform past e e' op answer _ done ih =>
    rw [session_cons]
    split
    next opens =>
      obtain ⟨height, eq⟩ := Moment.opens_iff.1 opens
      cases eq
      cases done
      exact absurd awaits (fresh_register.2 s)
    next =>
      rcases (course_perform done).awaitsIdly awaits with before | ⟨events, eq, mem⟩
      · obtain ⟨d, mem, sent⟩ := ih before
        exact ⟨d, List.mem_cons_of_mem _ mem, sent⟩
      · refine ⟨_, List.mem_cons_self .., ?_, awaits⟩
        rw [Moment.events, eq, List.drop_left]
        exact mem

end

/-- A reply that strands a queue answers a summary that was outstanding although the chain of the
peer was not fetched. -/
theorem strands_cases {e e' : Engine σ} {op : Operation} {answer : Outcome}
    (done : e.perform op = .ok (answer, e')) {id : PeerId}
    (strands : (Moment.mk e (some op) e').Strands id) :
    e'.Stranded id ∧ ∃ s, e.AwaitsIdly id s := by
  obtain ⟨ids, remaining, p, p', eq, hp, idle, -, hp', queued⟩ := strands
  cases eq
  have received := receive_of_perform done
  rw [receive, if_pos (isRegistered_iff.2 ⟨p, hp⟩)] at received
  obtain ⟨⟨s, outstanding⟩, same⟩ := needFromPeer_receiveReply hp received hp' queued
  exact ⟨⟨p', hp', same.trans idle, queued⟩, s, p, hp, outstanding, idle⟩

/-- **When queues are stranded.**  In every run, queues are stranded exactly by the replies that
fill an empty queue of a peer whose chain is not fetched any more, and a stranded queue goes back
to such a reply in the session of its peer.  The summary that is answered was sent in the session,
in a moment that left the chain of the peer not to be fetched. -/
theorem stranded_iff_strands {config : Config} {ledger : σ} {clock : Clock} {start e : Engine σ}
    {past : List (Moment σ)} (started : Engine.start config ledger clock = .ok start)
    (run : Run start past e) :
    ((∀ m ∈ past, ∀ id, ¬ m.after.Stranded id) ↔ ∀ m ∈ past, ∀ id, ¬ m.Strands id) ∧
      (∀ id, e.Stranded id → ∃ m ∈ session id past, m.Strands id) ∧
        ∀ m older id, m :: older <:+ past → m.Strands id →
          ∃ s, m.before.AwaitsIdly id s ∧ ∃ d ∈ session id older,
            .sent id (.summaryRequest s.ids) ∈ d.events ∧ d.after.AwaitsIdly id s := by
  have causes {m : Moment σ} {older : List (Moment σ)} {id : PeerId} (part : m :: older <:+ past)
      (strands : m.Strands id) : m.after.Stranded id ∧ ∃ s, m.before.AwaitsIdly id s ∧
        ∃ d ∈ session id older, .sent id (.summaryRequest s.ids) ∈ d.events ∧
          d.after.AwaitsIdly id s := by
    obtain ⟨e₁, newest⟩ := run.suffix part
    cases newest with
    | meddle =>
      obtain ⟨_, _, _, _, eq, -⟩ := strands
      cases eq
    | perform earlier done =>
      obtain ⟨stranded, s, awaits⟩ := strands_cases done strands
      exact ⟨stranded, s, awaits, earlier.sent_idle started awaits⟩
  refine ⟨⟨fun never m mem id strands => ?_, fun never m mem id stranded => ?_⟩,
    fun id => run.strands_of_stranded started,
    fun m older id part strands => (causes part strands).2⟩
  · obtain ⟨older, part, -⟩ := run.reached mem
    exact never m mem id (causes part strands).1
  · obtain ⟨older, part, newest⟩ := run.reached mem
    obtain ⟨d, since, strands⟩ := newest.strands_of_stranded started stranded
    have earlier : d ∈ m :: older := (List.takeWhile_sublist _).subset since
    exact never d (part.subset earlier) id strands

/-- A catch-up ends because the only block that it lacks was announced by another peer.  Then the
peer replies to the next summary with a block that is new. -/
def caughtUpThenAhead : List Operation :=
  [.register ⟨1⟩ 1, .register ⟨2⟩ 0, .receive ⟨2⟩ (.announce [(Block.bare 1).id.item]),
    .reserveCandidates, .receive ⟨2⟩ (.block (Block.bare 1)),
    .receive ⟨1⟩ (.summaryReply [(Block.bare 0).id, (Block.bare 1).id] 0),
    .receive ⟨1⟩ (.summaryReply [(Block.bare 1).id, (Block.bare 2).id] 0)]

/-- At the end blocks are queued for the first peer, and its chain is not fetched. -/
theorem exists_stranded :
    ∃ (start e : Engine ChainLedger) (past : List (Moment ChainLedger)),
      Engine.start {} (.ofGenesis (.genesis 0) 0 10) {} = .ok start ∧ Run start past e ∧
        e.Stranded ⟨1⟩ := by
  obtain ⟨start, past, e, started, run, checked⟩ := exists_run {}
    (ChainLedger.ofGenesis (.genesis 0) 0 10) {} caughtUpThenAhead
    (fun r => (r.2.peers[PeerId.mk 1]?).any fun p => !p.needFromPeer && !p.toFetch.isEmpty)
    (by decide +kernel)
  simp only [Option.any_eq_true, Bool.and_eq_true, Bool.not_eq_true', List.isEmpty_eq_false_iff]
    at checked
  obtain ⟨p, hp, idle, queued⟩ := checked
  exact ⟨start, e, past, started, run, p, hp, idle, queued⟩

/-- The second reply strands the queue, and it answers a summary that was sent idly. -/
theorem stranded_after_caught_up :
    ∃ (start e : Engine ChainLedger) (past : List (Moment ChainLedger)),
      Engine.start {} (.ofGenesis (.genesis 0) 0 10) {} = .ok start ∧ Run start past e ∧
        ∃ m ∈ session ⟨1⟩ past, m.Strands ⟨1⟩ ∧ ∃ s, m.before.AwaitsIdly ⟨1⟩ s ∧
          ∃ d ∈ past, .sent ⟨1⟩ (.summaryRequest s.ids) ∈ d.events ∧ d.after.AwaitsIdly ⟨1⟩ s := by
  obtain ⟨start, e, past, started, run, stranded⟩ := exists_stranded
  obtain ⟨-, caused, answers⟩ := stranded_iff_strands started run
  obtain ⟨m, since, strands⟩ := caused ⟨1⟩ stranded
  have mem : m ∈ past := (List.takeWhile_sublist _).subset since
  refine ⟨start, e, past, started, run, m, since, strands, ?_⟩
  obtain ⟨newer, older, rfl⟩ := List.append_of_mem mem
  obtain ⟨s, awaits, d, before, sent⟩ :=
    answers m older ⟨1⟩ (List.suffix_append newer _) strands
  have earlier : d ∈ older := (List.takeWhile_sublist _).subset before
  exact ⟨s, awaits, d, List.mem_append_right _ (List.mem_cons_of_mem _ earlier), sent⟩

/-- A queue may be stranded. -/
theorem queue_stranded :
    ¬ ∀ (config : Config) (ledger : ChainLedger) (clock : Clock) (start e : Engine ChainLedger)
      (past : List (Moment ChainLedger)) (id : PeerId) (p : Peer),
      Engine.start config ledger clock = .ok start → Run start past e →
        e.peers[id]? = some p → p.toFetch ≠ [] → p.needFromPeer = true := by
  intro always
  obtain ⟨start, e, past, started, run, p, hp, idle, queued⟩ := exists_stranded
  cases idle.symm.trans (always _ _ _ start e past ⟨1⟩ p started run hp queued)

end Engine

end BlockRelay
