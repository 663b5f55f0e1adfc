/-
# Replies that are dismissed

A reply is dismissed if no summary of the peer is outstanding, or if the judgement refuses it
(`Engine.Dismisses`).  Until then the reply has been read only.  So the whole effect of a dismissed
reply is that the peer is left for breaking the protocol, which is the effect of a departure
(`dismissed_iff`).

No other reply has this effect: after a legal one a peer may be left as well, when no summary can be
made any more, but it is told another reason (`appends_receiveReply`).
-/
import BlockRelay.Proofs.Deliveries
import BlockRelay.Proofs.Departures

namespace BlockRelay

namespace Engine

variable {σ : Type} [Ledger σ] {e e' : Engine σ} {id : PeerId} {p : Peer} {ids : List BlockId}
  {remaining : UInt64}

/-- Whether a reply of a peer is unsolicited or refused by the judgement. -/
def Dismisses (e : Engine σ) (p : Peer) (ids : List BlockId) (remaining : UInt64) : Prop :=
  p.summary = none ∨ ∃ s r, p.summary = some s ∧
    e.chainFacts.judge e.config.net e.clock.wallTime s.ids ids remaining = .ok (.error r)

/-- A dismissed reply ends the session. -/
theorem receiveReply_of_dismisses (hp : e.peers[id]? = some p)
    (dismissed : e.Dismisses p ids remaining) :
    e.receiveReply id ids remaining = .ok (e.disconnect id .badProtocol) := by
  unfold receiveReply
  rcases dismissed with settled | ⟨s, r, asked, judged⟩
  · simp only [hp, settled]
    rfl
  · simp only [hp, asked, judged]
    rfl

/-- A step that neither leaves a peer nor refuses a block gives nobody a reason for leaving it. -/
theorem Step.blameless {d : Deed} (h : Step d e e') (stays : ∀ id, d ≠ .left id)
    (accepts : d ≠ .refused) (id : PeerId) (r : Reason) :
    Appends (· ≠ .sent id (.disconnect r)) e e' := by
  refine h.appends.mono fun ev shows told => ?_
  subst told
  exact shows.elim (stays id) accepts

/-- A legal reply does not end the session for breaking the protocol. -/
theorem appends_receiveReply {s : SummaryRequest} (hp : e.peers[id]? = some p)
    (asked : p.summary = some s)
    (legal : e.chainFacts.judge e.config.net e.clock.wallTime s.ids ids remaining = .ok (.ok ()))
    (done : e.receiveReply id ids remaining = .ok e') :
    Appends (· ≠ .sent id (.disconnect .badProtocol)) e e' := by
  rcases receiveReply_of_legal hp asked legal done with
    ⟨-, nothing, done⟩ | ⟨elsewhere, enough, e₁, taken, next⟩
  · exact (Step.finishCatchUp hp asked legal nothing done).blameless nofun nofun id _
  · have taken := (Step.takeUp hp asked legal taken).blameless nofun nofun id .badProtocol
    rcases next with rfl | rfl
    · exact taken
    · exact taken.trans (appends_nextSummary ..)

/-- **Dismissed replies.**  In every state a reply of a registered peer has the effect of leaving
the peer for breaking the protocol exactly if it is unsolicited or refused by the judgement.  Then
this is its whole effect: the ledger is as it was and has not been told anything, and so is what is
left to fetch, nobody but the peer is sent anything, and the records of all other peers are as they
were. -/
theorem dismissed_iff (hp : e.peers[id]? = some p) (ids : List BlockId) (remaining : UInt64) :
    (e.Dismisses p ids remaining ↔
      e.perform (.receive id (.summaryReply ids remaining)) =
        e.perform (.disconnect id .badProtocol)) ∧
      (e.Dismisses p ids remaining →
        ∃ e', e.perform (.receive id (.summaryReply ids remaining)) = .ok (.done, e') ∧
          Departure id p .badProtocol e e' ∧ e'.ledger = e.ledger ∧
            e'.unsynced = e.unsynced) := by
  rw [perform_reply hp]
  refine ⟨⟨fun dismissed => ?_, fun same => ?_⟩, fun dismissed => ?_⟩
  · rw [receiveReply_of_dismisses hp dismissed]
    rfl
  · -- the reply was received, so that it was accepted or dismissed
    have done : e.receiveReply id ids remaining = .ok (e.disconnect id .badProtocol) := by
      cases received : e.receiveReply id ids remaining with
      | error o =>
        rw [received] at same
        cases same
      | ok e' =>
        rw [received] at same
        cases same
        rfl
    have left := ((departure_of_disconnect hp .badProtocol).1).journal
    cases asked : p.summary with
    | none => exact .inl asked
    | some s =>
      have judged := done
      simp only [receiveReply, hp, asked] at judged
      obtain ⟨verdict, judged, -⟩ := Checked.bind_eq_ok_iff.1 judged
      cases verdict with
      | error r => exact .inr ⟨s, r, asked, judged⟩
      | ok => exact absurd left (appends_receiveReply hp asked judged done).ne_farewell
  · rw [receiveReply_of_dismisses hp dismissed]
    have departure := (departure_of_disconnect hp .badProtocol).1
    exact ⟨_, rfl, departure, congrArg (·.ledger) departure.rest,
      congrArg (·.unsynced) departure.rest⟩

/-- Whether a peer answers the outstanding summary with a reply that is refused. -/
def refusesReply (e : Engine σ) (id : PeerId) (ids : List BlockId) (remaining : UInt64) : Bool :=
  (e.peers[id]?).any fun p => p.summary.any fun s =>
    match e.chainFacts.judge e.config.net e.clock.wallTime s.ids ids remaining with
    | .ok (.error _) => true
    | _ => false

/-- The first summary is answered with a gap behind the first block. -/
theorem dismissed_gap :
    ∃ (start : Engine ChainLedger) (past : List (Moment ChainLedger)) (e : Engine ChainLedger)
      (p : Peer), Engine.start {} (.ofGenesis (.genesis 0) 0 10) {} = .ok start ∧
        Run start past e ∧ e.peers[(⟨1⟩ : PeerId)]? = some p ∧
          e.Dismisses p [(Block.bare 0).id, (Block.bare 2).id] 0 ∧
            e.perform (.receive ⟨1⟩ (.summaryReply [(Block.bare 0).id, (Block.bare 2).id] 0)) =
              e.perform (.disconnect ⟨1⟩ .badProtocol) := by
  obtain ⟨start, past, e, started, run, checked⟩ := exists_run {}
    (ChainLedger.ofGenesis (.genesis 0) 0 10) {} [.register ⟨1⟩ 1]
    (fun r => r.2.refusesReply ⟨1⟩ [(Block.bare 0).id, (Block.bare 2).id] 0) (by decide +kernel)
  obtain ⟨p, hp, checked⟩ := (Option.any_eq_true _ _).1 checked
  obtain ⟨s, asked, checked⟩ := (Option.any_eq_true _ _).1 checked
  have dismissed : e.Dismisses p [(Block.bare 0).id, (Block.bare 2).id] 0 := by
    split at checked
    next r judged => exact .inr ⟨s, r, asked, judged⟩
    next => cases checked
  exact ⟨start, past, e, p, started, run, hp, dismissed, (dismissed_iff hp _ _).1.1 dismissed⟩

end Engine

end BlockRelay
