/-
# Operations

Everything that can be done to an engine from outside, as one type.  `Engine.perform`
carries an operation out.
-/
import BlockRelay.Engine.Application
import BlockRelay.Engine.Delivery
import BlockRelay.Engine.Issue
import BlockRelay.Engine.Reservation
import BlockRelay.Engine.Serving
import BlockRelay.Engine.Upkeep

namespace BlockRelay

namespace Engine

variable {σ : Type}

/-- Receive a message from a peer.  A peer that is not registered is not listened to. -/
def receive [Ledger σ] (e : Engine σ) (id : PeerId) (m : Message) : Checked (Engine σ) :=
  if e.isRegistered id then
    match m with
    | .announce items => e.receiveAnnouncement id items
    | .fetch items => .ok (e.serve id items)
    | .notFound => .ok e
    | .block b => e.receiveBlock id b
    | .transaction t => .ok (e.receiveTransaction id t)
    | .transactions ts => .ok (e.receiveTransactions id ts)
    | .summaryRequest known => e.answerSummary id known
    | .summaryReply ids remaining => e.receiveReply id ids remaining
    | .disconnect _ => .ok (e.lost id)
  else .ok e

end Engine

/-- Something that can be done to an engine. -/
inductive Operation where
  /-- Register a peer whose chain has a given height. -/
  | register (peer : PeerId) (height : UInt64)
  /-- Receive a message from a peer. -/
  | receive (peer : PeerId) (message : Message)
  /-- Queue an object for announcement. -/
  | broadcast (message : Message)
  /-- Leave a peer for a reason. -/
  | disconnect (peer : PeerId) (reason : Reason)
  /-- The connection to a peer was lost. -/
  | lost (peer : PeerId)
  /-- Leave every peer. -/
  | close
  /-- Start a catch-up with a peer. -/
  | startCatchUp (peer : PeerId)
  /-- Send a peer the next summary. -/
  | nextSummary (peer : PeerId)
  /-- Announce the spread set. -/
  | announceSpread
  /-- Reserve candidates. -/
  | reserveCandidates
  /-- Ask for blocks of a catch-up. -/
  | issueRequests
  /-- Ask for blocks of a catch-up if that is due. -/
  | issueTick
  /-- Apply waiting blocks. -/
  | applyWaiting
  /-- Apply waiting blocks if that is due. -/
  | applyTick
  /-- Leave peers that have not answered in time. -/
  | leaveSilent
  /-- Forget what is out of date. -/
  | forgetOutdated
  /-- Move the flood window on by a number of slots. -/
  | advanceFlood (slots : Nat)
  /-- Let time pass. -/
  | advanceClock (ms : Nat)
  /-- Bring the gauges up to date. -/
  | refreshGauges
  deriving DecidableEq, Repr

/-- What an operation answers. -/
inductive Outcome where
  | done
  | count (n : Nat)
  | left (peers : List (PeerId × Reason))
  deriving DecidableEq, Repr

namespace Engine

variable {σ : Type} [Ledger σ]

/-- Carry out an operation. -/
def perform (e : Engine σ) : Operation → Checked (Outcome × Engine σ)
  | .register id height => .ok (.done, e.register id height)
  | .receive id m => do return (.done, ← e.receive id m)
  | .broadcast m => .ok (.done, e.broadcast m)
  | .disconnect id r => .ok (.done, e.disconnect id r)
  | .lost id => .ok (.done, e.lost id)
  | .close => .ok (.done, e.close)
  | .startCatchUp id => .ok (.done, e.startCatchUp id)
  | .nextSummary id => .ok (.done, e.nextSummary id)
  | .announceSpread => .ok (counted e.announceSpread)
  | .reserveCandidates => e.reserveCandidates.map counted
  | .issueRequests => .ok (counted e.issueRequests)
  | .issueTick => .ok (counted e.issueTick)
  | .applyWaiting => e.applyWaiting.map counted
  | .applyTick => e.applyTick.map counted
  | .leaveSilent =>
    let (left, e) := e.leaveSilent
    .ok (.left left, e)
  | .forgetOutdated => e.forgetOutdated.map counted
  | .advanceFlood n => .ok (.done, n.repeat advanceFlood e)
  | .advanceClock ms => .ok (.done, e.advanceClock ms)
  | .refreshGauges => do return (.done, ← e.refreshGauges)
where
  /-- An answer that is a number. -/
  counted (r : Nat × Engine σ) : Outcome × Engine σ := (.count r.1, r.2)

omit [Ledger σ] in
/-- An operation that answers with a number leaves the state that comes with it. -/
theorem eq_ok_of_counted {r : Checked (Nat × Engine σ)} {e : Engine σ} {answer : Outcome}
    (done : r.map perform.counted = .ok (answer, e)) : ∃ n, r = .ok (n, e) := by
  cases r with
  | error => cases done
  | ok r =>
    cases done
    exact ⟨r.1, rfl⟩

/-- A message is received as a whole. -/
theorem receive_of_perform {e e' : Engine σ} {id : PeerId} {m : Message} {answer : Outcome}
    (done : e.perform (.receive id m) = .ok (answer, e')) : e.receive id m = .ok e' := by
  obtain ⟨e₁, received, done⟩ := Checked.bind_eq_ok_iff.1 done
  cases done
  exact received

/-- Nothing is heard from a peer that is not registered. -/
theorem isRegistered_of_receive {e e' : Engine σ} {id : PeerId} {m : Message}
    (done : e.receive id m = .ok e') (known : e'.isRegistered id = true) :
    e.isRegistered id = true := by
  unfold receive at done
  split at done
  next known => exact known
  next =>
    cases done
    exact known

end Engine

end BlockRelay
