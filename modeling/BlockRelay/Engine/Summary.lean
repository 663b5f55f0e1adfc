/-
# The exchange of summaries

A catch-up with a peer alternates between our summaries and its replies.  A summary
is sent only while none is outstanding, and a reply is accepted only while one is.
An illegal reply ends the session, and nothing else happens.
-/
import BlockRelay.Engine.Session
import BlockRelay.SummaryReply

namespace BlockRelay.Engine

variable {σ : Type} [Ledger σ]

/-! ## Asking -/

/-- Send a summary to a peer, and wait for its reply. -/
def sendSummary (e : Engine σ) (id : PeerId) (ids : List BlockId) : Engine σ :=
  (e.modifyPeer id fun p => p.await ids e.now).send id (.summaryRequest ids)

/-- Send the next summary to a peer, unless one is outstanding.  A peer for which no summary
can be made is on another chain, and is left. -/
def nextSummary (e : Engine σ) (id : PeerId) : Engine σ :=
  match e.peers[id]? with
  | none => e
  | some p =>
    if p.summary.isSome then e
    else
      match Ledger.sampleChain e.ledger p.bothHave p.toFetch with
      | .ok ids => e.sendSummary id ids
      | .error _ => e.disconnect id .forked

/-- Forget how far a catch-up with a peer has come. -/
def restart (e : Engine σ) (id : PeerId) : Engine σ :=
  e.modifyPeer id fun p => p.restart e.genesis

/-- Start a catch-up with a peer from the genesis block on. -/
def startCatchUp (e : Engine σ) (id : PeerId) : Engine σ :=
  if e.isRegistered id then (e.restart id).nextSummary id else e

/-- Start a catch-up with several peers, one after the other. -/
def startCatchUps (e : Engine σ) (ids : List PeerId) : Engine σ := ids.foldl startCatchUp e

/-- Send the next summary to several peers, one after the other. -/
def nextSummaries (e : Engine σ) (ids : List PeerId) : Engine σ := ids.foldl nextSummary e

/-- Begin a session with a peer. -/
def openSession (e : Engine σ) (id : PeerId) : Engine σ :=
  let e := { e with peers := e.peers.insert id (Peer.connected e.genesis e.now) }
  e.gaugePeers.record (.opened id)

omit [Ledger σ] in
/-- The records after a session begins. -/
theorem peers_openSession (e : Engine σ) (id other : PeerId) :
    (e.openSession id).peers[other]? =
      if other = id then some (Peer.connected e.genesis e.now) else e.peers[other]? := by
  change (e.peers.insert id _)[other]? = _
  rw [Std.TreeMap.getElem?_insert]
  simp only [Std.LawfulEqCmp.compare_eq_iff_eq, eq_comm (a := id)]

/-- Register a peer whose chain has a given height.  A peer that is ahead of us is caught up
with.  A peer that was registered before begins a new session. -/
def register (e : Engine σ) (id : PeerId) (height : UInt64) : Engine σ :=
  let e := (e.remove id none).openSession id
  if (Ledger.head e.ledger).number < height then e.startCatchUp id
  else e.modifyPeer id fun p => { p with phase := .caughtUp }

/-! ## Answering -/

/-- What a summary from a peer is answered with: the identities that it lacks. -/
def missingFor (e : Engine σ) (summary : List BlockId) : Checked (List BlockId) := do
  match ← Ledger.idsBeyond e.ledger summary with
  | .ok ids => return ids
  | .error _ => return []

/-- Whether an answer shows that the peer has all that we have: it is empty, or it is one
block that the peer named itself, or the genesis block. -/
def isComplete (summary ids : List BlockId) : Bool :=
  match ids with
  | [] => true
  | [id] => !summary.isEmpty && (id.isIn summary || id.number = 0)
  | _ => false

/-- How many blocks there are beyond an answer. -/
def remainingBeyond (head : BlockId) (ids : List BlockId) : UInt64 :=
  match ids.getLast? with
  | none => 0
  | some last => if last.number ≤ head.number then head.number - last.number else 0

/-- How many blocks an answer to a summary says are left: none if it is complete. -/
def remainingFor (head : BlockId) (summary ids : List BlockId) : UInt64 :=
  if isComplete summary ids then 0 else remainingBeyond head ids

/-- Send the answer to a summary, and note whether the peer still fetches our chain. -/
def sendAnswer (e : Engine σ) (id : PeerId) (summary ids : List BlockId) : Engine σ :=
  (e.modifyPeer id fun p => { p with needFromUs := !isComplete summary ids }).send id
    (.summaryReply ids (remainingFor (Ledger.head e.ledger) summary ids))

/-- Answer a summary.  A peer whose chain left ours below what can be revoked is left; a peer
that is ahead on our chain is caught up with. -/
def answerSummary (e : Engine σ) (id : PeerId) (summary : List BlockId) :
    Checked (Engine σ) := do
  let ids ← e.missingFor summary
  let revocable := summary.head?.map fun first => Ledger.canRewindTo e.ledger first.number
  let tipUnknown := summary.getLast?.any fun last => !Ledger.containsBlock e.ledger last
  match e.peers[id]? with
  | none => return e
  | some p =>
    if ids.isEmpty && revocable == some false then return e.disconnect id .syncFail
    else
      let e := e.sendAnswer id summary ids
      return if !p.needFromPeer && tipUnknown && revocable == some true then e.startCatchUp id
        else e

/-! ## Replies -/

/-- The facts about our chain that a reply is judged by. -/
def chainFacts (e : Engine σ) : ChainFacts :=
  let solid := Ledger.solidified e.ledger
  ⟨Ledger.head e.ledger, solid, (Ledger.timestamp? e.ledger solid).getD 0⟩

/-- Whether another peer is about to deliver the first block of a reply. -/
def frontElsewhere (e : Engine σ) (id : PeerId) (ids : List BlockId) : Bool :=
  ids.head?.any fun first =>
    e.peers.toList.any fun (other, p) => other ≠ id && p.toFetch.head?.any first.same

/-- End the catch-up with a peer.  Nothing left to fetch from anybody is reported. -/
def finishCatchUp (e : Engine σ) (id : PeerId) (p : Peer) : Checked (Engine σ) := do
  let e := { e with peers := e.peers.insert id p.endCatchUp }
  let unsynced ← e.maxUnsynced
  let e := { e with unsynced := unsynced }
  return if unsynced = 0 then e.notify 0 else e

/-- Keep the record of a peer that has accepted a reply.  Blocks are fetched if there are
enough of them, and a change of what is left to fetch is reported. -/
def takeUp (e : Engine σ) (id : PeerId) (p : Peer) (enough : Bool) : Checked (Engine σ) := do
  let e := { e with peers := e.peers.insert id p, issueDue := e.issueDue || enough }
  let unsynced ← e.maxUnsynced
  return if e.unsynced = unsynced then e else { e with unsynced := unsynced }.notify unsynced

/-- The end of a catch-up changes the record of the peer, and may be reported. -/
theorem finishCatchUp_cases {e e' : Engine σ} {id : PeerId} {p : Peer}
    (done : e.finishCatchUp id p = .ok e') :
    ∃ unsynced,
      let e₁ := { e with peers := e.peers.insert id p.endCatchUp, unsynced := unsynced }
      e' = e₁ ∨ ∃ n, e' = e₁.notify n := by
  obtain ⟨unsynced, -, done⟩ := Checked.bind_eq_ok_iff.1 done
  refine ⟨unsynced, ?_⟩
  split at done <;> cases done
  · exact .inr ⟨_, rfl⟩
  · exact .inl rfl

/-- Going on with a catch-up changes the record of the peer, and may be reported. -/
theorem takeUp_cases {e e' : Engine σ} {id : PeerId} {p : Peer} {enough : Bool}
    (done : e.takeUp id p enough = .ok e') :
    ∃ unsynced issueDue,
      let e₁ := { e with
        peers := e.peers.insert id p
        unsynced := unsynced
        issueDue := issueDue }
      e' = e₁ ∨ ∃ n, e' = e₁.notify n := by
  obtain ⟨unsynced, -, done⟩ := Checked.bind_eq_ok_iff.1 done
  split at done <;> cases done
  · exact ⟨e.unsynced, _, .inl rfl⟩
  · exact ⟨unsynced, _, .inr ⟨_, rfl⟩⟩

/-- The records after the end of a catch-up. -/
theorem peers_finishCatchUp {e e' : Engine σ} {id : PeerId} {p : Peer}
    (done : e.finishCatchUp id p = .ok e') : e'.peers = e.peers.insert id p.endCatchUp := by
  obtain ⟨_, rfl | ⟨_, rfl⟩⟩ := finishCatchUp_cases done <;> rfl

/-- The records after a catch-up went on. -/
theorem peers_takeUp {e e' : Engine σ} {id : PeerId} {p : Peer} {enough : Bool}
    (done : e.takeUp id p enough = .ok e') : e'.peers = e.peers.insert id p := by
  obtain ⟨_, _, rfl | ⟨_, rfl⟩⟩ := takeUp_cases done <;> rfl

/-- Go on with the catch-up with a peer: fetch blocks if there are enough of them, and ask for
more of them otherwise. -/
def resumeCatchUp (e : Engine σ) (id : PeerId) (p : Peer) (ids : List (BlockId × Bool))
    (remaining : UInt64) : Checked (Engine σ) := do
  let elsewhere := e.frontElsewhere id (ids.map (·.1))
  let p := p.continueCatchUp ids remaining elsewhere e.recent
  let enough := if remaining = 0 then !p.toFetch.isEmpty
    else e.config.sync.batch < p.toFetch.length
  let e ← e.takeUp id p enough
  return if enough then e else e.nextSummary id

/-- Receive a reply to a summary.  An unsolicited or illegal reply ends the session. -/
def receiveReply (e : Engine σ) (id : PeerId) (ids : List BlockId) (remaining : UInt64) :
    Checked (Engine σ) := do
  match e.peers[id]? with
  | none => return e
  | some p =>
    match p.summary with
    | none => return e.disconnect id .badProtocol
    | some s =>
      match ← e.chainFacts.judge e.config.net e.clock.wallTime s.ids ids remaining with
      | .error _ => return e.disconnect id .badProtocol
      | .ok () =>
        let stored := ids.map fun b => (b, Ledger.containsBlock e.ledger b)
        let p := { p with summary := none }
        if remaining = 0 && p.nothingNew stored then e.finishCatchUp id p
        else e.resumeCatchUp id p stored remaining

end BlockRelay.Engine
