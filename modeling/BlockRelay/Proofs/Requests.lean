/-
# What is asked of whom

The objects that a peer was asked for and that it has not delivered are in two records,
`Peer.reserved` and `Peer.blocksAsked`.  Most steps leave both records of every peer alone,
and the candidates as well (`Step.sameRequests`).  The others are few: sessions begin and
end, candidates come and go, objects are asked for, and objects are delivered.
-/
import BlockRelay.Proofs.Step

namespace BlockRelay

namespace Peer

/-- The objects that a peer was asked for and that it has not delivered. -/
def requests (p : Peer) : Std.TreeMap Item Nat × Std.TreeMap Hash BlockRequest :=
  (p.reserved, p.blocksAsked)

/-- Announcing items to a peer asks it for nothing. -/
theorem requests_announceAll (p : Peer) (items : List Item) (now : Nat) :
    (p.announceAll items now).requests = p.requests := by
  rw [announceAll_eq]
  rfl

/-- Joining a reply asks the peer for nothing. -/
theorem requests_continueCatchUp (p : Peer) (ids : List (BlockId × Bool)) (remaining : UInt64)
    (elsewhere : Bool) (recent : RecentBlocks) :
    (p.continueCatchUp ids remaining elsewhere recent).requests = p.requests := by
  obtain ⟨_, _, _, _, eq⟩ := p.continueCatchUp_eq ids remaining elsewhere recent
  rw [eq]
  rfl

/-- Taking a block from the front of the queue of a peer asks it for nothing. -/
theorem requests_takeFront (hash : Hash) (p : Peer) :
    (Engine.takeFront hash p).requests = p.requests := by
  obtain ⟨_, _, -, eq⟩ := Engine.takeFront_eq hash p
  rw [eq]
  rfl

/-- Settling a block for a peer asks it for nothing. -/
theorem requests_settlePeer (id : BlockId) (p : Peer) :
    (Engine.settlePeer id p).requests = p.requests := by
  obtain ⟨_, _, eq⟩ := Engine.settlePeer_eq id p
  rw [eq]
  rfl

end Peer

namespace Engine

variable {σ : Type}

/-! ## Requests stay the same -/

/-- What a registered peer was asked for and has not delivered. -/
def requestsOf (e : Engine σ) (id : PeerId) :
    Option (Std.TreeMap Item Nat × Std.TreeMap Hash BlockRequest) :=
  e.view Peer.requests id

/-- What a registered peer was asked for is in its record. -/
theorem requestsOf_eq {e : Engine σ} {id : PeerId} {p : Peer} (hp : e.peers[id]? = some p) :
    e.requestsOf id = some p.requests := by
  rw [requestsOf, view, hp, Option.map_some]

/-- The candidates are the same, and so is what each peer was asked for. -/
structure SameRequests (e e' : Engine σ) : Prop where
  candidates : e'.candidates = e.candidates
  requests (id : PeerId) : e'.requestsOf id = e.requestsOf id

namespace SameRequests

variable {e e' e₁ e₂ : Engine σ}

/-- Nothing changes in two changes of which neither changes anything. -/
theorem trans (h : SameRequests e e₁) (h' : SameRequests e₁ e₂) : SameRequests e e₂ :=
  ⟨h'.candidates.trans h.candidates, fun id => (h'.requests id).trans (h.requests id)⟩

/-- A peer that is registered was registered before, and it was asked for the same. -/
theorem record (same : SameRequests e e') {id : PeerId} {p' : Peer}
    (hp' : e'.peers[id]? = some p') : ∃ p, e.peers[id]? = some p ∧ p.requests = p'.requests := by
  have shown := requestsOf_eq hp'
  rw [same.requests] at shown
  exact Option.map_eq_some_iff.1 shown

/-- With the same peers and the same candidates the requests are the same. -/
theorem ofEq (candidates : e'.candidates = e.candidates) (peers : e'.peers = e.peers) :
    SameRequests e e' :=
  ⟨candidates, fun id => view_congr (by rw [peers])⟩

/-- Changing a record without regard to its requests. -/
theorem modify {id : PeerId} {f : Peer → Peer} (candidates : e'.candidates = e.candidates)
    (peers : e'.peers = e.peers.modify id f) (keeps : ∀ p, (f p).requests = p.requests) :
    SameRequests e e' :=
  ⟨candidates, view_modify peers keeps⟩

/-- Changing every record without regard to its requests. -/
theorem map {f : PeerId → Peer → Peer} (candidates : e'.candidates = e.candidates)
    (peers : e'.peers = e.peers.map f) (keeps : ∀ id p, (f id p).requests = p.requests) :
    SameRequests e e' :=
  ⟨candidates, view_map peers keeps⟩

/-- Replacing a record by one with the same requests. -/
theorem insert {id : PeerId} {p q : Peer} (hp : e.peers[id]? = some p)
    (candidates : e'.candidates = e.candidates) (peers : e'.peers = e.peers.insert id q)
    (keeps : q.requests = p.requests) : SameRequests e e' :=
  ⟨candidates, view_insert hp peers keeps⟩

end SameRequests

end Engine

/-- The deeds that leave every request alone. -/
def Deed.KeepsRequests : Deed → Prop
  | .restarted _ | .summarized _ | .finished _ | .joined .. | .settled | .queued _
  | .rested | .forgot | .internal => True
  | _ => False

namespace Engine

variable {σ : Type} [Ledger σ]

/-- Taking up the block that is next in line leaves the requests alone. -/
theorem SameRequests.submitFetched {e e' : Engine σ} {hash : Hash} {b : Block}
    {r : Option Refusal} (done : (e.takeNext hash).submitFetched b = .ok (r, e')) :
    SameRequests e e' := by
  have taken : SameRequests e (e.takeNext hash) :=
    .map rfl rfl fun _ => Peer.requests_takeFront hash
  refine taken.trans ?_
  rcases submitFetched_cases done with ⟨-, -, rfl⟩ | ⟨result, ledger, -, result_eq⟩
  · exact .map rfl rfl fun _ => Peer.requests_settlePeer b.id
  · cases result with
    | ok =>
      obtain ⟨-, rfl⟩ := result_eq
      exact .map rfl rfl fun _ => Peer.requests_settlePeer b.id
    | error =>
      obtain ⟨-, quarantine, rfl⟩ := result_eq
      exact .ofEq rfl rfl

/-- **Most steps leave the requests alone.** -/
theorem Step.sameRequests {d : Deed} {e e' : Engine σ} (h : Step d e e')
    (keeps : d.KeepsRequests) : SameRequests e e' := by
  cases h with
  | openSession | remove | takeIn | dropStale | reserve | arrive | submitAnnounced
  | submitTransaction | requestBlocks | refuse => exact keeps.elim
  | welcome | restart | sendSummary | sendAnswer => exact .modify rfl rfl fun _ => rfl
  | finishCatchUp hp _ _ _ done =>
    obtain ⟨_, rfl | ⟨_, rfl⟩⟩ := finishCatchUp_cases done <;> exact .insert hp rfl rfl rfl
  | takeUp hp _ _ done =>
    obtain ⟨_, _, rfl | ⟨_, rfl⟩⟩ := takeUp_cases done <;>
      exact .insert hp rfl rfl (Peer.requests_continueCatchUp ..)
  | announceSpread =>
    obtain ⟨news, eq⟩ := announceSpread_eq e
    rw [eq]
    exact .map rfl rfl fun _ p => p.requests_announceAll _ _
  | @serve _ id p items =>
    obtain ⟨_, _, _, _, -, eq | eq⟩ := serve_eq e id items
    · rw [eq]
      exact .ofEq rfl rfl
    · rw [eq]
      exact .modify rfl rfl fun _ => rfl
  | settle _ _ done => exact .submitFetched done
  | forgetOutdated done =>
    obtain ⟨_, _, _, _, _, rfl⟩ := forgetOutdated_eq done
    exact .map rfl rfl fun _ _ => rfl
  | broadcast e m => cases m <;> exact .ofEq rfl rfl
  | measure | due | rest | absorb | suspend | dropOrphan | advanceFlood | advanceClock =>
    exact .ofEq rfl rfl

/-! ## Deliveries -/

/-- An object is taken from a peer, whose record is `q` after that.  Candidates may disappear. -/
structure TakesFrom (id : PeerId) (q : Peer) (e e' : Engine σ) : Prop where
  candidates : e'.candidates.items.Sublist e.candidates.items
  requests (other : PeerId) :
    e'.requestsOf other = if other = id then some q.requests else e.requestsOf other

omit [Ledger σ] in
/-- A record is replaced, and then nothing changes that concerns requests. -/
theorem TakesFrom.of_insert {id : PeerId} {q : Peer} {e e' : Engine σ}
    (candidates : e'.candidates.items.Sublist e.candidates.items)
    (requests : ∀ other, e'.requestsOf other =
      { e with peers := e.peers.insert id q }.requestsOf other) : TakesFrom id q e e' :=
  ⟨candidates, fun other => (requests other).trans (view_of_insert rfl other)⟩

/-- A block is taken only from a peer that was asked for it. -/
theorem Step.tookBlock {e e' : Engine σ} {id : PeerId} {b : Block}
    (h : Step (.tookBlock id b) e e') :
    ∃ p, e.peers[id]? = some p ∧
      (p.blocksAsked.contains b.id.hash = true ∨ p.reserved.contains b.id.item = true) ∧
      TakesFrom id (p.takeDelivery b.id) e e' := by
  cases h with
  | arrive hp asked => exact ⟨_, hp, .inl asked, .of_insert (.refl _) fun _ => rfl⟩
  | submitAnnounced hp _ reserved done =>
    refine ⟨_, hp, .inr reserved, ?_⟩
    rcases submitAnnounced_cases done with ⟨-, -, rfl⟩ | ⟨result, ledger, -, result_eq⟩
    · exact .of_insert (.refl _) fun _ => rfl
    · cases result with
      | ok transactions =>
        obtain ⟨-, rfl⟩ := result_eq
        refine .of_insert (CandidateQueue.items_foldl_erase_sublist ..) fun other => ?_
        refine view_map (e := { e with peers := e.peers.insert id _ }) rfl (fun _ p => ?_) other
        split <;> rfl
      | error error =>
        obtain ⟨-, quarantine, rfl⟩ := result_eq
        exact .of_insert (.refl _) fun _ => rfl

/-- A transaction is taken only from a peer that was asked for it. -/
theorem Step.tookTransaction {e e' : Engine σ} {id : PeerId} {t : Transaction}
    (h : Step (.tookTransaction id t) e e') :
    ∃ p, e.peers[id]? = some p ∧ p.reserved.contains t.item = true ∧
      TakesFrom id { p with reserved := p.reserved.erase t.item } e e' := by
  cases h with
  | @submitTransaction _ _ p _ hp reserved =>
    refine ⟨p, hp, reserved, ?_⟩
    have modified (other : PeerId) :
        (e.modifyPeer id fun p => { p with reserved := p.reserved.erase t.item }).requestsOf
            other =
          if other = id then some { p with reserved := p.reserved.erase t.item }.requests
          else e.requestsOf other :=
      view_of_modify (g := fun p => { p with reserved := p.reserved.erase t.item }) hp rfl other
    rcases submitTransaction_cases (e.modifyPeer id fun p =>
        { p with reserved := p.reserved.erase t.item }) t with eq | ⟨_, _, _, _, eq⟩
    · rw [eq]
      exact ⟨.refl _, modified⟩
    · rw [eq]
      exact ⟨.refl _, modified⟩

end Engine

end BlockRelay
