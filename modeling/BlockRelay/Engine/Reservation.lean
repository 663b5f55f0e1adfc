/-
# Reserving candidates

Every candidate is reserved on one of the peers that announced its hash: on the one
with the fewest reservations, as long as it is not busy and has room for more.  Each
peer on which something was reserved gets one request.
-/
import BlockRelay.Engine.Session

namespace BlockRelay.Engine

variable {σ : Type}

/-- Whether a candidate may be reserved on a peer. -/
def canServe (cap : Nat) (hash : Hash) (p : Peer) : Bool :=
  !p.isBusy && p.advertised.contains hash && p.reserved.size < cap

/-- The less loaded of two peers, the first one if they are equally loaded. -/
def lessLoaded (best : Option (PeerId × Nat)) (id : PeerId) (load : Nat) : Option (PeerId × Nat) :=
  match best with
  | none => some (id, load)
  | some (other, least) => if load < least then some (id, load) else some (other, least)

/-- The less loaded of two peers is one of them. -/
theorem lessLoaded_cases (best : Option (PeerId × Nat)) (id : PeerId) (load : Nat) :
    lessLoaded best id load = some (id, load) ∨ lessLoaded best id load = best := by
  unfold lessLoaded
  split
  · exact .inl rfl
  · split
    · exact .inl rfl
    · exact .inr rfl

/-- The peer on which a candidate is reserved. -/
def chooseServer (e : Engine σ) (hash : Hash) : Option PeerId :=
  let cap := e.config.net.maxReserved
  let best := e.peers.toList.foldl (fun best (id, p) =>
    if canServe cap hash p then lessLoaded best id p.reserved.size else best) none
  best.map (·.1)

/-- The peer on which a candidate is reserved can serve it. -/
theorem canServe_of_chooseServer {e : Engine σ} {hash : Hash} {id : PeerId}
    (h : e.chooseServer hash = some id) :
    ∃ p, e.peers[id]? = some p ∧ canServe e.config.net.maxReserved hash p = true := by
  suffices ∀ (list : List (PeerId × Peer)) (best : Option (PeerId × Nat)),
      (list.foldl (fun best (id, p) =>
          if canServe e.config.net.maxReserved hash p then lessLoaded best id p.reserved.size
          else best) best).map (·.1) = some id →
        best.map (·.1) = some id ∨
          ∃ p, (id, p) ∈ list ∧ canServe e.config.net.maxReserved hash p = true by
    rcases this _ none h with h | ⟨p, mem, serves⟩
    · cases h
    · exact ⟨p, Std.TreeMap.mem_toList_iff_getElem?_eq_some.1 mem, serves⟩
  intro list
  induction list with
  | nil => exact fun _ h => .inl h
  | cons entry rest ih =>
    obtain ⟨other, p⟩ := entry
    intro best h
    rcases ih _ h with h | ⟨q, mem, serves⟩
    · dsimp only at h
      split at h
      next serves =>
        rcases lessLoaded_cases best other p.reserved.size with eq | eq
        · rw [eq] at h
          cases h
          exact .inr ⟨p, List.mem_cons_self .., serves⟩
        · exact .inl (eq ▸ h)
      next => exact .inl h
    · exact .inr ⟨q, List.mem_cons_of_mem _ mem, serves⟩

/-- Reserve one candidate, if a peer can serve it.  The reservations so far are in `made`. -/
def reserveOne (acc : List (PeerId × Item) × Engine σ) (c : Candidate) :
    List (PeerId × Item) × Engine σ :=
  let (made, e) := acc
  match e.chooseServer c.item.hash with
  | none => (made, e)
  | some id =>
    let e := { e with candidates := e.candidates.erase c.item.hash }
    (made ++ [(id, c.item)], e.modifyPeer id fun p => p.reserve c.item e.now)

/-- A candidate stays where it is, or moves to the reservations of a registered peer that can
serve it. -/
theorem reserveOne_cases (made : List (PeerId × Item)) (e : Engine σ) (c : Candidate) :
    reserveOne (made, e) c = (made, e) ∨
      ∃ id p, e.peers[id]? = some p ∧ canServe e.config.net.maxReserved c.item.hash p = true ∧
        reserveOne (made, e) c =
          (made ++ [(id, c.item)],
            { e with candidates := e.candidates.erase c.item.hash }.modifyPeer id fun p =>
              p.reserve c.item e.now) := by
  cases chosen : e.chooseServer c.item.hash with
  | none => exact .inl (by simp only [reserveOne, chosen])
  | some id =>
    obtain ⟨p, hp, serves⟩ := canServe_of_chooseServer chosen
    refine .inr ⟨id, p, hp, serves, ?_⟩
    simp only [reserveOne, chosen]
    rfl

/-- Send each peer one request for what was reserved on it. -/
def requestReserved (e : Engine σ) (made : List (PeerId × Item)) : Engine σ :=
  e.peers.keys.foldl (fun e id =>
    match (made.filter (·.1 = id)).map (·.2) with
    | [] => e
    | items => e.send id (.fetch (Item.inDeliveryOrder items))) e

/-- Reserve as many candidates as possible, and list the reservations in the order in which
they were made. -/
def reserveAll (e : Engine σ) : List (PeerId × Item) × Engine σ :=
  e.candidates.inFetchOrder.foldl reserveOne ([], e)

/-- Reserving candidates changes the candidates and the records of the peers. -/
theorem reserveAll_eq (e : Engine σ) :
    ∃ peers candidates, e.reserveAll.2 = { e with peers := peers, candidates := candidates } := by
  suffices ∀ (order : List Candidate) (made : List (PeerId × Item)) (e : Engine σ),
      ∃ peers candidates, (order.foldl reserveOne (made, e)).2 =
        { e with peers := peers, candidates := candidates } from this _ [] e
  intro order
  induction order with
  | nil => exact fun _ e => ⟨e.peers, e.candidates, rfl⟩
  | cons c rest ih =>
    intro made e
    rw [List.foldl_cons]
    rcases reserveOne_cases made e c with eq | ⟨id, p, -, -, eq⟩
    · rw [eq]
      exact ih made e
    · rw [eq]
      exact ih _ _

/-- Reserving candidates changes nothing of a record but its reservations. -/
theorem view_reserveAll {α : Type} {f : Peer → α}
    (keeps : ∀ p i now, f (Peer.reserve p i now) = f p) (e : Engine σ) (id : PeerId) :
    e.reserveAll.2.view f id = e.view f id := by
  suffices ∀ (order : List Candidate) (made : List (PeerId × Item)) (e : Engine σ),
      (order.foldl reserveOne (made, e)).2.view f id = e.view f id from this _ [] e
  intro order
  induction order with
  | nil => exact fun _ _ => rfl
  | cons c rest ih =>
    intro made e
    rw [List.foldl_cons]
    rcases reserveOne_cases made e c with eq | ⟨other, p, -, -, eq⟩
    · rw [eq]
      exact ih made e
    · rw [eq, ih]
      exact view_modify rfl (fun p => keeps p c.item e.now) id

/-- Reserve as many candidates as possible, after dropping those that were not announced for
too long.  The answer is the number of reservations. -/
def reserveCandidates (e : Engine σ) : Checked (Nat × Engine σ) := do
  if e.candidates.isEmpty || e.peers.values.all Peer.isBusy then return (0, e)
  else
    let maxAge ← e.config.net.fetchableFor
    let e := { e with candidates := (e.candidates.dropStale e.now maxAge).2 }
    let (made, e) := e.reserveAll
    return (made.length, e.requestReserved made)

/-- What is requested from a peer after the reservations `made`. -/
def requestFor (made : List (PeerId × Item)) (id : PeerId) : List Event :=
  match (made.filter (·.1 = id)).map (·.2) with
  | [] => []
  | items => [.sent id (.fetch (Item.inDeliveryOrder items))]

/-- Requesting what was reserved only queues one message for each peer. -/
theorem requestReserved_eq (e : Engine σ) (made : List (PeerId × Item)) :
    e.requestReserved made =
      { e with journal := e.journal ++ e.peers.keys.flatMap (requestFor made) } := by
  have one (e : Engine σ) (id : PeerId) :
      (match (made.filter (·.1 = id)).map (·.2) with
        | [] => e
        | items => e.send id (.fetch (Item.inDeliveryOrder items))) =
      { e with journal := e.journal ++ requestFor made id } := by
    unfold requestFor
    split <;> simp [send, record]
  unfold requestReserved
  simp only [one]
  generalize e.peers.keys = keys
  induction keys generalizing e with
  | nil => simp
  | cons id rest ih =>
    rw [List.foldl_cons, ih]
    simp

end BlockRelay.Engine
