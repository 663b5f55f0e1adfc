/-
# Announcements

Peers announce hashes, and we announce what we accept.  An announcement that we
receive is taken in as a whole or not at all: not while either side is catching up,
and not with transactions in it while they come too thick.

We announce an object to every peer from which we have not heard of it and to which
we have not announced it before.
-/
import BlockRelay.Engine.Session

namespace BlockRelay.Engine

variable {σ : Type}

/-! ## Receiving -/

/-- The announced items that may be news: neither cached nor a recently accepted block. -/
def freshItems (e : Engine σ) (items : List Item) : List Item :=
  items.filter fun i =>
    !(items.any fun j => j.hash = i.hash && e.isCached j) &&
      !(i.kind = .block && e.recent.contains (BlockId.ofHash i.hash))

/-- Offer an item as a candidate.  New transactions count against the flood. -/
def offer (e : Engine σ) (i : Item) : Engine σ :=
  let (isNew, candidates) := e.candidates.offer i e.now
  { e with
    candidates := candidates
    flood := if isNew && i.kind = .transaction then e.flood.increase else e.flood }

/-- Take in one announced item: note who announced it, and make it a candidate unless it was
asked for already or is quarantined.  What we announced ourselves is passed over. -/
def takeIn (e : Engine σ) (id : PeerId) (i : Item) : Engine σ :=
  if e.anyPeer (·.announced.contains i.hash) then e
  else
    let wanted := !e.anyPeer (·.reserved.contains i) && !e.isQuarantined i.hash
    let e := e.modifyPeer id fun p => p.advertise i.hash e.now
    if wanted then e.offer i else e

/-- Taking in an item is passed over, or is noted with the peer.  In the second case the item
may become a candidate, but only if it is reserved on nobody and not quarantined. -/
theorem takeIn_cases (e : Engine σ) (id : PeerId) (i : Item) :
    e.takeIn id i = e ∨
      ∃ candidates flood,
        e.takeIn id i =
          { e.modifyPeer id fun p => p.advertise i.hash e.now with
            candidates := candidates
            flood := flood } ∧
        (candidates = e.candidates ∨
          (e.anyPeer (·.reserved.contains i) = false ∧ e.isQuarantined i.hash = false) ∧
            candidates = (e.candidates.offer i e.now).2) := by
  unfold takeIn
  split
  · exact .inl rfl
  · refine .inr ?_
    dsimp only
    split
    next wanted =>
      simp only [Bool.and_eq_true, Bool.not_eq_true'] at wanted
      exact ⟨_, _, rfl, .inr ⟨wanted, rfl⟩⟩
    next => exact ⟨_, _, rfl, .inl rfl⟩

/-- Whether transactions come too thick: from one peer, or from the whole network. -/
def overBudget (e : Engine σ) (p : Peer) (cap : Nat) : Checked Bool :=
  if p.inventoryFull cap then .ok true
  else do
    let ceiling ← e.config.net.floodCeiling
    return ceiling < e.flood.total

/-- Receive an announcement. -/
def receiveAnnouncement (e : Engine σ) (id : PeerId) (items : List Item) :
    Checked (Engine σ) := do
  match e.peers[id]? with
  | none => return e
  | some p =>
    let cap ← e.config.net.inventoryCap
    if p.needFromPeer || p.needFromUs then return e
    else
      let fresh := e.freshItems items
      let refused ← if fresh.any (·.kind = .transaction) then e.overBudget p cap else .ok false
      if refused then return { e with metrics := e.metrics.countRejection }
      else return fresh.foldl (fun e i => e.takeIn id i) e

/-! ## Announcing -/

/-- The objects of the spread set that a peer has not heard of, in delivery order. -/
def newsFor (spread : List (Hash × ItemKind)) (p : Peer) : List Item :=
  if p.needFromUs then []
  else
    let unknown := spread.filter fun (h, _) => !p.advertised.contains h && !p.announced.contains h
    Item.inDeliveryOrder (unknown.map fun (h, kind) => ⟨h, kind⟩)

/-- Announce the objects of the spread set, listed in some order, to every peer that does not
fetch our chain, and empty the set.  The answer is the number of objects that are announced. -/
def announceListed (e : Engine σ) (listed : List (Hash × ItemKind)) : Nat × Engine σ :=
  let news := e.peers.toList.filterMap fun (id, p) =>
    match newsFor listed p with
    | [] => none
    | items => some (id, items)
  let e := { e with spread := ∅ }.mapPeers fun _ p => p.announceAll (newsFor listed p) e.now
  (news.foldl (fun n (_, items) => n + items.length) 0,
    news.foldl (fun e (id, items) => e.send id (.announce items)) e)

/-- Announce the spread set. -/
def announceSpread (e : Engine σ) : Nat × Engine σ := e.announceListed e.spread.toList

/-- Announcing the spread set marks it with the peers, and queues announcements. -/
theorem announceSpread_eq (e : Engine σ) :
    ∃ news : List (PeerId × List Item), e.announceSpread.2 =
      { { e with spread := ∅ }.mapPeers fun _ p =>
          p.announceAll (newsFor e.spread.toList p) e.now with
        journal := e.journal ++ news.map fun n => .sent n.1 (.announce n.2) } :=
  ⟨_, foldl_send Prod.fst (fun n : PeerId × List Item => .announce n.2) _ _⟩

end BlockRelay.Engine
