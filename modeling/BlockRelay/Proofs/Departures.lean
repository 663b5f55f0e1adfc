/-
# What a departed peer gives back

When a peer is left, the blocks of a catch-up that it was asked for are given back
(`requested_remove`).  An announced object that was reserved on it becomes a candidate if another
peer announced it and it is not quarantined (`Engine.Returns`, `contains_remove`); no other hash
becomes a candidate or ceases to be one.  The order in which the reservations are walked decides
nothing but the numbers of these candidates (`Engine.Released`, `released_of_perm`).

The whole effect of leaving a peer is `Engine.Departure`.  Leaving it again has none.
-/
import BlockRelay.Ledger.Chain
import BlockRelay.Engine.Run
import BlockRelay.Proofs.Caches

namespace BlockRelay

/-- Whether an announced object with a hash is reserved on a peer, in one kind or the other. -/
def Peer.ReservesHash (p : Peer) (hash : Hash) : Prop :=
  ∃ i : Item, p.reserved.contains i = true ∧ i.hash = hash

namespace Engine

variable {σ : Type} {e : Engine σ} {id : PeerId} {p : Peer} {hash : Hash}

/-! ## Blocks of a catch-up -/

/-- A removal gives back the blocks that the peer was asked for. -/
theorem requested_remove (hp : e.peers[id]? = some p) (r : Option Reason) :
    (e.remove id r).requested = p.blocksAsked.keys.foldl (fun c k => c.erase k) e.requested := by
  have released (e : Engine σ) : (e.releaseRequests p).requested =
      p.blocksAsked.keys.foldl (fun c k => c.erase k) e.requested := by
    unfold releaseRequests
    split
    next empty =>
      have none : p.blocksAsked.keys = [] := by
        rwa [← List.isEmpty_iff, Std.TreeMap.isEmpty_keys]
      rw [none]
      rfl
    next => rfl
  simp only [remove, hp]
  rw [releaseReservations_eq]
  cases r <;> exact released _

/-- What is left of the requests for blocks after a removal are those of which the peer was not
asked. -/
theorem requested_remove_eq (hp : e.peers[id]? = some p) (r : Option Reason) :
    (e.remove id r).requested =
      { e.requested with
        entries := e.requested.entries.filter fun entry => !p.blocksAsked.contains entry.key } := by
  rw [requested_remove hp, AgingCache.foldl_erase_eq]
  congr 1
  apply List.filter_congr
  intro entry _
  rw [Bool.eq_iff_iff, decide_eq_true_eq, Std.TreeMap.mem_keys, Bool.not_eq_true',
    ← Std.TreeMap.contains_iff_mem, Bool.not_eq_true]

/-! ## Announced objects -/

/-- Whether a released object with a hash becomes a candidate: a registered peer announced the
hash, and it is not quarantined. -/
def Returns (e : Engine σ) (hash : Hash) : Prop :=
  e.anyPeer (·.advertised.contains hash) = true ∧ e.isQuarantined hash = false

/-- An object that does not return is not released. -/
theorem releaseItem_of_stays {i : Item} (stays : ¬ e.Returns i.hash) : e.releaseItem i = e := by
  unfold releaseItem
  rw [if_neg]
  rwa [Bool.and_eq_true, Bool.not_eq_true']

/-- An object that returns is put into the queue. -/
theorem releaseItem_of_returns {i : Item} (returns : e.Returns i.hash) :
    e.releaseItem i = { e with candidates := e.candidates.requeue i e.now } := by
  unfold releaseItem
  rw [if_pos]
  rwa [Bool.and_eq_true, Bool.not_eq_true']

/-- The effect of releasing some objects, which does not depend on their order.  Each hash among
them that returns is a candidate afterwards, with one of the objects, last seen now, and with a
number that was not given out before; numbers are all that the order decides, and which object it
is if several have the same hash.  The candidates with other hashes stay as they are, and nothing
but the candidates changes. -/
structure Released (items : List Item) (e e' : Engine σ) : Prop where
  numbers : e.candidates.lastSequence ≤ e'.candidates.lastSequence
  returned : ∀ hash : Hash, (∃ i ∈ items, i.hash = hash) → e.Returns hash →
    ∃ c, e'.candidates.get? hash = some c ∧ c.item ∈ items ∧ c.lastSeen = e.now ∧
      e.candidates.lastSequence < c.sequence
  stayed : ∀ hash : Hash, ¬ ((∃ i ∈ items, i.hash = hash) ∧ e.Returns hash) →
    e'.candidates.get? hash = e.candidates.get? hash
  rest : e' = { e with candidates := e'.candidates }

namespace Released

variable {e₁ e' : Engine σ} {items more : List Item}

/-- Nothing is released. -/
theorem refl (e : Engine σ) : Released [] e e :=
  ⟨Nat.le_refl _, fun _ ⟨_, mem, _⟩ => absurd mem List.not_mem_nil, fun _ _ => rfl, rfl⟩

/-- A release does not change what returns. -/
theorem returns_iff (h : Released items e e') : e'.Returns hash ↔ e.Returns hash := by
  rw [h.rest]
  rfl

/-- One object is released. -/
theorem releaseItem (e : Engine σ) (i : Item) : Released [i] e (e.releaseItem i) := by
  by_cases returns : e.Returns i.hash
  · rw [releaseItem_of_returns returns]
    refine ⟨Nat.le_succ _, fun hash here _ => ?_, fun hash not => ?_, rfl⟩
    · obtain ⟨j, mem, rfl⟩ := here
      cases List.mem_singleton.1 mem
      exact ⟨_, (CandidateQueue.get?_requeue ..).trans (if_pos rfl), List.mem_singleton_self _, rfl,
        Nat.lt_succ_self _⟩
    · refine (CandidateQueue.get?_requeue ..).trans (if_neg ?_)
      rintro rfl
      exact not ⟨⟨i, List.mem_singleton_self i, rfl⟩, returns⟩
  · rw [releaseItem_of_stays returns]
    refine ⟨Nat.le_refl _, fun hash here back => ?_, fun _ _ => rfl, rfl⟩
    obtain ⟨j, mem, rfl⟩ := here
    cases List.mem_singleton.1 mem
    exact absurd back returns

/-- Some objects are released, and then others. -/
theorem trans (h : Released items e e₁) (h' : Released more e₁ e') :
    Released (items ++ more) e e' := by
  have now : e₁.now = e.now := by
    rw [h.rest]
    rfl
  refine ⟨h.numbers.trans h'.numbers, fun hash here returns => ?_, fun hash not => ?_, ?_⟩
  · by_cases later : ∃ i ∈ more, i.hash = hash
    · obtain ⟨c, found, mem, seen, new⟩ := h'.returned hash later (h.returns_iff.2 returns)
      exact ⟨c, found, List.mem_append_right _ mem, seen.trans now,
        Nat.lt_of_le_of_lt h.numbers new⟩
    · obtain ⟨i, mem, same⟩ := here
      have first : i ∈ items := (List.mem_append.1 mem).resolve_right fun mem =>
        later ⟨i, mem, same⟩
      obtain ⟨c, found, mem, seen, new⟩ := h.returned hash ⟨i, first, same⟩ returns
      exact ⟨c, (h'.stayed hash fun here => later here.1).trans found, List.mem_append_left _ mem,
        seen, new⟩
  · rw [h'.stayed hash, h.stayed hash]
    · rintro ⟨⟨i, mem, same⟩, returns⟩
      exact not ⟨⟨i, List.mem_append_left _ mem, same⟩, returns⟩
    · rintro ⟨⟨i, mem, same⟩, returns⟩
      exact not ⟨⟨i, List.mem_append_right _ mem, same⟩, h.returns_iff.1 returns⟩
  · exact h'.rest.trans (by rw [h.rest])

/-- The order of the objects plays no part. -/
theorem perm (h : Released items e e') (same : items.Perm more) : Released more e e' := by
  have held (hash : Hash) : (∃ i ∈ items, i.hash = hash) ↔ ∃ i ∈ more, i.hash = hash := by
    simp only [same.mem_iff]
  refine ⟨h.numbers, fun hash here returns => ?_, fun hash not => ?_, h.rest⟩
  · obtain ⟨c, found, mem, seen, new⟩ := h.returned hash ((held hash).2 here) returns
    exact ⟨c, found, same.mem_iff.1 mem, seen, new⟩
  · exact h.stayed hash fun here => not ⟨(held hash).1 here.1, here.2⟩

/-- The candidates after a release. -/
theorem contains_iff (h : Released items e e') :
    e'.candidates.contains hash = true ↔
      e.candidates.contains hash = true ∨ (∃ i ∈ items, i.hash = hash) ∧ e.Returns hash := by
  by_cases back : (∃ i ∈ items, i.hash = hash) ∧ e.Returns hash
  · obtain ⟨c, found, -⟩ := h.returned hash back.1 back.2
    refine iff_of_true ?_ (.inr back)
    rw [CandidateQueue.contains, found]
    rfl
  · rw [CandidateQueue.contains, h.stayed hash back, or_iff_left back]
    rfl

end Released

/-- Releasing several objects has the effect of a release. -/
theorem released_releaseItems (e : Engine σ) (items : List Item) :
    Released items e (e.releaseItems items) := by
  induction items generalizing e with
  | nil => exact .refl e
  | cons i rest ih => exact (Released.releaseItem e i).trans (ih (e.releaseItem i))

/-- **Releasing the reservations of a peer.**  In whichever order the reservations are walked, the
effect is the same. -/
theorem released_of_perm {items : List Item} (e : Engine σ) (walked : items.Perm p.reserved.keys) :
    Released p.reserved.keys e (e.releaseItems items) :=
  (released_releaseItems e items).perm walked

/-- Walking the reservations in the order of their keys is one way to release them. -/
theorem released_releaseReservations (e : Engine σ) (p : Peer) :
    Released p.reserved.keys e (e.releaseReservations p) :=
  released_of_perm e (.refl _)

/-- The hashes that are reserved on a peer are those of its reservations. -/
theorem exists_mem_keys_reserved :
    (∃ i ∈ p.reserved.keys, i.hash = hash) ↔ p.ReservesHash hash := by
  simp only [Peer.ReservesHash, Std.TreeMap.mem_keys, Std.TreeMap.contains_iff_mem]

/-- **The candidates after a removal.**  A hash is a candidate if it was one before, or if it was
reserved on the removed peer, another peer announced it, and it is not quarantined. -/
theorem contains_remove (hp : e.peers[id]? = some p) (r : Option Reason) :
    (e.remove id r).candidates.contains hash = true ↔
      e.candidates.contains hash = true ∨
        p.ReservesHash hash ∧ (e.remove id r).Returns hash := by
  obtain ⟨e', candidates, peers, quarantine, eq⟩ := candidates_remove hp r
  rw [eq, (released_releaseReservations e' p).contains_iff, exists_mem_keys_reserved, candidates]
  have returns : (e.remove id r).Returns hash ↔ e'.Returns hash := by
    obtain ⟨_, _, _, removed⟩ := remove_eq hp r
    rw [removed]
    unfold Returns anyPeer isQuarantined
    rw [peers, quarantine]
  rw [returns]

/-- A removal leaves the candidates with hashes that were not reserved on the removed peer. -/
theorem get?_remove (hp : e.peers[id]? = some p) (r : Option Reason)
    (other : ¬ p.ReservesHash hash) :
    (e.remove id r).candidates.get? hash = e.candidates.get? hash := by
  obtain ⟨e', candidates, -, -, eq⟩ := candidates_remove hp r
  rw [eq, (released_releaseReservations e' p).stayed hash, candidates]
  rintro ⟨reserved, -⟩
  exact other (exists_mem_keys_reserved.1 reserved)

/-- What returns after a removal was announced by a peer that is left. -/
theorem returns_remove (hp : e.peers[id]? = some p) (r : Option Reason) :
    (e.remove id r).Returns hash ↔
      (∃ (other : PeerId) (q : Peer), other ≠ id ∧ e.peers[other]? = some q ∧
        q.advertised.contains hash = true) ∧ e.isQuarantined hash = false := by
  have quarantine : (e.remove id r).isQuarantined hash = e.isQuarantined hash := by
    obtain ⟨_, _, _, eq⟩ := remove_eq hp r
    rw [eq]
    rfl
  rw [Returns, anyPeer_iff, quarantine]
  simp only [peers_remove]
  constructor
  · rintro ⟨⟨other, q, hq, known⟩, clean⟩
    split at hq
    next => cases hq
    next ne => exact ⟨⟨other, q, ne, hq, known⟩, clean⟩
  · rintro ⟨⟨other, q, ne, hq, known⟩, clean⟩
    exact ⟨⟨other, q, (if_neg ne).trans hq, known⟩, clean⟩

/-! ## Leaving a peer -/

/-- The effect of leaving a registered peer for a reason.  The peer is gone and the others are as
they were.  One message is queued, which tells the peer the reason, and the session is closed.  The
blocks of a catch-up that the peer was asked for are given back, and asking for blocks is due if
there were any.  An announced object that was reserved on the peer is a candidate afterwards if it
was one before, or if a peer that stays announced it and it is not quarantined; all other
candidates are as they were.  The metrics count the departure, and nothing else changes. -/
structure Departure (id : PeerId) (p : Peer) (r : Reason) (e e' : Engine σ) : Prop where
  gone : e'.peers[id]? = none
  others : ∀ other : PeerId, other ≠ id → e'.peers[other]? = e.peers[other]?
  journal : e'.journal = e.journal ++ [.sent id (.disconnect r), .closed id]
  requested : e'.requested =
    { e.requested with
      entries := e.requested.entries.filter fun entry => !p.blocksAsked.contains entry.key }
  issueDue : e'.issueDue = (e.issueDue || !p.blocksAsked.isEmpty)
  reserved : ∀ hash : Hash, p.ReservesHash hash →
    (e'.candidates.contains hash = true ↔ e.candidates.contains hash = true ∨
      (∃ (other : PeerId) (q : Peer), other ≠ id ∧ e.peers[other]? = some q ∧
        q.advertised.contains hash = true) ∧ e.isQuarantined hash = false)
  unreserved : ∀ hash : Hash, ¬ p.ReservesHash hash →
    e'.candidates.get? hash = e.candidates.get? hash
  metrics : e'.metrics = (e.metrics.countDisconnect r).setPeers e'.peers.size
  rest : e' =
    { e with
      peers := e'.peers
      candidates := e'.candidates
      requested := e'.requested
      issueDue := e'.issueDue
      metrics := e'.metrics
      journal := e'.journal }

/-- Asking for blocks is due after a removal if the peer was asked for some. -/
theorem issueDue_remove (hp : e.peers[id]? = some p) (r : Option Reason) :
    (e.remove id r).issueDue = (e.issueDue || !p.blocksAsked.isEmpty) := by
  have released (e : Engine σ) :
      (e.releaseRequests p).issueDue = (e.issueDue || !p.blocksAsked.isEmpty) := by
    unfold releaseRequests
    split
    next empty => simp [empty]
    next some => simp [some]
  simp only [remove, hp]
  rw [releaseReservations_eq]
  cases r <;> exact released _

/-- Leaving a peer is counted. -/
theorem metrics_disconnect (hp : e.peers[id]? = some p) (r : Reason) :
    (e.disconnect id r).metrics =
      (e.metrics.countDisconnect r).setPeers (e.disconnect id r).peers.size := by
  unfold disconnect remove
  simp only [hp]
  rw [releaseReservations_eq]
  unfold releaseRequests
  split <;> rfl

/-- **Leaving a peer.**  In every state, leaving a registered peer has the effect of a departure,
and leaving the peer again, for whatever reason, changes nothing. -/
theorem departure_of_disconnect (hp : e.peers[id]? = some p) (r : Reason) :
    Departure id p r e (e.disconnect id r) ∧
      ∀ again : Reason, (e.disconnect id r).disconnect id again = e.disconnect id r := by
  have gone : (e.disconnect id r).peers[id]? = none := by
    rw [disconnect, peers_remove, if_pos rfl]
  obtain ⟨_, _, _, eq⟩ := remove_eq hp (some r)
  constructor
  · constructor
    · exact gone
    · intro other ne
      rw [disconnect, peers_remove, if_neg ne]
    · rw [disconnect, eq]
      rfl
    · exact requested_remove_eq hp (some r)
    · exact issueDue_remove hp (some r)
    · intro hash reserved
      rw [disconnect, contains_remove hp, returns_remove hp]
      simp only [reserved, true_and]
    · intro hash unreserved
      exact get?_remove hp (some r) unreserved
    · exact metrics_disconnect hp r
    · rw [disconnect, eq]
  · intro again
    exact remove_of_unknown gone (some again)

/-- Two peers announce a block, and one of them is asked for it. -/
def announcedTwice : List Operation :=
  [.register ⟨1⟩ 0, .register ⟨2⟩ 0, .receive ⟨1⟩ (.announce [.block ⟨1, 0, 0, 7⟩]),
    .receive ⟨2⟩ (.announce [.block ⟨1, 0, 0, 7⟩]), .reserveCandidates]

/-- The block becomes a candidate again when the peer that was asked for it is left. -/
theorem departure_of_asked_peer :
    ∃ (start : Engine ChainLedger) (past : List (Moment ChainLedger)) (e : Engine ChainLedger)
      (p : Peer), Engine.start {} (.ofGenesis (.genesis 0) 0 10) {} = .ok start ∧
        Run start past e ∧ e.peers[(⟨1⟩ : PeerId)]? = some p ∧ p.ReservesHash ⟨1, 0, 0, 7⟩ ∧
          (e.disconnect ⟨1⟩ .timeOut).candidates.contains ⟨1, 0, 0, 7⟩ = true ∧
            Departure ⟨1⟩ p .timeOut e (e.disconnect ⟨1⟩ .timeOut) ∧
              ∀ again : Reason, (e.disconnect ⟨1⟩ .timeOut).disconnect ⟨1⟩ again =
                e.disconnect ⟨1⟩ .timeOut := by
  obtain ⟨start, past, e, started, run, checked⟩ := exists_run {}
    (ChainLedger.ofGenesis (.genesis 0) 0 10) {} announcedTwice
    (fun (_, e) => (e.peers[(⟨1⟩ : PeerId)]?).any fun p =>
      p.reserved.contains (.block ⟨1, 0, 0, 7⟩) &&
        (e.disconnect ⟨1⟩ .timeOut).candidates.contains ⟨1, 0, 0, 7⟩) (by decide +kernel)
  obtain ⟨p, hp, passes⟩ := (Option.any_eq_true _ _).1 checked
  obtain ⟨reserved, candidate⟩ := (Bool.and_eq_true _ _).mp passes
  exact ⟨start, past, e, p, started, run, hp, ⟨_, reserved, rfl⟩, candidate,
    departure_of_disconnect hp .timeOut⟩

end Engine

end BlockRelay
