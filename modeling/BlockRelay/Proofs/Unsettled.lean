/-
# Blocks that were asked for and are not settled

A block of a catch-up that was asked for and that is not settled is either awaited from a peer or
in hand (`Engine.Unsettled`).  While nobody else is asked for it, it is in one place only
(`Engine.Apart`).

`Engine.requested` is a cache of the blocks that were asked for.  What is erased from it keeps pace
with what is settled: a block is erased only when it has left the one place where it was
(`Step.tracks`).  So the cache remembers a block until it is settled, unless the block is too old or
was displaced by later ones (`Engine.Followed`).
-/
import BlockRelay.Proofs.Arrivals
import BlockRelay.Proofs.Departures
import BlockRelay.Proofs.Records

namespace BlockRelay.Engine

variable {σ : Type}

/-! ## Where blocks are -/

/-- Whether a registered peer was asked for a block of a catch-up and has not delivered it. -/
def AskedOf (e : Engine σ) (id : PeerId) (hash : Hash) : Prop :=
  ∃ p, e.peers[id]? = some p ∧ p.blocksAsked.contains hash = true

/-- Whether a block with a hash is in hand. -/
def Delivered (e : Engine σ) (hash : Hash) : Prop := ∃ w, e.InHand w ∧ w.block.id.hash = hash

/-- Whether a block was asked for and is not settled: it is awaited from a peer, or in hand. -/
def Unsettled (e : Engine σ) (hash : Hash) : Prop :=
  (∃ id, e.AskedOf id hash) ∨ e.Delivered hash

/-- Whether a block is in one place at most: it is awaited from one peer, has arrived, or waits. -/
structure Apart (e : Engine σ) (hash : Hash) : Prop where
  one : ∀ id other, e.AskedOf id hash → e.AskedOf other hash → id = other
  asked : ∀ id, e.AskedOf id hash → ¬ e.Delivered hash
  arrived : ∀ w ∈ e.arrived, w.block.id.hash = hash → e.waiting[hash]? = none

variable [Ledger σ]

/-! ## Steps that ask for no blocks -/

/-- A block is awaited from a peer only if it was before, or if blocks are asked for. -/
theorem Step.askedOf {d : Deed} {e e' : Engine σ} (s : Step d e e') {id : PeerId} {hash : Hash}
    (h : e'.AskedOf id hash) : e.AskedOf id hash ∨ d = .requested id := by
  obtain ⟨p', hp', asked⟩ := h
  rcases s.revised id p' hp' with ⟨-, rfl⟩ | ⟨p, hp, r⟩
  · simp [Peer.connected] at asked
  suffices p.blocksAsked.contains hash = true ∨ d = .requested id from
    this.imp_left fun asked => ⟨p, hp, asked⟩
  cases r with
  | requested => exact .inr rfl
  | tookBlock p b =>
    rw [Peer.takeDelivery, Std.TreeMap.contains_erase, Bool.and_eq_true] at asked
    exact .inl asked.2
  | @joined _ s ids _ stored remaining elsewhere =>
    obtain ⟨_, _, _, _, eq⟩ := { p with summary := none }.continueCatchUp_eq
      (ids.map fun b => (b, stored b)) remaining elsewhere e.recent
    rw [eq] at asked
    exact .inl asked
  | announced p items =>
    rw [Peer.announceAll_eq] at asked
    exact .inl asked
  | settled p hash b =>
    obtain ⟨_, _, settled⟩ := settlePeer_eq b (takeFront hash p)
    obtain ⟨_, _, -, taken⟩ := takeFront_eq hash p
    rw [settled, taken] at asked
    exact .inl asked
  | refused p hash =>
    obtain ⟨_, _, -, taken⟩ := takeFront_eq hash p
    rw [taken] at asked
    exact .inl asked
  | same | welcomed | restarted | summarized | answered | finished | noted | reserved | served
  | accepted | tookTransaction | forgot => exact .inl asked

/-- A block is in hand after a step only if it was before, or was awaited from the peer that
delivers it. -/
theorem Step.delivered {d : Deed} {e e' : Engine σ} (s : Step d e e') {hash : Hash}
    (h : e'.Delivered hash) :
    e.Delivered hash ∨ ∃ id b, d = .tookBlock id b ∧ b.id.hash = hash ∧ e.AskedOf id hash := by
  obtain ⟨w, inHand, rfl⟩ := h
  rcases inHand.of_step s with before | ⟨rfl, asked⟩
  · exact .inl ⟨w, before, rfl⟩
  · exact .inr ⟨w.origin, w.block, rfl, rfl, asked⟩

/-- A block that is not settled after a step that asks for no blocks was not settled before. -/
theorem Step.unsettled {d : Deed} {e e' : Engine σ} (s : Step d e e')
    (calm : ∀ id, d ≠ .requested id) {hash : Hash} (h : e'.Unsettled hash) :
    e.Unsettled hash := by
  rcases h with ⟨id, asked⟩ | delivered
  · exact .inl ⟨id, (s.askedOf asked).resolve_right (calm id)⟩
  · rcases s.delivered delivered with before | ⟨id, _, -, -, asked⟩
    · exact .inr before
    · exact .inl ⟨id, asked⟩

/-- A block that was delivered is not awaited any more from the peer that delivered it. -/
theorem Step.not_askedOf_tookBlock {e e' : Engine σ} {id : PeerId} {b : Block}
    (s : Step (.tookBlock id b) e e') : ¬ e'.AskedOf id b.id.hash := by
  rintro ⟨p', hp', asked⟩
  obtain ⟨p, -, -, taken⟩ := s.tookBlock
  have shown := requestsOf_eq hp'
  rw [taken.requests, if_pos rfl] at shown
  have same : (p.takeDelivery b.id).blocksAsked = p'.blocksAsked :=
    congrArg Prod.snd (Option.some.inj shown)
  simp [← same, Peer.takeDelivery] at asked

/-- **A block stays in one place.**  A step that asks for no blocks leaves a block in one place at
most. -/
theorem Apart.step {d : Deed} {e e' : Engine σ} (s : Step d e e')
    (calm : ∀ id, d ≠ .requested id) (keyed : e.Keyed) {hash : Hash} (h : e.Apart hash) :
    e'.Apart hash := by
  have old {id : PeerId} (asked : e'.AskedOf id hash) : e.AskedOf id hash :=
    (s.askedOf asked).resolve_right (calm id)
  refine ⟨fun id other first second => h.one id other (old first) (old second),
    fun id asked delivered => ?_, fun w mem same => ?_⟩
  · rcases s.delivered delivered with before | ⟨origin, b, rfl, rfl, awaited⟩
    · exact h.asked id (old asked) before
    · -- the block came from the only peer that it was awaited from
      obtain rfl := h.one id origin (old asked) awaited
      exact s.not_askedOf_tookBlock asked
  · by_contra waits
    obtain ⟨v, hv⟩ := Option.ne_none_iff_exists'.1 waits
    rcases s.hands.waiting hash v hv with hv | ⟨-, -, empty⟩
    · rcases s.hands.arrived w mem with before | ⟨-, awaited⟩
      · cases (h.arrived w before same).symm.trans hv
      · exact h.asked w.origin (same ▸ awaited) ⟨v, .inr ⟨hash, hv⟩, keyed hash v hv⟩
    · rw [empty] at mem
      cases mem

/-! ## What the cache of requests forgets -/

omit [Ledger σ] in
/-- A block is settled when the only peer that it was awaited from has left. -/
theorem Apart.settled_of_left {e e' : Engine σ} {id : PeerId} {hash : Hash} (h : e.Apart hash)
    (asked : e.AskedOf id hash) (left : e'.peers[id]? = none)
    (old : ∀ other, e'.AskedOf other hash → e.AskedOf other hash)
    (hands : e'.Delivered hash → e.Delivered hash) : ¬ e'.Unsettled hash := by
  rintro (⟨other, awaited⟩ | delivered)
  · obtain rfl := h.one id other asked (old other awaited)
    obtain ⟨p, hp, -⟩ := awaited
    cases left.symm.trans hp
  · exact h.asked id asked (hands delivered)

omit [Ledger σ] in
/-- A block is settled when it is taken from those that wait. -/
theorem Apart.settled_of_taken {e e' : Engine σ} {hash : Hash} {w : WaitingBlock}
    (h : e.Apart hash) (keyed : e.Keyed) (hw : e.waiting[hash]? = some w)
    (arrived : e'.arrived = e.arrived) (waiting : e'.waiting = e.waiting.erase hash)
    (old : ∀ other, e'.AskedOf other hash → e.AskedOf other hash) : ¬ e'.Unsettled hash := by
  rintro (⟨other, awaited⟩ | ⟨v, mem | ⟨other, hv⟩, same⟩)
  · exact h.asked other (old other awaited) ⟨w, .inr ⟨hash, hw⟩, keyed hash w hw⟩
  · cases (h.arrived v (arrived ▸ mem) same).symm.trans hw
  · rw [waiting, Std.TreeMap.getElem?_erase] at hv
    split at hv
    · cases hv
    next differs =>
      -- a block waits under its own hash only
      rw [Std.LawfulEqCmp.compare_eq_iff_eq] at differs
      exact differs (same.symm.trans (keyed other v hv))

/-- What a step does to the cache of requests: nothing, or it forgets what is expired, or it erases
blocks that are settled after the step if they were in one place before. -/
inductive Tracks (e e' : Engine σ) : Prop where
  | same (requested : e'.requested = e.requested) (now : e.now ≤ e'.now)
  | purged (requested : e'.requested = (e.requested.purge e.now).2) (now : e'.now = e.now)
  | erased (keys : List Hash)
    (requested : e'.requested = keys.foldl (fun c k => c.erase k) e.requested)
    (now : e'.now = e.now)
    (settled : ∀ k ∈ keys, e.Keyed → e.Apart k → ¬ e'.Unsettled k)

omit [Ledger σ] in
/-- Several removals give back the blocks that the removed peers were asked for. -/
theorem requested_disconnectAll (e : Engine σ) (leaving : List (PeerId × Reason)) :
    ∃ keys : List Hash, (e.disconnectAll leaving).requested =
        keys.foldl (fun c k => c.erase k) e.requested ∧
      ∀ k ∈ keys, ∃ id, e.AskedOf id k ∧ (e.disconnectAll leaving).peers[id]? = none := by
  induction leaving generalizing e with
  | nil => exact ⟨[], rfl, nofun⟩
  | cons l rest ih =>
    have first : e.disconnectAll (l :: rest) = (e.disconnect l.1 l.2).disconnectAll rest := rfl
    obtain ⟨later, eq, gone⟩ := ih (e.disconnect l.1 l.2)
    cases hp : e.peers[l.1]? with
    | none =>
      have same : e.disconnect l.1 l.2 = e := remove_of_unknown hp _
      rw [same] at first eq gone
      rw [first]
      exact ⟨later, eq, gone⟩
    | some p =>
      have removed : (e.disconnect l.1 l.2).requested =
          p.blocksAsked.keys.foldl (fun c k => c.erase k) e.requested := requested_remove hp _
      rw [first]
      refine ⟨p.blocksAsked.keys ++ later, ?_, fun k mem => ?_⟩
      · rw [eq, removed, List.foldl_append]
      · rcases List.mem_append.1 mem with here | mem
        · refine ⟨l.1, ⟨p, hp, Std.TreeMap.mem_keys.1 here⟩, ?_⟩
          rw [peers_disconnectAll, disconnect, peers_remove, if_pos rfl, ite_self]
        · obtain ⟨id, ⟨q, hq, asked⟩, left⟩ := gone k mem
          rw [disconnect, peers_remove] at hq
          split at hq
          · cases hq
          · exact ⟨id, ⟨q, hq, asked⟩, left⟩

omit [Ledger σ] in
/-- With the same requests the same blocks are awaited. -/
theorem AskedOf.of_sameRequests {e e' : Engine σ} {id : PeerId} {hash : Hash}
    (h : e'.AskedOf id hash) (same : SameRequests e e') : e.AskedOf id hash := by
  obtain ⟨p', hp', asked⟩ := h
  obtain ⟨p, hp, eq⟩ := same.record hp'
  have kept : p.blocksAsked = p'.blocksAsked := congrArg Prod.snd eq
  exact ⟨p, hp, by rw [kept]; exact asked⟩

/-- Taking up the block that is next in line, and leaving some peers, gives back what is settled by
that. -/
theorem tracks_submitFetched {e e₁ : Engine σ} {hash : Hash} {w : WaitingBlock}
    {r : Option Refusal} (hw : e.waiting[hash]? = some w)
    (done : (e.takeNext hash).submitFetched w.block = .ok (r, e₁))
    (leaving : List (PeerId × Reason))
    (old : ∀ id hash, (e₁.disconnectAll leaving).AskedOf id hash → e.AskedOf id hash)
    (hands : ∀ hash, (e₁.disconnectAll leaving).Delivered hash → e.Delivered hash) :
    Tracks e (e₁.disconnectAll leaving) := by
  obtain ⟨_, -, taken⟩ := work_submitFetched done
  have left := work_disconnectAll e₁ leaving
  obtain ⟨keys, given, gone⟩ := requested_disconnectAll e₁ leaving
  refine .erased (w.block.id.hash :: keys) ?_ ?_ fun k mem keyed apart => ?_
  · rw [given, taken.requested, List.foldl_cons]
  · exact congrArg Clock.now (left.clock.trans taken.clock)
  · rcases List.mem_cons.1 mem with rfl | mem
    · have same := keyed hash w hw
      rw [same] at apart ⊢
      exact apart.settled_of_taken keyed hw (left.arrived.trans taken.arrived)
        (left.waiting.trans taken.waiting) fun id => old id hash
    · obtain ⟨id, asked, gone⟩ := gone k mem
      have before := asked.of_sameRequests (.submitFetched done)
      exact apart.settled_of_left before gone (fun id => old id k) (hands k)

/-- **What is given back is settled.** -/
theorem Step.tracks {d : Deed} {e e' : Engine σ} (s : Step d e e')
    (calm : ∀ id, d ≠ .requested id) : Tracks e e' := by
  have old {id : PeerId} {hash : Hash} (asked : e'.AskedOf id hash) : e.AskedOf id hash :=
    (s.askedOf asked).resolve_right (calm id)
  have hands (quiet : ∀ id b, d ≠ .tookBlock id b) {hash : Hash} (h : e'.Delivered hash) :
      e.Delivered hash := (s.delivered h).resolve_right fun ⟨id, b, eq, _⟩ => quiet id b eq
  cases s.work with
  | asked => exact absurd rfl (calm _)
  | @left _ id p r _ hp work =>
    refine .erased _ (requested_remove hp r) (congrArg Clock.now work.clock) fun k mem _ apart => ?_
    refine apart.settled_of_left ⟨p, hp, Std.TreeMap.mem_keys.1 mem⟩ ?_ (fun _ => old) (hands nofun)
    rw [peers_remove, if_pos rfl]
  | @dropped _ hash w hw =>
    refine .erased [hash] rfl rfl fun k mem keyed apart => ?_
    cases List.mem_singleton.1 mem
    exact apart.settled_of_taken keyed hw rfl rfl fun _ => old
  | takenUp _ deed hw done =>
    have quiet (id : PeerId) (b : Block) : d ≠ .tookBlock id b := by
      rcases deed with rfl | rfl <;> exact nofun
    exact tracks_submitFetched hw done _ (fun _ _ => old) fun _ => hands quiet
  | purged work => exact .purged work.requested (congrArg Clock.now work.clock)
  | same work => exact .same work.requested (congrArg Clock.now work.clock).ge
  | due _ work => exact .same work.requested (congrArg Clock.now work.clock).ge
  | later _ ms => exact .same rfl (Nat.le_add_right _ _)
  | arrived | absorbed | rested => exact .same rfl (Nat.le_refl _)

omit [Ledger σ] in
/-- A change that asks for no blocks leaves the limits of the cache alone. -/
theorem Tracks.limits {e e' : Engine σ} (t : Tracks e e') :
    e'.requested.limits = e.requested.limits := by
  cases t with
  | same requested => rw [requested]
  | purged requested => rw [requested]; rfl
  | erased keys requested =>
    rw [requested]
    exact AgingCache.limits_foldl_erase keys _

/-- The limits of the cache never change. -/
theorem Step.limits {d : Deed} {e e' : Engine σ} (s : Step d e e') :
    e'.requested.limits = e.requested.limits := by
  by_cases calm : ∀ id, d ≠ .requested id
  · exact (s.tracks calm).limits
  · simp only [not_forall, not_not] at calm
    obtain ⟨id, rfl⟩ := calm
    cases s with
    | requestBlocks =>
      rw [requested_requestBlocks]
      exact AgingCache.limits_foldl_insert () e.now _ _

/-- What is known of an unsettled block that was asked for at a time, `n` blocks ago: it is in one
place only, and the cache remembers it unless it has expired or was displaced. -/
structure Followed (e : Engine σ) (hash : Hash) (askedAt n : Nat) : Prop where
  apart : e.Apart hash
  remembered : e.requested.Kept hash askedAt n ∨ e.requested.lifetime < e.now - askedAt

omit [Ledger σ] in
/-- Whoever changes the ledger settles no block. -/
theorem Followed.withLedger {e : Engine σ} {hash : Hash} {askedAt n : Nat}
    (h : e.Followed hash askedAt n) (ledger : σ) :
    { e with ledger := ledger }.Followed hash askedAt n :=
  ⟨⟨h.apart.one, h.apart.asked, h.apart.arrived⟩, h.remembered⟩

/-- **A block is followed until it is settled.** -/
theorem Followed.step {d : Deed} {e e' : Engine σ} (s : Step d e e')
    (calm : ∀ id, d ≠ .requested id) (keyed : e.Keyed) {hash : Hash} {askedAt n : Nat}
    (unsettled : e'.Unsettled hash) (h : e.Followed hash askedAt n) :
    e'.Followed hash askedAt n := by
  have lifetime : e'.requested.lifetime = e.requested.lifetime := congrArg Prod.snd s.limits
  refine ⟨h.apart.step s calm keyed, ?_⟩
  have tracks := s.tracks calm
  -- the clock does not go back, so that what has expired stays expired
  have later : e.now ≤ e'.now := by
    cases tracks with
    | same _ now => exact now
    | purged _ now | erased _ _ now => exact now.ge
  rcases h.remembered with kept | expired
  · cases tracks with
    | same requested =>
      rw [requested]
      exact .inl kept
    | purged requested now =>
      rw [lifetime, now, requested]
      exact kept.purge e.now
    | erased keys requested _ settled =>
      rw [requested]
      exact .inl (kept.foldl_erase fun mem => settled hash mem keyed h.apart unsettled)
  · exact .inr (by omega)

/-- A course that asks for no blocks asks no peer for a block. -/
theorem Course.askedOf {allowed : Deed → Prop} {e e' : Engine σ} (c : Course allowed e e')
    (calm : ∀ id, ¬ allowed (.requested id)) {id : PeerId} {hash : Hash}
    (h : e'.AskedOf id hash) : e.AskedOf id hash := by
  refine (c.cause (F := (·.AskedOf id hash)) (C := (· = .requested id)) (fun s => s.askedOf)
    h).resolve_right ?_
  rintro ⟨d, allows, rfl⟩
  exact calm id allows

/-- A block that is not settled after a course that asks for no blocks was not settled before. -/
theorem Course.unsettled {allowed : Deed → Prop} {e e' : Engine σ} (c : Course allowed e e')
    (calm : ∀ id, ¬ allowed (.requested id)) {hash : Hash} (h : e'.Unsettled hash) :
    e.Unsettled hash := by
  induction c with
  | refl => exact h
  | tail _ last ih =>
    obtain ⟨d, allows, last⟩ := last
    exact ih (last.unsettled (fun id eq => calm id (eq ▸ allows)) h)

/-- A block is followed along a course that asks for no blocks, until it is settled. -/
theorem Course.followed {allowed : Deed → Prop} {e e' : Engine σ} (c : Course allowed e e')
    (calm : ∀ id, ¬ allowed (.requested id)) (keyed : e.Keyed) {hash : Hash} {askedAt n : Nat}
    (unsettled : e'.Unsettled hash) (h : e.Followed hash askedAt n) :
    e'.Followed hash askedAt n := by
  induction c with
  | refl => exact h
  | tail before last ih =>
    have keyed := Course.preserves (I := Keyed) (fun _ s => Keyed.step s) before keyed
    obtain ⟨d, allows, last⟩ := last
    have calm : ∀ id, d ≠ .requested id := fun id eq => calm id (eq ▸ allows)
    exact (ih (last.unsettled calm unsettled)).step last calm keyed unsettled

end BlockRelay.Engine
