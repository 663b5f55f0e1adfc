/-
# Records of peers

What a step does to the record of a registered peer is said once, by `Revision`, with one
constructor for each way in which a record changes.  Every record after a step is that of a
session which the step begins, or a revision of the record before (`Step.revised`).

A fact about the past that a record keeps is then traced through the revisions: what a peer
announced, what it is expected to deliver, and what is still to be fetched from it have each
one deed as their cause (`Step.advertised`, `Step.wanted`, `Step.listed`).  The cause of a fact
that holds at the end of a run is found in the run, or even in the session of the peer
(`Run.exists_cause`, `Run.exists_cause_session`).
-/
import BlockRelay.Proofs.Journal
import BlockRelay.Proofs.Queues
import BlockRelay.Proofs.Requests
import BlockRelay.Proofs.Served

namespace BlockRelay

namespace Engine

variable {σ : Type}

/-! ## What records keep of the past -/

/-- Whether a registered peer announced a hash, and this is remembered. -/
def Advertised (e : Engine σ) (id : PeerId) (hash : Hash) : Prop :=
  ∃ p, e.peers[id]? = some p ∧ p.advertised.contains hash = true

/-- Whether a block is still to be fetched from a registered peer. -/
def Listed (e : Engine σ) (id : PeerId) (b : BlockId) : Prop :=
  ∃ p, e.peers[id]? = some p ∧ b ∈ p.toFetch

/-- Whether an announced object is a candidate, or a peer was asked for it and has not delivered
it. -/
def Wanted (e : Engine σ) (i : Item) : Prop :=
  i ∈ e.candidates.items ∨
    ∃ (id : PeerId) (p : Peer), e.peers[id]? = some p ∧ p.reserved.contains i = true

/-! ## Revisions -/

variable [Ledger σ]

/-- What a step does to the record of a peer that is registered before the step and after it. -/
inductive Revision (e : Engine σ) (id : PeerId) : Deed → Peer → Peer → Prop where
  | same (d : Deed) (p : Peer) : Revision e id d p p
  | welcomed {p : Peer} (fresh : p = Peer.connected e.genesis e.now) :
    Revision e id .internal p { p with phase := .caughtUp }
  | restarted (p : Peer) : Revision e id (.restarted id) p (p.restart e.genesis)
  | summarized {p : Peer} {ids : List BlockId} (settled : p.summary = none)
    (sample : Ledger.sampleChain e.ledger p.bothHave p.toFetch = .ok ids) :
    Revision e id (.summarized id) p (p.await ids e.now)
  | answered (p : Peer) (needed : Bool) :
    Revision e id .internal p { p with needFromUs := needed }
  | finished {p : Peer} {s : SummaryRequest} (asked : p.summary = some s)
    (fetched : p.toFetch = []) (claimed : p.unfetched = 0) :
    Revision e id (.finished id) p { p with summary := none }.endCatchUp
  | joined {p : Peer} {s : SummaryRequest} {ids : List BlockId} (asked : p.summary = some s)
    (stored : BlockId → Bool) (remaining : UInt64) (elsewhere : Bool) :
    Revision e id (.joined id ids) p
      ({ p with summary := none }.continueCatchUp (ids.map fun b => (b, stored b)) remaining
        elsewhere e.recent)
  | noted (p : Peer) (i : Item) : Revision e id (.noted id i) p (p.advertise i.hash e.now)
  | announced (p : Peer) (items : List Item) :
    Revision e id .internal p (p.announceAll items e.now)
  | reserved {p : Peer} {made : Std.TreeMap Item Nat}
    (candidates : ∀ i, made.contains i = true →
      p.reserved.contains i = true ∨ i ∈ e.candidates.items) :
    Revision e id .reserved p { p with reserved := made }
  | served (p : Peer) {last : Option BlockId}
    (handed : ∀ b ∈ last, ∃ block, e.Hands block ∧ block.id = b) :
    Revision e id .internal p { p with bothHave := last.getD p.bothHave }
  | accepted {p : Peer} (other : PeerId) (b : Block)
    (advertised : p.advertised.contains b.id.hash = true) :
    Revision e id (.tookBlock other b) p { p with bothHave := b.id }
  | tookBlock (p : Peer) (b : Block) (bothHave : BlockId) :
    Revision e id (.tookBlock id b) p { p.takeDelivery b.id with bothHave := bothHave }
  | tookTransaction (p : Peer) (t : Transaction) :
    Revision e id (.tookTransaction id t) p { p with reserved := p.reserved.erase t.item }
  | requested (p : Peer) (batch : List BlockId) :
    Revision e id (.requested id) p (p.requestBlocks batch e.now)
  | settled (p : Peer) (hash : Hash) (b : BlockId) :
    Revision e id .settled p (settlePeer b (takeFront hash p))
  | refused (p : Peer) (hash : Hash) : Revision e id .refused p (takeFront hash p)
  | forgot (p : Peer) (retention : Nat) :
    Revision e id .forgot p (p.forgetOutdated e.now retention).2

/-- Every record of `e'` is that of a session that begins, or a revision of one of `e`. -/
def Revises (d : Deed) (e e' : Engine σ) : Prop :=
  ∀ (id : PeerId) (p' : Peer), e'.peers[id]? = some p' →
    (d = .opened id ∧ p' = Peer.connected e.genesis e.now) ∨
      ∃ p, e.peers[id]? = some p ∧ Revision e id d p p'

namespace Revises

variable {d : Deed} {e e' : Engine σ}

/-- Records only disappear. -/
theorem of_fewer
    (fewer : ∀ (id : PeerId) (p : Peer), e'.peers[id]? = some p → e.peers[id]? = some p) :
    Revises d e e' := fun id p hp => .inr ⟨p, fewer id p hp, .same d p⟩

/-- The records stay the same. -/
theorem of_peers (peers : e'.peers = e.peers) : Revises d e e' :=
  .of_fewer fun _ _ hp => peers ▸ hp

/-- Every record is revised. -/
theorem of_map {f : PeerId → Peer → Peer} (peers : e'.peers = e.peers.map f)
    (revised : ∀ (id : PeerId) (p : Peer), Revision e id d p (f id p)) : Revises d e e' := by
  intro id p' hp'
  rw [peers, Std.TreeMap.getElem?_map, Option.map_eq_some_iff] at hp'
  obtain ⟨p, hp, rfl⟩ := hp'
  exact .inr ⟨p, hp, revised id p⟩

/-- One record is replaced by a revision of it. -/
theorem of_insert {id : PeerId} {p q : Peer} (hp : e.peers[id]? = some p)
    (peers : e'.peers = e.peers.insert id q) (revised : Revision e id d p q) :
    Revises d e e' := by
  intro other p' hp'
  rw [peers, Std.TreeMap.getElem?_insert] at hp'
  split at hp'
  next same =>
    rw [Std.LawfulEqCmp.compare_eq_iff_eq] at same
    subst same
    cases hp'
    exact .inr ⟨p, hp, revised⟩
  next => exact .inr ⟨p', hp', .same d p'⟩

/-- One record is changed to a revision of it. -/
theorem of_modify {id : PeerId} {p : Peer} {f : Peer → Peer} (hp : e.peers[id]? = some p)
    (peers : e'.peers = e.peers.modify id f) (revised : Revision e id d p (f p)) :
    Revises d e e' := by
  intro other p' hp'
  have changed := peers_modifyPeer e id f other
  simp only [modifyPeer, ← peers] at changed
  rw [hp'] at changed
  split at changed
  next same =>
    subst same
    rw [hp] at changed
    cases changed
    exact .inr ⟨p, hp, revised⟩
  next => exact .inr ⟨p', changed.symm, .same d p'⟩

end Revises

/-! ## Reservations -/

/-- What is known while candidates are reserved: candidates only disappear, apart from reservations
of candidates the records are those at the start, and everything was reserved on a peer that
announced its hash. -/
structure Reserving (e : Engine σ) (acc : List (PeerId × Item) × Engine σ) : Prop where
  candidates : ∀ i ∈ acc.2.candidates.items, i ∈ e.candidates.items
  revised : ∀ (id : PeerId) (p' : Peer), acc.2.peers[id]? = some p' →
    ∃ p made, e.peers[id]? = some p ∧ p' = { p with reserved := made } ∧
      ∀ i, made.contains i = true → p.reserved.contains i = true ∨ i ∈ e.candidates.items
  made : ∀ r ∈ acc.1, r.2 ∈ e.candidates.items ∧
    ∃ p, e.peers[r.1]? = some p ∧ p.isBusy = false ∧ p.advertised.contains r.2.hash = true

omit [Ledger σ] in
/-- Reserving one more candidate. -/
theorem Reserving.reserveOne {e : Engine σ} {acc : List (PeerId × Item) × Engine σ}
    (h : Reserving e acc) {c : Candidate} (queued : c.item ∈ e.candidates.items) :
    Reserving e (Engine.reserveOne acc c) := by
  obtain ⟨made, e₁⟩ := acc
  rcases reserveOne_cases made e₁ c with eq | ⟨id, p₁, hp₁, serves, eq⟩
  · exact eq.symm ▸ h
  rw [eq]
  obtain ⟨p, made₁, hp, rfl, reserved⟩ := h.revised id p₁ hp₁
  constructor
  · intro i mem
    exact h.candidates i (CandidateQueue.mem_items_erase.1 mem).1
  · intro other p' hp'
    rw [peers_modifyPeer] at hp'
    split at hp'
    next same =>
      subst same
      rw [hp₁, Option.map_some] at hp'
      cases hp'
      refine ⟨p, _, hp, rfl, fun i mem => ?_⟩
      rw [Std.TreeMap.contains_insert, Bool.or_eq_true, beq_iff_eq,
        Std.LawfulEqCmp.compare_eq_iff_eq] at mem
      rcases mem with same | old
      · exact .inr (same ▸ queued)
      · exact reserved i old
    next => exact h.revised other p' hp'
  · intro r mem
    rcases List.mem_append.1 mem with old | new
    · exact h.made r old
    · cases List.mem_singleton.1 new
      simp only [canServe, Bool.and_eq_true, Bool.not_eq_true'] at serves
      exact ⟨queued, p, hp, serves.1.1, serves.1.2⟩

omit [Ledger σ] in
/-- Reserving as many candidates as possible. -/
theorem reserving_reserveAll (e : Engine σ) : Reserving e e.reserveAll := by
  have start : Reserving e ([], e) :=
    ⟨fun _ mem => mem, fun id p hp => ⟨p, p.reserved, hp, rfl, fun _ => .inl⟩, nofun⟩
  suffices ∀ (order : List Candidate) (acc : List (PeerId × Item) × Engine σ),
      (∀ c ∈ order, c.item ∈ e.candidates.items) → Reserving e acc →
        Reserving e (order.foldl Engine.reserveOne acc) by
    refine this _ _ (fun c mem => ?_) start
    exact List.mem_map_of_mem (e.candidates.inFetchOrder_perm.mem_iff.1 mem)
  intro order
  induction order with
  | nil => exact fun _ _ h => h
  | cons c rest ih =>
    intro acc queued h
    obtain ⟨here, later⟩ := List.forall_mem_cons.1 queued
    exact ih _ later (h.reserveOne here)

/-! ## One step -/

/-- The records after the block that is next in line was taken up and submitted. -/
theorem revised_submitFetched {e e' : Engine σ} {hash : Hash} {b : Block} {r : Option Refusal}
    (done : (e.takeNext hash).submitFetched b = .ok (r, e')) (id : PeerId) :
    e'.peers[id]? = (e.peers[id]?).map fun p =>
      if r = none then settlePeer b.id (takeFront hash p) else takeFront hash p := by
  rcases submitFetched_cases done with ⟨-, rfl, rfl⟩ | ⟨result, ledger, -, result_eq⟩
  · simp [settle, takeNext, Function.comp_def]
  · cases result with
    | ok =>
      obtain ⟨rfl, rfl⟩ := result_eq
      simp [settle, takeNext, record, mapPeers, Std.TreeMap.getElem?_map, Function.comp_def]
    | error =>
      obtain ⟨rfl, quarantine, rfl⟩ := result_eq
      simp [takeNext, record, mapPeers, Std.TreeMap.getElem?_map]

/-- **What a step does to records.**  Every record after a step is that of a session which the
step begins, or a revision of the record before. -/
theorem Step.revised {d : Deed} {e e' : Engine σ} (s : Step d e e') : Revises d e e' := by
  cases s with
  | @openSession _ id =>
    intro other p' hp'
    rw [peers_openSession] at hp'
    split at hp'
    next same =>
      cases hp'
      exact .inl ⟨congrArg Deed.opened same.symm, rfl⟩
    next => exact .inr ⟨p', hp', .same _ p'⟩
  | welcome hp => exact .of_modify hp rfl (.welcomed rfl)
  | remove r hp =>
    refine .of_fewer fun id p hp => ?_
    rw [peers_remove] at hp
    split at hp
    · cases hp
    · exact hp
  | restart hp => exact .of_modify hp rfl (.restarted _)
  | sendSummary hp settled sample => exact .of_modify hp rfl (.summarized settled sample)
  | sendAnswer hp => exact .of_modify hp rfl (.answered _ _)
  | finishCatchUp hp asked _ nothing done =>
    obtain ⟨fetched, claimed⟩ := Peer.fetched_of_nothingNew nothing
    exact .of_insert hp (peers_finishCatchUp done) (.finished asked fetched claimed)
  | takeUp hp asked _ done => exact .of_insert hp (peers_takeUp done) (.joined asked _ _ _)
  | @takeIn _ id p i hp =>
    rcases takeIn_cases e id i with eq | ⟨_, _, eq, -⟩
    · exact .of_peers (by rw [eq])
    · exact .of_modify hp (by rw [eq]; rfl) (.noted _ i)
  | announceSpread =>
    obtain ⟨news, eq⟩ := announceSpread_eq e
    rw [eq]
    exact .of_map rfl fun id p => .announced p _
  | reserve =>
    intro id p' hp'
    rw [requestReserved_eq] at hp'
    obtain ⟨p, made, hp, rfl, candidates⟩ := (reserving_reserveAll e).revised id p' hp'
    exact .inr ⟨p, hp, .reserved candidates⟩
  | @serve _ id p items hp =>
    obtain ⟨-, ⟨eq, -⟩ | ⟨last, messages, made, eq, -⟩⟩ := serve_hands e id items
    · exact .of_peers eq
    · exact .of_modify hp eq (.served p made.last)
  | arrive hp => exact .of_insert hp rfl (.tookBlock _ _ _)
  | @submitAnnounced _ _ id p b _ hp _ _ done =>
    have delivered : Revision e id (.tookBlock id b) p (p.takeDelivery b.id) :=
      .tookBlock p b p.bothHave
    rcases submitAnnounced_cases done with ⟨-, -, rfl⟩ | ⟨result, ledger, -, result_eq⟩
    · exact .of_insert hp rfl delivered
    cases result with
    | error =>
      obtain ⟨-, quarantine, rfl⟩ := result_eq
      exact .of_insert hp rfl delivered
    | ok transactions =>
      obtain ⟨-, rfl⟩ := result_eq
      -- first the delivery is noted with its peer, then the block with all that announced it
      intro other p' hp'
      simp only [settleAnnounced, broadcastBlock, mapPeers, record, Std.TreeMap.getElem?_map,
        Std.TreeMap.getElem?_insert, Option.map_eq_some_iff, Std.LawfulEqCmp.compare_eq_iff_eq]
        at hp'
      obtain ⟨q, hq, rfl⟩ := hp'
      refine .inr ?_
      split at hq
      next same =>
        subst same
        cases hq
        refine ⟨p, hp, ?_⟩
        split
        · exact .tookBlock p b b.id
        · exact delivered
      next =>
        refine ⟨q, hq, ?_⟩
        split
        next advertised => exact .accepted id b advertised
        next => exact .same _ q
  | submitTransaction hp =>
    exact .of_modify hp (peers_submitTransaction ..) (.tookTransaction _ _)
  | @requestBlocks _ id p batch hp =>
    intro other p' hp'
    rw [peers_requestBlocks] at hp'
    split at hp'
    next same =>
      subst same
      rw [hp] at hp'
      cases hp'
      exact .inr ⟨p, hp, .requested p batch⟩
    next => exact .inr ⟨p', hp', .same _ p'⟩
  | settle _ _ done =>
    intro id p' hp'
    rw [revised_submitFetched done] at hp'
    obtain ⟨p, hp, rfl⟩ := Option.map_eq_some_iff.1 hp'
    exact .inr ⟨p, hp, .settled p _ _⟩
  | refuse _ _ done =>
    intro id p' hp'
    rw [peers_leaveOffenders, Option.filter_eq_some_iff, revised_submitFetched done] at hp'
    obtain ⟨p, hp, rfl⟩ := Option.map_eq_some_iff.1 hp'.1
    exact .inr ⟨p, hp, .refused p _⟩
  | forgetOutdated done =>
    obtain ⟨_, _, _, _, _, rfl⟩ := forgetOutdated_eq done
    exact .of_map rfl fun id p => .forgot p _
  | broadcast e m => cases m <;> exact .of_peers rfl
  | measure | dropStale | due | rest | absorb | suspend | dropOrphan | advanceFlood
  | advanceClock => exact .of_peers rfl

/-! ## Tracing what is kept -/

namespace Revision

variable {e : Engine σ} {id : PeerId} {d : Deed} {p p' : Peer}

/-- A peer is remembered for the announcements that were noted. -/
theorem advertised (r : Revision e id d p p') {hash : Hash}
    (h : p'.advertised.contains hash = true) :
    p.advertised.contains hash = true ∨ ∃ i, d = .noted id i ∧ i.hash = hash := by
  cases r with
  | noted p i =>
    rw [Peer.advertise, Std.TreeMap.contains_insert, Bool.or_eq_true, beq_iff_eq,
      Std.LawfulEqCmp.compare_eq_iff_eq] at h
    rcases h with same | old
    · exact .inr ⟨i, rfl, same⟩
    · exact .inl old
  | forgot => exact .inl (Std.TreeMap.contains_of_contains_filter h)
  | announced | joined | requested | settled | refused => exact .inl (by simpa using h)
  | same | welcomed | restarted | summarized | answered | finished | reserved | served | accepted
  | tookBlock | tookTransaction => exact .inl h

/-- A block is to be fetched only after it was named in a reply that was joined. -/
theorem listed (r : Revision e id d p p') {b : BlockId} (h : b ∈ p'.toFetch) :
    b ∈ p.toFetch ∨ ∃ ids, d = .joined id ids ∧ b ∈ ids := by
  cases r with
  | restarted => cases h
  | @joined _ s ids asked stored remaining elsewhere =>
    have mem := (Peer.toFetch_continueCatchUp_suffix _ _ _ _ _).subset h
    rcases Peer.mem_toFetch_joinReply mem with old | new
    · exact .inl old
    · have named : b ∈ ids := by simpa [Function.comp_def] using new
      exact .inr ⟨ids, rfl, named⟩
  | settled p hash b' =>
    rw [toFetch_settlePeer] at h
    exact .inl ((toFetch_takeFront_suffix hash p).subset h)
  | refused p hash => exact .inl ((toFetch_takeFront_suffix hash p).subset h)
  | announced | requested => exact .inl (by simpa using h)
  | same | welcomed | summarized | answered | finished | noted | reserved | served | accepted
  | tookBlock | tookTransaction | forgot => exact .inl h

/-- Only candidates are reserved. -/
theorem reserved_cases (r : Revision e id d p p') {i : Item}
    (h : p'.reserved.contains i = true) :
    p.reserved.contains i = true ∨ i ∈ e.candidates.items := by
  cases r with
  | reserved candidates => exact candidates i h
  | tookBlock | tookTransaction => exact .inl (Std.TreeMap.contains_of_contains_erase h)
  | announced | joined | requested | settled | refused => exact .inl (by simpa using h)
  | same | welcomed | restarted | summarized | answered | finished | noted | served | accepted
  | forgot => exact .inl h

/-- The summary that is outstanding changes only when one is sent or replied to. -/
theorem summary_eq (r : Revision e id d p p') (unsent : d ≠ .summarized id)
    (unfinished : d ≠ .finished id) (unjoined : ∀ ids, d ≠ .joined id ids) :
    p'.summary = p.summary := by
  cases r with
  | summarized => exact absurd rfl unsent
  | finished => exact absurd rfl unfinished
  | joined => exact absurd rfl (unjoined _)
  | announced p items => rw [Peer.announceAll_eq]
  | requested p batch => rw [Peer.requestBlocks_eq]
  | settled p hash b =>
    obtain ⟨_, _, settled⟩ := settlePeer_eq b (takeFront hash p)
    obtain ⟨_, _, -, taken⟩ := takeFront_eq hash p
    rw [settled, taken]
  | refused p hash =>
    obtain ⟨_, _, -, taken⟩ := takeFront_eq hash p
    rw [taken]
  | same | welcomed | restarted | answered | noted | reserved | served | accepted | tookBlock
  | tookTransaction | forgot => rfl

/-- A summary that is outstanding was outstanding before, or samples the chain of the ledger. -/
theorem summary_cases (r : Revision e id d p p') {s : SummaryRequest}
    (h : p'.summary = some s) :
    p.summary = some s ∨
      p.summary = none ∧ Ledger.sampleChain e.ledger p.bothHave p.toFetch = .ok s.ids := by
  by_cases quiet : d ≠ .summarized id ∧ d ≠ .finished id ∧ ∀ ids, d ≠ .joined id ids
  · exact .inl ((r.summary_eq quiet.1 quiet.2.1 quiet.2.2).symm.trans h)
  · cases r with
    | same => exact .inl h
    | summarized settled sample =>
      cases h
      exact .inr ⟨settled, sample⟩
    | finished => cases h
    | joined =>
      rw [Peer.summary_continueCatchUp] at h
      cases h
    | _ => simp at quiet

end Revision

/-- A peer announced only what was noted. -/
theorem Step.advertised {d : Deed} {e e' : Engine σ} (s : Step d e e') {id : PeerId} {hash : Hash}
    (h : e'.Advertised id hash) :
    e.Advertised id hash ∨ ∃ i, d = .noted id i ∧ i.hash = hash := by
  obtain ⟨p', hp', known⟩ := h
  rcases s.revised id p' hp' with ⟨-, rfl⟩ | ⟨p, hp, r⟩
  · simp [Peer.connected] at known
  · exact (r.advertised known).imp_left fun known => ⟨p, hp, known⟩

/-- A block is to be fetched from a peer only after a reply of this peer named it. -/
theorem Step.listed {d : Deed} {e e' : Engine σ} (s : Step d e e') {id : PeerId} {b : BlockId}
    (h : e'.Listed id b) : e.Listed id b ∨ ∃ ids, d = .joined id ids ∧ b ∈ ids := by
  obtain ⟨p', hp', mem⟩ := h
  rcases s.revised id p' hp' with ⟨-, rfl⟩ | ⟨p, hp, r⟩
  · cases mem
  · exact (r.listed mem).imp_left fun mem => ⟨p, hp, mem⟩

namespace Wanted

variable {e e' : Engine σ} {i : Item}

omit [Ledger σ] in
/-- With the same requests the same objects are wanted. -/
theorem of_sameRequests (h : e'.Wanted i) (same : SameRequests e e') : e.Wanted i := by
  rcases h with queued | ⟨id, p', hp', reserved⟩
  · exact .inl (same.candidates ▸ queued)
  · obtain ⟨p, hp, eq⟩ := same.record hp'
    have kept : p.reserved = p'.reserved := congrArg Prod.fst eq
    exact .inr ⟨id, p, hp, by rw [kept]; exact reserved⟩

omit [Ledger σ] in
/-- A removal gives back what was reserved, and nothing else becomes a candidate. -/
theorem of_remove {id : PeerId} {r : Option Reason} (h : (e.remove id r).Wanted i) :
    e.Wanted i := by
  cases hp : e.peers[id]? with
  | none => exact remove_of_unknown hp r ▸ h
  | some p =>
    rcases h with queued | ⟨other, q, hq, reserved⟩
    · exact (mem_items_remove hp queued).imp_right fun reserved => ⟨id, p, hp, reserved⟩
    · rw [peers_remove] at hq
      split at hq
      · cases hq
      · exact .inr ⟨other, q, hq, reserved⟩

omit [Ledger σ] in
/-- Several removals give back what was reserved, and nothing else becomes a candidate. -/
theorem of_disconnectAll {leaving : List (PeerId × Reason)}
    (h : (e.disconnectAll leaving).Wanted i) : e.Wanted i := by
  unfold Engine.disconnectAll at h
  induction leaving generalizing e with
  | nil => exact h
  | cons l rest ih => exact (ih h).of_remove

end Wanted

/-- An object becomes wanted only when it is noted, while it is not quarantined. -/
theorem Step.wanted {d : Deed} {e e' : Engine σ} (s : Step d e e') {i : Item}
    (h : e'.Wanted i) :
    e.Wanted i ∨ ∃ id, d = .noted id i ∧ e.isQuarantined i.hash = false := by
  by_cases keeps : d.KeepsRequests
  · exact .inl (h.of_sameRequests (s.sameRequests keeps))
  rcases h with queued | ⟨id, p', hp', reserved⟩
  · cases s with
    | openSession | arrive => exact .inl (.inl queued)
    | remove r hp => exact .inl (Wanted.of_remove (r := r) (.inl queued))
    | @takeIn _ id _ j =>
      rcases takeIn_cases e id j with eq | ⟨candidates, flood, eq, change⟩ <;> rw [eq] at queued
      · exact .inl (.inl queued)
      · rcases change with rfl | ⟨⟨-, clean⟩, rfl⟩
        · exact .inl (.inl queued)
        · rcases CandidateQueue.mem_of_mem_items_offer queued with old | rfl
          · exact .inl (.inl old)
          · exact .inr ⟨id, rfl, clean⟩
    | dropStale => exact .inl (.inl ((CandidateQueue.items_dropStale_sublist ..).subset queued))
    | reserve =>
      rw [requestReserved_eq] at queued
      exact .inl (.inl ((reserving_reserveAll e).candidates i queued))
    | submitAnnounced hp notAsked reserved done =>
      obtain ⟨_, -, -, taken⟩ := (Step.submitAnnounced hp notAsked reserved done).tookBlock
      exact .inl (.inl (taken.candidates.subset queued))
    | submitTransaction hp reserved =>
      obtain ⟨_, -, -, taken⟩ := (Step.submitTransaction hp reserved).tookTransaction
      exact .inl (.inl (taken.candidates.subset queued))
    | @requestBlocks _ id p batch =>
      obtain ⟨_, _, eq⟩ := requestBlocks_eq e id batch
      rw [eq] at queued
      exact .inl (.inl queued)
    | refuse _ _ done =>
      have before : Wanted _ i := Wanted.of_disconnectAll (.inl queued)
      exact .inl (before.of_sameRequests (.submitFetched done))
    | welcome | restart | sendSummary | sendAnswer | finishCatchUp | takeUp | measure
    | announceSpread | serve | due | rest | absorb | suspend | dropOrphan | settle | forgetOutdated
    | advanceFlood | advanceClock | broadcast => exact absurd trivial keeps
  · rcases s.revised id p' hp' with ⟨-, rfl⟩ | ⟨p, hp, r⟩
    · simp [Peer.connected] at reserved
    · rcases r.reserved_cases reserved with old | queued
      · exact .inl (.inr ⟨id, p, hp, old⟩)
      · exact .inl (.inl queued)

/-- An object becomes wanted only when it is noted. -/
theorem Step.wanted_or_noted {d : Deed} {e e' : Engine σ} (s : Step d e e') {i : Item}
    (h : e'.Wanted i) : e.Wanted i ∨ ∃ id, d = .noted id i := by
  rcases s.wanted h with before | ⟨id, noted, -⟩
  · exact .inl before
  · exact .inr ⟨id, noted⟩

/-! ## The next summary -/

/-- The next summary to a peer leaves a record alone, or makes the peer await a reply. -/
theorem record_nextSummary {e : Engine σ} {id other : PeerId} {p' : Peer}
    (hp' : (e.nextSummary id).peers[other]? = some p') :
    ∃ p, e.peers[other]? = some p ∧
      (p' = p ∨ other = id ∧ ∃ ids, p' = p.await ids e.now) := by
  rcases nextSummary_cases e id with same | s | s
  · exact ⟨p', same ▸ hp', .inl rfl⟩
  · rcases s.revised other p' hp' with ⟨eq, -⟩ | ⟨p, hp, r⟩
    · cases eq
    · cases r with
      | same => exact ⟨p', hp, .inl rfl⟩
      | summarized => exact ⟨p, hp, .inr ⟨rfl, _, rfl⟩⟩
  · rcases s.revised other p' hp' with ⟨eq, -⟩ | ⟨p, hp, r⟩
    · cases eq
    · cases r
      exact ⟨p', hp, .inl rfl⟩

/-- A catch-up that begins anew leaves a peer that is registered to be caught up with. -/
theorem needFromPeer_startCatchUp {e : Engine σ} {id : PeerId} {p' : Peer}
    (hp' : (e.startCatchUp id).peers[id]? = some p') : p'.needFromPeer = true := by
  unfold startCatchUp at hp'
  split at hp'
  next =>
    obtain ⟨p, hp, same⟩ := record_nextSummary hp'
    rw [restart, peers_modifyPeer, if_pos rfl] at hp
    obtain ⟨q, -, rfl⟩ := Option.map_eq_some_iff.1 hp
    rcases same with rfl | ⟨-, ids, rfl⟩ <;> rfl
  next unknown => exact absurd (isRegistered_iff.2 ⟨p', hp'⟩) unknown

/-! ## Causes in a run -/

section Cause

variable {F : Engine σ → Prop} {C : Deed → Prop}

/-- What holds after a course and has no cause in it held before. -/
theorem Course.cause (step : ∀ {d : Deed} {e e' : Engine σ}, Step d e e' → F e' → F e ∨ C d)
    {allowed : Deed → Prop} {e e' : Engine σ} (c : Course allowed e e') (h : F e') :
    F e ∨ ∃ d, allowed d ∧ C d := by
  induction c with
  | refl => exact .inl h
  | tail _ last ih =>
    obtain ⟨d, allows, last⟩ := last
    rcases step last h with before | cause
    · exact ih before
    · exact .inr ⟨d, allows, cause⟩

/-- In a course an object becomes wanted only when it is noted. -/
theorem Course.wanted {allowed : Deed → Prop} {e e' : Engine σ} (c : Course allowed e e')
    {i : Item} (h : e'.Wanted i) : e.Wanted i ∨ ∃ id, allowed (.noted id i) := by
  rcases c.cause (F := (·.Wanted i)) (C := fun d => ∃ id, d = .noted id i)
    (fun s h => s.wanted_or_noted h) h with before | ⟨_, allows, id, rfl⟩
  · exact .inl before
  · exact .inr ⟨id, allows⟩

/-- In a course a peer announces only what is noted. -/
theorem Course.advertised {allowed : Deed → Prop} {e e' : Engine σ} (c : Course allowed e e')
    {id : PeerId} {hash : Hash} (h : e'.Advertised id hash) :
    e.Advertised id hash ∨ ∃ i, allowed (.noted id i) ∧ i.hash = hash := by
  rcases c.cause (F := (·.Advertised id hash)) (C := fun d => ∃ i, d = .noted id i ∧ i.hash = hash)
    (fun s h => s.advertised h) h with before | ⟨_, allows, i, rfl, same⟩
  · exact .inl before
  · exact .inr ⟨i, allows, same⟩

/-- In a course a block comes to be fetched from a peer only after a reply of this peer named it. -/
theorem Course.listed {allowed : Deed → Prop} {e e' : Engine σ} (c : Course allowed e e')
    {id : PeerId} {b : BlockId} (h : e'.Listed id b) :
    e.Listed id b ∨ ∃ ids, allowed (.joined id ids) ∧ b ∈ ids := by
  rcases c.cause (F := (·.Listed id b)) (C := fun d => ∃ ids, d = .joined id ids ∧ b ∈ ids)
    (fun s h => s.listed h) h with before | ⟨_, allows, ids, rfl, named⟩
  · exact .inl before
  · exact .inr ⟨ids, allows, named⟩

/-- What holds at the end of a run and not at its start has a cause in the run. -/
theorem Run.exists_cause (step : ∀ {d : Deed} {e e' : Engine σ}, Step d e e' → F e' → F e ∨ C d)
    {start e : Engine σ} {past : List (Moment σ)} (run : Run start past e) (absent : ¬ F start)
    (meddle : ∀ (e : Engine σ) (ledger : σ), F { e with ledger } → F e) (h : F e) :
    ∃ m ∈ past, ∃ op d, m.operation = some op ∧ op.Allows d ∧ C d := by
  induction run with
  | start => exact absurd h absent
  | @meddle past e ledger _ ih =>
    obtain ⟨m, mem, cause⟩ := ih (meddle e ledger h)
    exact ⟨m, List.mem_cons_of_mem _ mem, cause⟩
  | @perform past e e' op _ _ done ih =>
    rcases (course_perform done).cause step h with before | ⟨d, allows, cause⟩
    · obtain ⟨m, mem, cause⟩ := ih before
      exact ⟨m, List.mem_cons_of_mem _ mem, cause⟩
    · exact ⟨_, List.mem_cons_self .., op, d, rfl, allows, cause⟩

/-- What holds of a peer at the end of a run and of no peer when its session begins has a cause in
the session of the peer, unless routine may cause it. -/
theorem Run.exists_cause_session
    (step : ∀ {d : Deed} {e e' : Engine σ}, Step d e e' → F e' → F e ∨ C d)
    {start e : Engine σ} {past : List (Moment σ)} (run : Run start past e) (absent : ¬ F start)
    (meddle : ∀ (e : Engine σ) (ledger : σ), F { e with ledger } → F e) {id : PeerId}
    (fresh : ∀ e : Engine σ, ¬ F (e.openSession id)) (rare : ∀ d, C d → ¬ d.IsRoutine)
    (h : F e) :
    ∃ m ∈ session id past, ∃ op d, m.operation = some op ∧ op.Allows d ∧ C d := by
  induction run with
  | start => exact absurd h absent
  | @meddle past e ledger _ ih =>
    obtain ⟨m, mem, cause⟩ := ih (meddle e ledger h)
    exact ⟨m, session_meddle id _ _ past ▸ List.mem_cons_of_mem _ mem, cause⟩
  | @perform past e e' op _ _ done ih =>
    rw [session_cons]
    split
    next opens =>
      -- nothing but routine follows the beginning of the session
      obtain ⟨height, eq⟩ := Moment.opens_iff.1 opens
      cases eq
      cases done
      rcases (course_welcome e id height).cause step h with before | ⟨d, routine, cause⟩
      · exact absurd before (fresh _)
      · exact absurd routine (rare d cause)
    next =>
      rcases (course_perform done).cause step h with before | ⟨d, allows, cause⟩
      · obtain ⟨m, mem, cause⟩ := ih before
        exact ⟨m, List.mem_cons_of_mem _ mem, cause⟩
      · exact ⟨_, List.mem_cons_self .., op, d, rfl, allows, cause⟩

end Cause

/-! ## What is asked for -/

/-- Why a step asks a peer for an item: the item is a candidate and the peer announced its hash, or
it is a block that is still to be fetched from the peer. -/
def AsksFor (d : Deed) (e : Engine σ) (id : PeerId) (i : Item) : Prop :=
  d = .reserved ∧ i ∈ e.candidates.items ∧ e.Advertised id i.hash ∨
    d = .requested id ∧ ∃ b, e.Listed id b ∧ b.item = i

omit [Ledger σ] in
/-- The request of a peer lists what was reserved on it. -/
theorem mem_of_requestFor {made : List (PeerId × Item)} {id other : PeerId} {items : List Item}
    (h : Event.sent id (.fetch items) ∈ requestFor made other) {i : Item} (mem : i ∈ items) :
    (id, i) ∈ made := by
  unfold requestFor at h
  split at h
  · cases h
  · cases List.mem_singleton.1 h
    have listed := (Item.inDeliveryOrder_perm _).mem_iff.1 mem
    obtain ⟨r, reserved, rfl⟩ := List.mem_map.1 listed
    obtain ⟨mem, peer⟩ := List.mem_filter.1 reserved
    have peer : r.1 = id := of_decide_eq_true peer
    exact peer ▸ mem

/-- A step asks for an item only for a reason. -/
theorem Step.appends_asksFor {d : Deed} {e e' : Engine σ} (s : Step d e e') :
    Appends (fun ev => ∀ id items, ev = .sent id (.fetch items) → ∀ i ∈ items, AsksFor d e id i)
      e e' := by
  by_cases asks : d = .reserved ∨ ∃ id, d = .requested id
  · cases s with
    | reserve =>
      have journal : e.reserveAll.2.journal = e.journal := by
        obtain ⟨_, _, eq⟩ := reserveAll_eq e
        rw [eq]
      refine ⟨_, by rw [requestReserved_eq, journal], fun ev mem id items eq i asked => ?_⟩
      subst eq
      obtain ⟨other, -, mem⟩ := List.mem_flatMap.1 mem
      obtain ⟨queued, p, hp, -, advertised⟩ :=
        (reserving_reserveAll e).made (id, i) (mem_of_requestFor mem asked)
      exact .inl ⟨rfl, queued, p, hp, advertised⟩
    | @requestBlocks _ other p batch hp _ _ queued =>
      obtain ⟨_, _, eq⟩ := requestBlocks_eq e other batch
      refine .one (by rw [eq]) fun id items eq i asked => ?_
      cases eq
      obtain ⟨b, mem, rfl⟩ := List.mem_map.1 asked
      exact .inr ⟨rfl, b, ⟨p, hp, queued.subset mem⟩, rfl⟩
    | _ => simp at asks
  · refine s.appends.mono fun ev shows id items eq => ?_
    subst eq
    exact absurd (shows.imp_right fun eq => ⟨id, eq⟩) asks

/-- **What a peer is asked for.**  An operation asks a peer for an item that was wanted before the
operation and of which the peer announced the hash, or for a block that was still to be fetched
from the peer. -/
theorem asked_of_sent {e e' : Engine σ} {op : Operation} {answer : Outcome}
    (done : e.perform op = .ok (answer, e')) {id : PeerId} {items : List Item}
    (sent : Event.sent id (.fetch items) ∈ (Moment.mk e (some op) e').events) {i : Item}
    (asked : i ∈ items) :
    op = .reserveCandidates ∧ e.Wanted i ∧ e.Advertised id i.hash ∨
      (op = .issueRequests ∨ op = .issueTick) ∧ ∃ b, e.Listed id b ∧ b.item = i := by
  suffices ∀ {e₁ : Engine σ}, Course op.Allows e e₁ → Appends (fun ev =>
      ∀ id items, ev = .sent id (.fetch items) → ∀ i ∈ items,
        op = .reserveCandidates ∧ e.Wanted i ∧ e.Advertised id i.hash ∨
          (op = .issueRequests ∨ op = .issueTick) ∧ ∃ b, e.Listed id b ∧ b.item = i) e e₁ by
    have appended := this (course_perform done)
    exact (Appends.events (m := ⟨e, some op, e'⟩) appended).2 _ sent id items rfl i asked
  intro e₁ c
  induction c with
  | refl => exact .same rfl
  | tail first last ih =>
    obtain ⟨d, allows, last⟩ := last
    refine ih.trans (last.appends_asksFor.mono fun ev asks id items eq i mem => ?_)
    -- the reason holds when the step begins, and nothing in the operation has caused it
    rcases asks id items eq i mem with ⟨rfl, queued, advertised⟩ | ⟨rfl, b, listed, eq⟩
    · cases allows
      have wanted := (Course.wanted first (.inl queued)).resolve_right (by simp [Operation.Allows])
      have announced := (Course.advertised first advertised).resolve_right
        (by simp [Operation.Allows])
      exact .inl ⟨rfl, wanted, announced⟩
    · have before := (Course.listed first listed).resolve_right
        (by rcases allows with rfl | rfl <;> simp [Operation.Allows])
      exact .inr ⟨allows, b, before, eq⟩

end Engine

end BlockRelay
