/-
# One request for one object

An announced object is a candidate, or it is reserved on one peer, or neither
(`Engine.Exclusive`).  Every step preserves this, and so it holds in every run.

The queue of candidates is keyed by hash and the reservations are keyed by item.  What
keeps the two apart is that no hash is a candidate twice: reserving a candidate takes its
hash out of the queue, and a requeued item replaces whatever has its hash.
-/
import Mathlib.Data.List.Nodup
import Mathlib.Data.List.Perm.Subperm
import BlockRelay.Ledger.Chain
import BlockRelay.Proofs.Requests

namespace BlockRelay.Engine

variable {σ : Type}

/-! ## Reservations -/

/-- Whether an object is reserved on a registered peer. -/
def hasReserved (e : Engine σ) (id : PeerId) (i : Item) : Bool :=
  (e.peers[id]?).any (·.reserved.contains i)

/-- What is reserved on a peer is part of its requests. -/
theorem hasReserved_eq (e : Engine σ) (id : PeerId) (i : Item) :
    e.hasReserved id i = (e.requestsOf id).any (·.1.contains i) := by
  rw [hasReserved, requestsOf, view, Option.any_map]
  rfl

/-- With the same requests the reservations are the same. -/
theorem hasReserved_congr {e e' : Engine σ} {id : PeerId}
    (h : e'.requestsOf id = e.requestsOf id) (i : Item) :
    e'.hasReserved id i = e.hasReserved id i := by
  rw [hasReserved_eq, h, ← hasReserved_eq]

/-- Nothing is reserved on some peer exactly when nothing is reserved on any. -/
theorem anyPeer_reserved_iff {e : Engine σ} {i : Item} :
    e.anyPeer (·.reserved.contains i) = true ↔ ∃ id, e.hasReserved id i = true := by
  rw [anyPeer_iff]
  constructor
  · rintro ⟨id, p, hp, reserved⟩
    exact ⟨id, by rw [hasReserved, hp]; exact reserved⟩
  · rintro ⟨id, h⟩
    obtain ⟨p, hp, reserved⟩ := (Option.any_eq_true _ _).1 h
    exact ⟨id, p, hp, reserved⟩

/-- After a removal exactly the reservations of the removed peer are gone. -/
theorem hasReserved_remove (e : Engine σ) (id : PeerId) (r : Option Reason) (other : PeerId)
    (i : Item) :
    (e.remove id r).hasReserved other i = (other ≠ id && e.hasReserved other i) := by
  unfold hasReserved
  rw [peers_remove]
  by_cases h : other = id <;> simp [h]

/-- Reserving an object on a registered peer adds it to the reservations of this peer. -/
theorem hasReserved_reserve {e : Engine σ} {id : PeerId} {p : Peer} (hp : e.peers[id]? = some p)
    (i : Item) (now : Nat) (other : PeerId) (j : Item) :
    (e.modifyPeer id fun p => p.reserve i now).hasReserved other j =
      (other = id && j = i || e.hasReserved other j) := by
  unfold hasReserved
  rw [peers_modifyPeer]
  by_cases h : other = id
  · subst h
    by_cases hj : j = i
    · simp [hp, hj, Peer.reserve]
    · simp [hp, hj, Ne.symm hj, Peer.reserve, Std.TreeMap.contains_insert]
  · simp [h]

/-- Reserving a candidate leaves those with other hashes in the queue. -/
theorem mem_items_reserveOne {e : Engine σ} {i : Item} (queued : i ∈ e.candidates.items)
    (made : List (PeerId × Item)) {c : Candidate} (ne : i.hash ≠ c.item.hash) :
    i ∈ (reserveOne (made, e) c).2.candidates.items := by
  rcases reserveOne_cases made e c with eq | ⟨id, p, hp, -, eq⟩
  · rw [eq]
    exact queued
  · rw [eq]
    exact CandidateQueue.mem_items_erase.2 ⟨queued, ne⟩

/-! ## The invariant -/

/-- Every object is a candidate at most once or is reserved on one peer at most, and not
both. -/
structure Exclusive (e : Engine σ) : Prop where
  distinct : e.candidates.Distinct
  apart {id : PeerId} {i : Item} : e.hasReserved id i = true → i ∉ e.candidates.items
  single {id other : PeerId} {i : Item} :
    e.hasReserved id i = true → e.hasReserved other i = true → id = other

namespace Exclusive

variable {e e' : Engine σ}

/-- With fewer candidates and fewer reservations an engine stays exclusive. -/
theorem shrink (h : e.Exclusive)
    (candidates : e'.candidates.items.Sublist e.candidates.items)
    (reserved : ∀ id i, e'.hasReserved id i = true → e.hasReserved id i = true) :
    e'.Exclusive where
  distinct := h.distinct.of_sublist candidates
  apart hr hc := h.apart (reserved _ _ hr) (candidates.subset hc)
  single hr hr' := h.single (reserved _ _ hr) (reserved _ _ hr')

/-- With the same requests an engine stays exclusive. -/
theorem same (h : e.Exclusive) (s : SameRequests e e') : e'.Exclusive :=
  h.shrink (by rw [s.candidates]) fun id i hr =>
    (hasReserved_congr (s.requests id) i).symm.trans hr

/-- An object that is taken from a peer is reserved on it no longer. -/
theorem takesFrom (h : e.Exclusive) {id : PeerId} {p q : Peer} (hp : e.peers[id]? = some p)
    (left : ∀ i, q.reserved.contains i = true → p.reserved.contains i = true)
    (t : TakesFrom id q e e') : e'.Exclusive := by
  refine h.shrink t.candidates fun other i hr => ?_
  rw [hasReserved_eq, t.requests] at hr
  split at hr
  next eq =>
    subst eq
    rw [hasReserved, hp]
    exact left i hr
  next => rwa [hasReserved_eq]

/-- The objects that were reserved on a removed peer are reserved on nobody, so that they may
become candidates. -/
theorem remove (h : e.Exclusive) (id : PeerId) (r : Option Reason) :
    (e.remove id r).Exclusive := by
  cases hp : e.peers[id]? with
  | none => exact (remove_of_unknown hp r).symm ▸ h
  | some p =>
    refine ⟨distinct_remove h.distinct id r, fun {other i} hr hc => ?_, fun hr hr' => ?_⟩
    · rw [hasReserved_remove, Bool.and_eq_true, decide_eq_true_eq] at hr
      -- a candidate was one before, or was reserved on the removed peer and on nobody else
      rcases mem_items_remove hp hc with hc | reserved
      · exact h.apart hr.2 hc
      · have held : e.hasReserved id i = true := by rw [hasReserved, hp]; exact reserved
        exact hr.1 (h.single hr.2 held)
    · rw [hasReserved_remove, Bool.and_eq_true] at hr hr'
      exact h.single hr.2 hr'.2

/-- Removing several peers. -/
theorem disconnectAll (h : e.Exclusive) (leaving : List (PeerId × Reason)) :
    (e.disconnectAll leaving).Exclusive := by
  unfold Engine.disconnectAll
  induction leaving generalizing e with
  | nil => exact h
  | cons l rest ih => exact ih (h.remove l.1 (some l.2))

/-- A new session begins without reservations. -/
theorem openSession (h : e.Exclusive) (id : PeerId) : (e.openSession id).Exclusive := by
  refine h.shrink (.refl _) fun other i hr => ?_
  obtain ⟨p, hp, reserved⟩ := (Option.any_eq_true _ _).1 hr
  rw [peers_openSession] at hp
  split at hp
  · cases hp
    simp [Peer.connected] at reserved
  · rw [hasReserved, hp]
    exact reserved

/-- An announced item becomes a candidate only if it is reserved on nobody. -/
theorem takeIn (h : e.Exclusive) (id : PeerId) (i : Item) : (e.takeIn id i).Exclusive := by
  rcases takeIn_cases e id i with eq | ⟨candidates, flood, eq, change⟩
  · exact eq.symm ▸ h
  · have same (other : PeerId) (j : Item) :
        (e.takeIn id i).hasReserved other j = e.hasReserved other j := by
      rw [eq]
      refine hasReserved_congr (view_modify (g := fun p => p.advertise i.hash e.now) rfl ?_
        other) j
      exact fun _ => rfl
    have items : (e.takeIn id i).candidates = candidates := by rw [eq]
    rcases change with rfl | ⟨⟨unreserved, -⟩, rfl⟩
    · exact h.shrink (by rw [items]) fun other j hr => (same other j).symm.trans hr
    · refine ⟨?_, fun {other j} hr hc => ?_, fun hr hr' => ?_⟩
      · rw [items]
        exact h.distinct.offer i _
      · rw [same] at hr
        rw [items] at hc
        rcases CandidateQueue.mem_of_mem_items_offer hc with hc | rfl
        · exact h.apart hr hc
        · exact Bool.eq_false_iff.1 unreserved (anyPeer_reserved_iff.2 ⟨other, hr⟩)
      · rw [same] at hr hr'
        exact h.single hr hr'

/-- Reserving a candidate takes its hash out of the queue. -/
theorem reserveOne (h : e.Exclusive) (made : List (PeerId × Item)) {c : Candidate}
    (queued : c.item ∈ e.candidates.items) : (Engine.reserveOne (made, e) c).2.Exclusive := by
  rcases reserveOne_cases made e c with eq | ⟨id, p, hp, -, eq⟩
  · exact eq.symm ▸ h
  · rw [eq]
    have reserved (other : PeerId) (j : Item) := hasReserved_reserve
      (e := { e with candidates := e.candidates.erase c.item.hash }) hp c.item e.now other j
    refine ⟨h.distinct.erase _, fun {other j} hr hc => ?_, fun {other third j} hr hr' => ?_⟩
    · obtain ⟨hc, ne⟩ := CandidateQueue.mem_items_erase.1 hc
      rw [reserved, Bool.or_eq_true, Bool.and_eq_true, decide_eq_true_eq, decide_eq_true_eq] at hr
      rcases hr with ⟨-, rfl⟩ | hr
      · exact ne rfl
      · exact h.apart hr hc
    · rw [reserved, Bool.or_eq_true, Bool.and_eq_true, decide_eq_true_eq, decide_eq_true_eq]
        at hr hr'
      -- a candidate was reserved on nobody before
      rcases hr with ⟨rfl, rfl⟩ | hr <;> rcases hr' with ⟨rfl, same⟩ | hr'
      · rfl
      · exact absurd queued (h.apart hr')
      · exact absurd queued (same ▸ h.apart hr)
      · exact h.single hr hr'

/-- Reserving candidates one after the other.  The candidates that are still to come keep
their places, because their hashes are different. -/
theorem foldl_reserveOne (order : List Candidate) (h : e.Exclusive)
    (made : List (PeerId × Item)) (hashes : (order.map (·.item.hash)).Nodup)
    (queued : ∀ c ∈ order, c.item ∈ e.candidates.items) :
    (order.foldl Engine.reserveOne (made, e)).2.Exclusive := by
  induction order generalizing e made with
  | nil => exact h
  | cons c rest ih =>
    rw [List.map_cons, List.nodup_cons] at hashes
    have first := h.reserveOne made (queued c (List.mem_cons_self ..))
    refine ih first _ hashes.2 fun d hd => ?_
    have ne : d.item.hash ≠ c.item.hash := fun same =>
      hashes.1 (same ▸ List.mem_map_of_mem hd)
    exact mem_items_reserveOne (queued d (List.mem_cons_of_mem _ hd)) made ne

end Exclusive

/-- The candidates in the order of fetching have different hashes. -/
theorem nodup_inFetchOrder {q : CandidateQueue} (h : q.Distinct) :
    (q.inFetchOrder.map (·.item.hash)).Nodup := by
  rw [(q.inFetchOrder_perm.map _).nodup_iff]
  simpa [CandidateQueue.Distinct, CandidateQueue.items, Function.comp_def] using h

/-- The candidates in the order of fetching are candidates. -/
theorem mem_items_of_mem_inFetchOrder {q : CandidateQueue} {c : Candidate}
    (h : c ∈ q.inFetchOrder) : c.item ∈ q.items :=
  List.mem_map_of_mem (q.inFetchOrder_perm.mem_iff.1 h)

variable [Ledger σ]

/-- **Every step keeps an engine exclusive.** -/
theorem Exclusive.step {d : Deed} {e e' : Engine σ} (s : Step d e e') (h : e.Exclusive) :
    e'.Exclusive := by
  by_cases keeps : d.KeepsRequests
  · exact h.same (s.sameRequests keeps)
  cases s with
  | openSession => exact h.openSession _
  | remove => exact h.remove _ _
  | takeIn => exact h.takeIn _ _
  | dropStale maxAge =>
    exact h.shrink (CandidateQueue.items_dropStale_sublist ..) fun _ _ hr => hr
  | reserve =>
    have reserved := Exclusive.foldl_reserveOne _ h [] (nodup_inFetchOrder h.distinct)
      fun c => mem_items_of_mem_inFetchOrder
    rw [requestReserved_eq]
    exact reserved.shrink (.refl _) fun _ _ hr => hr
  | @arrive _ id p b hp asked =>
    obtain ⟨q, hq, -, t⟩ := Step.tookBlock (.arrive hp asked)
    exact h.takesFrom hq (fun i => Std.TreeMap.mem_of_mem_erase) t
  | submitAnnounced hp notAsked reserved done =>
    obtain ⟨q, hq, -, t⟩ := Step.tookBlock (.submitAnnounced hp notAsked reserved done)
    exact h.takesFrom hq (fun i => Std.TreeMap.mem_of_mem_erase) t
  | submitTransaction hp reserved =>
    obtain ⟨q, hq, -, t⟩ := Step.tookTransaction (.submitTransaction hp reserved)
    exact h.takesFrom hq (fun i => Std.TreeMap.mem_of_mem_erase) t
  | @requestBlocks _ id p batch =>
    obtain ⟨peers, requested, eq⟩ := requestBlocks_eq e id batch
    refine h.shrink (by rw [eq]) fun other i hr => ?_
    rw [hasReserved, peers_requestBlocks] at hr
    split at hr
    · simpa [hasReserved, Option.any_map, Function.comp_def] using hr
    · exact hr
  | refuse _ _ done => exact (h.same (.submitFetched done)).disconnectAll _
  | welcome | restart | sendSummary | sendAnswer | finishCatchUp | takeUp | measure
  | announceSpread | serve | due | rest | absorb | suspend | dropOrphan | settle | forgetOutdated
  | advanceFlood | advanceClock | broadcast => exact absurd trivial keeps

/-! ## Runs -/

/-- An engine without peers and candidates is exclusive. -/
theorem Exclusive.start {config : Config} {ledger : σ} {clock : Clock} {e : Engine σ}
    (started : Engine.start config ledger clock = .ok e) : e.Exclusive := by
  obtain ⟨slots, -, eq⟩ := Checked.bind_eq_ok_iff.1 started
  cases eq
  refine ⟨CandidateQueue.distinct_empty, fun hr => ?_, fun hr => ?_⟩ <;>
    simp [hasReserved] at hr

/-- In every run of an engine it stays exclusive. -/
theorem Run.exclusive {config : Config} {ledger : σ} {clock : Clock} {start e : Engine σ}
    {past : List (Moment σ)} (run : Run start past e)
    (started : Engine.start config ledger clock = .ok start) : e.Exclusive :=
  run.invariant (Exclusive.start started) Exclusive.step
    fun _ _ h => ⟨h.distinct, h.apart, h.single⟩

/-- In how many places an object is: among the candidates, and reserved on registered peers. -/
def places (e : Engine σ) (i : Item) : Nat :=
  e.candidates.items.count i + e.peers.keys.countP fun id => e.hasReserved id i

/-- **One place for one object.**  Whatever is done to an engine, an announced object is in one
place at most: among the candidates, or reserved on a single peer. -/
theorem places_le_one {config : Config} {ledger : σ} {clock : Clock} {start e : Engine σ}
    {past : List (Moment σ)} (started : Engine.start config ledger clock = .ok start)
    (run : Run start past e) (i : Item) : e.places i ≤ 1 := by
  have exclusive := run.exclusive started
  unfold places
  by_cases held : ∃ id, e.hasReserved id i = true
  · obtain ⟨id, held⟩ := held
    have unqueued : e.candidates.items.count i = 0 :=
      List.count_eq_zero.2 (exclusive.apart held)
    -- all places are peers, and there is only one of them
    have alone : e.peers.keys.filter (fun other => e.hasReserved other i) ⊆ [id] := by
      intro other h
      exact List.mem_singleton.2 (exclusive.single (List.mem_filter.1 h).2 held)
    have nodup := Std.TreeMap.nodup_keys (t := e.peers)
    have le_one := (List.Nodup.subperm (nodup.sublist List.filter_sublist) alone).length_le
    rw [unqueued, List.countP_eq_length_filter]
    simpa using le_one
  · have unheld : e.peers.keys.countP (fun id => e.hasReserved id i) = 0 :=
      List.countP_eq_zero.2 fun id _ h => held ⟨id, h⟩
    have once := List.nodup_iff_count_le_one.1 exclusive.distinct.of_map i
    omega

/-- An object that two peers announced, and that is reserved on one of them, is in no other
place. -/
theorem places_of_announced_twice :
    ∃ (start e : Engine ChainLedger) (past : List (Moment ChainLedger)),
      Engine.start {} (.ofGenesis (.genesis 0) 0 10) {} = .ok start ∧ Run start past e ∧
        e.hasReserved ⟨1⟩ (.transaction ⟨0, 0, 0, 7⟩) = true ∧
        e.places (.transaction ⟨0, 0, 0, 7⟩) ≤ 1 := by
  obtain ⟨start, past, e, started, run, reserved⟩ := exists_run {}
    (ChainLedger.ofGenesis (.genesis 0) 0 10) {}
    [.register ⟨1⟩ 0, .register ⟨2⟩ 0, .receive ⟨1⟩ (.announce [.transaction ⟨0, 0, 0, 7⟩]),
      .receive ⟨2⟩ (.announce [.transaction ⟨0, 0, 0, 7⟩]), .reserveCandidates]
    (fun (_, e) => e.hasReserved ⟨1⟩ (.transaction ⟨0, 0, 0, 7⟩)) (by decide +kernel)
  exact ⟨start, e, past, started, run, reserved, places_le_one started run _⟩

end BlockRelay.Engine
