/-
# Accounts of requests

A peer owes an object once for each record that holds a request for it (`Peer.owes`).  What
a peer owes grows by what it is asked for, and vanishes with a delivery, however many
records held the object (`Step.account`).

The account is exact because a request is always new: a candidate is reserved on nobody, and
only a peer that owes no block of a catch-up is asked for a stretch of its queue.
-/
import BlockRelay.Proofs.Exclusion
import BlockRelay.Proofs.Journal
import BlockRelay.Proofs.Queues

namespace BlockRelay

/-! ## Maps -/

section Maps

variable {κ ν : Type} [Ord κ] [Std.TransOrd κ] [Std.LawfulEqOrd κ] {t : Std.TreeMap κ ν}
  {k a : κ}

/-- Erasing a key leaves every other key alone. -/
theorem contains_erase_of_ne (h : k ≠ a) : (t.erase k).contains a = t.contains a := by
  have ne : compare k a ≠ .eq := fun eq => h (Std.LawfulEqCmp.eq_of_compare eq)
  simp [Std.TreeMap.contains_erase, ne]

/-- Inserting a key leaves every other key alone. -/
theorem contains_insert_of_ne (h : k ≠ a) (v : ν) : (t.insert k v).contains a = t.contains a := by
  have ne : compare k a ≠ .eq := fun eq => h (Std.LawfulEqCmp.eq_of_compare eq)
  simp [Std.TreeMap.contains_insert, ne]

end Maps

/-- Items of blocks are the same exactly when the hashes are. -/
theorem BlockId.item_eq_iff {id : BlockId} {i : Item} :
    id.item = i ↔ i.kind = .block ∧ id.hash = i.hash := by
  cases i
  simp [BlockId.item, Item.block, and_comm, eq_comm]

/-! ## What a peer owes -/

namespace Peer

/-- In how many records an object is held that a peer was asked for. -/
def owes (p : Peer) (i : Item) : Nat :=
  (p.reserved.contains i).toNat + (i.kind = .block && p.blocksAsked.contains i.hash).toNat

/-- What a peer owes depends on its requests only. -/
theorem owes_congr {p q : Peer} (h : q.requests = p.requests) (i : Item) :
    q.owes i = p.owes i := by
  obtain ⟨reserved, asked⟩ := Prod.mk.inj h
  rw [owes, owes, reserved, asked]

/-- A peer that has just connected owes nothing. -/
theorem owes_connected (genesis : BlockId) (now : Nat) (i : Item) :
    (connected genesis now).owes i = 0 := by
  simp [owes, connected]

/-- A delivered block is owed no longer. -/
theorem owes_takeDelivery (p : Peer) (id : BlockId) (i : Item) :
    (p.takeDelivery id).owes i = if id.item = i then 0 else p.owes i := by
  unfold owes takeDelivery
  split
  next eq =>
    subst eq
    simp [BlockId.item]
  next ne =>
    rw [contains_erase_of_ne ne]
    -- the second record concerns blocks only
    by_cases kind : i.kind = .block
    · rw [contains_erase_of_ne fun same => ne (BlockId.item_eq_iff.2 ⟨kind, same⟩)]
    · simp [kind]

/-- A delivered transaction is owed no longer. -/
theorem owes_takeTransaction (p : Peer) (t : Transaction) (i : Item) :
    { p with reserved := p.reserved.erase t.item }.owes i =
      if t.item = i then 0 else p.owes i := by
  unfold owes
  split
  next eq =>
    subst eq
    simp [Transaction.item]
  next ne => rw [contains_erase_of_ne ne]

/-- A new reservation is owed. -/
theorem owes_reserve {p : Peer} {j : Item} (fresh : p.reserved.contains j = false) (now : Nat)
    (i : Item) : (p.reserve j now).owes i = p.owes i + if j = i then 1 else 0 := by
  unfold owes reserve
  split
  next eq =>
    subst eq
    simp only [fresh, Std.TreeMap.contains_insert_self, Bool.toNat_true, Bool.toNat_false]
    omega
  next ne => rw [contains_insert_of_ne ne, Nat.add_zero]

/-- A new request for a block of catch-up is owed. -/
theorem owes_requestBlock {p : Peer} {id : BlockId} (fresh : p.blocksAsked.contains id.hash = false)
    (now : Nat) (i : Item) :
    (p.requestBlock id now).owes i = p.owes i + if id.item = i then 1 else 0 := by
  unfold owes requestBlock
  split
  next eq =>
    subst eq
    simp [BlockId.item, fresh]
  next ne =>
    by_cases kind : i.kind = .block
    · rw [contains_insert_of_ne fun same => ne (BlockId.item_eq_iff.2 ⟨kind, same⟩), Nat.add_zero]
    · simp [kind]

/-- New requests for blocks of catch-up are owed. -/
theorem owes_requestBlocks {p : Peer} {batch : List BlockId} (now : Nat)
    (distinct : (batch.map (·.hash)).Nodup)
    (fresh : ∀ b ∈ batch, p.blocksAsked.contains b.hash = false) (i : Item) :
    (p.requestBlocks batch now).owes i = p.owes i + (batch.map BlockId.item).count i := by
  induction batch generalizing p with
  | nil => rfl
  | cons b rest ih =>
    rw [List.map_cons, List.nodup_cons] at distinct
    have later : ∀ c ∈ rest, (p.requestBlock b now).blocksAsked.contains c.hash = false := by
      intro c hc
      have differs : b.hash ≠ c.hash := fun same =>
        distinct.1 (same ▸ List.mem_map_of_mem hc)
      exact (contains_insert_of_ne differs _).trans (fresh c (List.mem_cons_of_mem _ hc))
    have first := owes_requestBlock (fresh b (List.mem_cons_self ..)) now i
    have others := ih distinct.2 later
    rw [requestBlocks] at others
    rw [requestBlocks, List.foldl_cons, others, first, List.map_cons, List.count_cons]
    simp only [beq_iff_eq]
    omega

end Peer

namespace Engine

variable {σ : Type}

/-- What a peer owes; one that is not registered owes nothing. -/
def owed (e : Engine σ) (id : PeerId) (i : Item) : Nat := ((e.view (·.owes i)) id).getD 0

/-- How often a peer was asked for an object up to now. -/
def asks (e : Engine σ) (id : PeerId) (i : Item) : Nat := (e.journal.map (Event.asks id i)).sum

/-- What a registered peer owes is in its record. -/
theorem owed_eq {e : Engine σ} {id : PeerId} {p : Peer} (hp : e.peers[id]? = some p) (i : Item) :
    e.owed id i = p.owes i := by
  simp [owed, view, hp]

/-- With the same requests a peer owes the same. -/
theorem owed_congr {e e' : Engine σ} {id : PeerId} (h : e'.requestsOf id = e.requestsOf id)
    (i : Item) : e'.owed id i = e.owed id i := by
  unfold requestsOf view at h
  unfold owed view
  cases hp : e.peers[id]? with
  | none =>
    rw [hp, Option.map_none, Option.map_eq_none_iff] at h
    rw [h]
  | some p =>
    rw [hp, Option.map_some, Option.map_eq_some_iff] at h
    obtain ⟨q, hq, same⟩ := h
    rw [hq, Option.map_some, Option.map_some, Option.getD_some, Option.getD_some]
    exact Peer.owes_congr same i

/-- Events that ask a peer for nothing leave the count of requests alone. -/
theorem asks_of_appends {P : Event → Prop} {e e' : Engine σ} (h : Appends P e e') {id : PeerId}
    {i : Item} (silent : ∀ ev, P ev → ev.asks id i = 0) : e'.asks id i = e.asks id i := by
  obtain ⟨events, eq, all⟩ := h
  have zero : (events.map (Event.asks id i)).sum = 0 :=
    List.sum_eq_zero_iff_forall_eq_nat.2 fun n mem => by
      obtain ⟨ev, hev, rfl⟩ := List.mem_map.1 mem
      exact silent ev (all ev hev)
  rw [asks, asks, eq, List.map_append, List.sum_append, zero, Nat.add_zero]

/-- A step that asks nobody for anything shows no request. -/
theorem asks_eq_zero_of_shows {d : Deed} {ev : Event} (h : d.Shows ev) (id : PeerId) (i : Item)
    (quiet : d ≠ .reserved ∧ ∀ id, d ≠ .requested id) : ev.asks id i = 0 := by
  cases ev with
  | sent other m =>
    cases m with
    | fetch items =>
      rcases h with h | h
      · exact absurd h quiet.1
      · exact absurd h (quiet.2 other)
    | _ => rfl
  | _ => rfl

/-! ## Reserving -/

/-- What is requested after the reservations `made` is what was reserved on the peer. -/
theorem sum_asks_requestFor (made : List (PeerId × Item)) (other id : PeerId) (i : Item) :
    ((requestFor made other).map (Event.asks id i)).sum =
      if other = id then made.count (id, i) else 0 := by
  have reserved : made.count (id, i) = ((made.filter (·.1 = id)).map (·.2)).count i := by
    rw [List.count_eq_countP, List.count_eq_countP, List.countP_map, List.countP_filter]
    refine List.countP_congr fun m _ => ?_
    obtain ⟨other, j⟩ := m
    simp [and_comm]
  unfold requestFor
  split
  next none_eq =>
    split
    next eq =>
      subst eq
      rw [reserved, none_eq]
      rfl
    next => rfl
  next =>
    simp only [List.map_singleton, List.sum_singleton, Event.asks]
    split
    next eq =>
      subst eq
      rw [reserved, (Item.inDeliveryOrder_perm _).count_eq]
    next => rfl

/-- Of the requests to all peers, only those to one peer ask it for anything. -/
theorem sum_asks_requests (made : List (PeerId × Item)) {keys : List PeerId}
    (distinct : keys.Nodup) {id : PeerId} (listed : id ∈ keys) (i : Item) :
    ((keys.flatMap (requestFor made)).map (Event.asks id i)).sum = made.count (id, i) := by
  induction keys with
  | nil => cases listed
  | cons other rest ih =>
    rw [List.nodup_cons] at distinct
    rw [List.flatMap_cons, List.map_append, List.sum_append, sum_asks_requestFor]
    -- the keys are different, so that the peer is asked at one of them only
    rcases List.mem_cons.1 listed with rfl | listed
    · have others : ((rest.flatMap (requestFor made)).map (Event.asks id i)).sum = 0 := by
        refine List.sum_eq_zero_iff_forall_eq_nat.2 fun n mem => ?_
        obtain ⟨ev, hev, rfl⟩ := List.mem_map.1 mem
        obtain ⟨other, ho, hev⟩ := List.mem_flatMap.1 hev
        have ne : other ≠ id := fun eq => distinct.1 (eq ▸ ho)
        have zero := sum_asks_requestFor made other id i
        rw [if_neg ne, List.sum_eq_zero_iff_forall_eq_nat] at zero
        exact zero _ (List.mem_map_of_mem hev)
      rw [if_pos rfl, others, Nat.add_zero]
    · have ne : other ≠ id := fun eq => distinct.1 (eq ▸ listed)
      rw [if_neg ne, ih distinct.2 listed, Nat.zero_add]

/-- A reservation is owed. -/
theorem owed_reserveOne {e : Engine σ} (h : e.Exclusive) (made : List (PeerId × Item))
    {c : Candidate} (queued : c.item ∈ e.candidates.items) (id : PeerId) (i : Item) :
    (reserveOne (made, e) c).2.owed id i + made.count (id, i) =
      e.owed id i + (reserveOne (made, e) c).1.count (id, i) := by
  rcases reserveOne_cases made e c with eq | ⟨other, p, hp, -, eq⟩
  · rw [eq]
  · have fresh : p.reserved.contains c.item = false := by
      rw [Bool.eq_false_iff]
      intro held
      have reserved : e.hasReserved other c.item = true := by rw [hasReserved, hp]; exact held
      exact h.apart reserved queued
    have shown : (reserveOne (made, e) c).2.view (·.owes i) id =
        if id = other then some ((p.reserve c.item e.now).owes i) else e.view (·.owes i) id := by
      rw [eq]
      exact view_of_modify (e := e) (g := fun p => p.reserve c.item e.now) hp rfl id
    rw [owed, shown, eq, List.count_append, List.count_singleton]
    by_cases same : id = other
    · subst same
      rw [if_pos rfl, Option.getD_some, Peer.owes_reserve fresh, owed_eq hp]
      simp only [beq_iff_eq, Prod.mk.injEq, true_and]
      omega
    · rw [if_neg same]
      simp [owed, Ne.symm same]

/-- Reservations are owed. -/
theorem owed_foldl_reserveOne (order : List Candidate) {e : Engine σ} (h : e.Exclusive)
    (made : List (PeerId × Item)) (hashes : (order.map (·.item.hash)).Nodup)
    (queued : ∀ c ∈ order, c.item ∈ e.candidates.items) (id : PeerId) (i : Item) :
    (order.foldl reserveOne (made, e)).2.owed id i + made.count (id, i) =
      e.owed id i + (order.foldl reserveOne (made, e)).1.count (id, i) := by
  induction order generalizing e made with
  | nil => rfl
  | cons c rest ih =>
    rw [List.map_cons, List.nodup_cons] at hashes
    have here := queued c (List.mem_cons_self ..)
    have first := owed_reserveOne h made here id i
    have kept := h.reserveOne made here
    have later : ∀ d ∈ rest, d.item ∈ (reserveOne (made, e) c).2.candidates.items := by
      intro d hd
      have ne : d.item.hash ≠ c.item.hash := fun same =>
        hashes.1 (same ▸ List.mem_map_of_mem hd)
      exact mem_items_reserveOne (queued d (List.mem_cons_of_mem _ hd)) made ne
    have others := ih kept (reserveOne (made, e) c).1 hashes.2 later
    simp only [Prod.eta] at others
    rw [List.foldl_cons]
    omega

/-- The account of reservations. -/
theorem account_reserve {e : Engine σ} (h : e.Exclusive) {id : PeerId} {p : Peer}
    (hp : e.reserveAll.2.peers[id]? = some p) (i : Item) :
    (e.reserveAll.2.requestReserved e.reserveAll.1).owed id i + e.asks id i =
      e.owed id i + (e.reserveAll.2.requestReserved e.reserveAll.1).asks id i := by
  have reserved : e.reserveAll.2.owed id i + ([] : List (PeerId × Item)).count (id, i) =
      e.owed id i + e.reserveAll.1.count (id, i) :=
    owed_foldl_reserveOne _ h [] (nodup_inFetchOrder h.distinct)
      (fun c => mem_items_of_mem_inFetchOrder) id i
  have listed : id ∈ e.reserveAll.2.peers.keys :=
    Std.TreeMap.mem_keys.2 (Std.TreeMap.mem_iff_isSome_getElem?.2 (by rw [hp]; rfl))
  have requested := sum_asks_requests e.reserveAll.1 Std.TreeMap.nodup_keys listed i
  obtain ⟨peers, candidates, eq⟩ := reserveAll_eq e
  have before : e.reserveAll.2.asks id i = e.asks id i := by
    rw [eq]
    rfl
  rw [requestReserved_eq]
  simp only [asks, List.map_append, List.sum_append, requested] at before ⊢
  rw [before, List.count_nil, Nat.add_zero] at *
  show e.reserveAll.2.owed id i + _ = _
  omega

/-- The account of requests for blocks of a catch-up. -/
theorem account_requestBlocks {e : Engine σ} {other : PeerId} {p : Peer} {batch : List BlockId}
    (hp : e.peers[other]? = some p) (free : p.isBusy = false)
    (distinct : (batch.map (·.hash)).Nodup) (id : PeerId) (i : Item) :
    (e.requestBlocks other batch).owed id i + e.asks id i =
      e.owed id i + (e.requestBlocks other batch).asks id i := by
  -- a peer that is not busy owes no block of a catch-up, so that every request is a new one
  have nothing : p.blocksAsked.isEmpty = true := by
    simp only [Peer.isBusy, Bool.or_eq_false_iff, Bool.not_eq_false'] at free
    exact free.2
  have fresh : ∀ b ∈ batch, p.blocksAsked.contains b.hash = false := fun b _ =>
    Std.TreeMap.contains_of_isEmpty nothing
  have asked : (e.requestBlocks other batch).asks id i =
      e.asks id i + if other = id then (batch.map BlockId.item).count i else 0 := by
    obtain ⟨_, _, eq⟩ := requestBlocks_eq e other batch
    rw [eq, asks, List.map_append, List.sum_append]
    rfl
  rw [asked]
  by_cases same : other = id
  · subst same
    have after : (e.requestBlocks other batch).peers[other]? =
        some (p.requestBlocks batch e.now) := by
      rw [peers_requestBlocks, if_pos rfl, hp, Option.map_some]
    rw [owed_eq after, owed_eq hp, Peer.owes_requestBlocks e.now distinct fresh, if_pos rfl]
    omega
  · have unchanged : (e.requestBlocks other batch).owed id i = e.owed id i := by
      rw [owed, view, peers_requestBlocks, if_neg (Ne.symm same)]
      rfl
    rw [unchanged, if_neg same, Nat.add_zero]

/-! ## The account of a step -/

end Engine

/-- Whether an object is taken from a peer. -/
def Deed.Takes (d : Deed) (id : PeerId) (i : Item) : Prop :=
  match d with
  | .tookBlock other b => other = id ∧ b.id.item = i
  | .tookTransaction other t => other = id ∧ t.item = i
  | _ => False

instance (d : Deed) (id : PeerId) (i : Item) : Decidable (d.Takes id i) := by
  unfold Deed.Takes
  split <;> infer_instance

/-- Routine steps begin no session, ask for nothing, and deliver nothing. -/
theorem Deed.IsRoutine.quiet {d : Deed} (h : d.IsRoutine) (id : PeerId) (i : Item) :
    (d ≠ .opened id ∧ ¬ d.Takes id i) ∧ d ≠ .reserved ∧ ∀ id, d ≠ .requested id := by
  have nothing := h (.advanceFlood 0)
  cases d <;> simp_all [Operation.Allows, Deed.Takes]

/-- While a message is received nobody is asked for anything. -/
theorem Deed.quiet_of_receive {d : Deed} {id : PeerId} {m : Message}
    (allows : (Operation.receive id m).Allows d) : d ≠ .reserved ∧ ∀ id, d ≠ .requested id := by
  refine ⟨?_, fun other => ?_⟩
  · rintro rfl
    cases allows
  · rintro rfl
    rcases allows with eq | eq <;> cases eq

namespace Engine

variable {σ : Type} [Ledger σ]

omit [Ledger σ] in
/-- What a peer owes after one object was taken from it. -/
theorem TakesFrom.owed {id other : PeerId} {p q : Peer} {e e' : Engine σ} {i j : Item}
    (t : TakesFrom other q e e') (hp : e.peers[other]? = some p)
    (left : q.owes i = if j = i then 0 else p.owes i) :
    e'.owed id i = if other = id ∧ j = i then 0 else e.owed id i := by
  have requests := t.requests id
  by_cases same : id = other
  · subst same
    rw [if_pos rfl] at requests
    obtain ⟨q', hq', eq⟩ := Option.map_eq_some_iff.1 requests
    rw [owed_eq hq', Peer.owes_congr eq, left, owed_eq hp]
    simp
  · rw [if_neg same] at requests
    rw [owed_congr requests, if_neg fun h => same h.1.symm]

/-- **The account of a step.**  What a registered peer owes and what it was asked for before
is what it owed and what it is asked for now, but nothing is left of an object that it
delivers. -/
theorem Step.account {d : Deed} {e e' : Engine σ} (s : Step d e e') (x : e.Exclusive)
    (q : e.QueuesConsecutive) {id : PeerId} {p' : Peer} (hp' : e'.peers[id]? = some p')
    (old : d ≠ .opened id) (i : Item) :
    e'.owed id i + e.asks id i = (if d.Takes id i then 0 else e.owed id i) + e'.asks id i := by
  have silent (quiet : d ≠ .reserved ∧ ∀ id, d ≠ .requested id) :
      e'.asks id i = e.asks id i :=
    asks_of_appends s.appends fun ev shows => asks_eq_zero_of_shows shows id i quiet
  -- the account is closed where nothing is asked for and nothing is delivered
  have close (quiet : d ≠ .reserved ∧ ∀ id, d ≠ .requested id) (keeps : ¬ d.Takes id i)
      (same : e'.requestsOf id = e.requestsOf id) :
      e'.owed id i + e.asks id i =
        (if d.Takes id i then 0 else e.owed id i) + e'.asks id i := by
    rw [silent quiet, if_neg keeps, owed_congr same]
  by_cases keeps : d.KeepsRequests
  · refine close ⟨?_, fun _ => ?_⟩ ?_ ((s.sameRequests keeps).requests id)
    · rintro rfl
      exact keeps
    · rintro rfl
      exact keeps
    · cases d <;> first | exact fun taken => taken | exact False.elim keeps
  cases s with
  | @openSession _ other unknown =>
    have ne : id ≠ other := fun eq => old (eq ▸ rfl)
    refine close (by simp) (fun taken => taken) ?_
    exact (view_of_insert (f := Peer.requests) rfl id).trans (if_neg ne)
  | @remove _ other p r hp =>
    rw [peers_remove] at hp'
    split at hp'
    · cases hp'
    next ne =>
      refine close (by simp) (fun taken => taken) (view_congr ?_)
      rw [peers_remove, if_neg ne]
  | @takeIn _ other _ j =>
    refine close (by simp) (fun taken => taken) ?_
    rcases takeIn_cases e other j with eq | ⟨_, _, eq, -⟩
    · rw [eq]
    · rw [eq]
      exact view_modify (g := fun p => p.advertise j.hash e.now) rfl (fun _ => rfl) id
  | dropStale => exact close (by simp) (fun taken => taken) rfl
  | reserve =>
    rw [requestReserved_eq] at hp'
    exact account_reserve x hp' i
  | @arrive _ other p b hp asked =>
    obtain ⟨r, hr, -, t⟩ := Step.tookBlock (.arrive hp asked)
    cases hp.symm.trans hr
    rw [t.owed hp (p.owes_takeDelivery b.id i), silent (by simp)]
    rfl
  | @submitAnnounced _ _ other p b _ hp notAsked reserved done =>
    obtain ⟨r, hr, -, t⟩ := Step.tookBlock (.submitAnnounced hp notAsked reserved done)
    cases hp.symm.trans hr
    rw [t.owed hp (p.owes_takeDelivery b.id i), silent (by simp)]
    rfl
  | @submitTransaction _ other p t hp reserved =>
    obtain ⟨r, hr, -, took⟩ := Step.tookTransaction (.submitTransaction hp reserved)
    cases hp.symm.trans hr
    rw [took.owed hp (p.owes_takeTransaction t i), silent (by simp)]
    rfl
  | @requestBlocks _ other p batch hp needed free queued short unasked =>
    have stretch : Consecutive p.toFetch := q other p.plan (planOf_eq hp)
    exact account_requestBlocks hp free (stretch.nodup_hashes.sublist (queued.map _)) id i
  | refuse _ _ done =>
    refine close (by simp) (fun taken => taken) ?_
    rw [← (SameRequests.submitFetched done).requests id]
    refine view_congr (hp'.trans ?_)
    rw [peers_leaveOffenders, Option.filter_eq_some_iff] at hp'
    exact hp'.1.symm
  | welcome | restart | sendSummary | sendAnswer | finishCatchUp | takeUp | measure
  | announceSpread | serve | due | rest | absorb | suspend | dropOrphan | settle | forgetOutdated
  | advanceFlood | advanceClock | broadcast => exact absurd trivial keeps

/-! ## The account of a course -/

/-- What the account rests on: requests are exclusive, and queues are stretches. -/
structure Orderly (e : Engine σ) : Prop where
  exclusive : e.Exclusive
  queues : e.QueuesConsecutive

/-- Every step leaves an engine orderly. -/
theorem Orderly.step {d : Deed} {e e' : Engine σ} (s : Step d e e') (h : e.Orderly) :
    e'.Orderly :=
  ⟨.step s h.exclusive, .step s h.queues⟩

/-- In every run of an engine it stays orderly. -/
theorem Run.orderly {config : Config} {ledger : σ} {clock : Clock} {start e : Engine σ}
    {past : List (Moment σ)} (run : Run start past e)
    (started : Engine.start config ledger clock = .ok start) : e.Orderly :=
  run.invariant ⟨.start started, .start started⟩ Orderly.step fun _ _ h =>
    ⟨⟨h.exclusive.distinct, h.exclusive.apart, h.exclusive.single⟩, h.queues⟩

/-- **The account of a course.**  While no session with a peer begins and it delivers nothing,
it owes what it owed before and what it was asked for since. -/
theorem Course.account {allowed : Deed → Prop} {e e' : Engine σ} (c : Course allowed e e')
    (h : e.Orderly) {id : PeerId} {i : Item}
    (quiet : ∀ d, allowed d → d ≠ .opened id ∧ ¬ d.Takes id i) {p' : Peer}
    (hp' : e'.peers[id]? = some p') :
    (∃ p, e.peers[id]? = some p) ∧ e'.owed id i + e.asks id i = e.owed id i + e'.asks id i := by
  induction c generalizing p' with
  | refl => exact ⟨⟨p', hp'⟩, rfl⟩
  | tail first last ih =>
    obtain ⟨d, allows, last⟩ := last
    obtain ⟨old, keeps⟩ := quiet d allows
    obtain ⟨p, hp⟩ := last.registered hp' old
    obtain ⟨known, before⟩ := ih hp
    have here : Orderly _ := Course.preserves (fun _ => Orderly.step) first h
    have after := last.account here.exclusive here.queues hp' old i
    rw [if_neg keeps] at after
    exact ⟨known, by omega⟩

/-- Asking for nothing leaves the count of requests alone. -/
theorem Course.asks_eq {allowed : Deed → Prop} {e e' : Engine σ} (c : Course allowed e e')
    (quiet : ∀ d, allowed d → d ≠ .reserved ∧ ∀ id, d ≠ .requested id) (id : PeerId) (i : Item) :
    e'.asks id i = e.asks id i :=
  asks_of_appends c.appends fun _ ⟨d, allows, shows⟩ =>
    asks_eq_zero_of_shows shows id i (quiet d allows)

omit [Ledger σ] in
/-- The count of requests after a moment. -/
theorem asks_moment {P : Event → Prop} {m : Moment σ} (h : Appends P m.before m.after)
    (id : PeerId) (i : Item) : m.after.asks id i = m.before.asks id i + m.asked id i := by
  rw [asks, h.events.1, List.map_append, List.sum_append]
  rfl

/-- A peer that has just been registered owes nothing. -/
theorem owed_register {e : Engine σ} (h : e.Orderly) (id : PeerId) (height : UInt64) (i : Item) :
    (e.register id height).owed id i = 0 := by
  cases hp : (e.register id height).peers[id]? with
  | none => rw [owed, view, hp]; rfl
  | some p' =>
    have removed : (e.remove id none).Orderly :=
      (course_remove e id none).preserves (fun _ => Orderly.step) h
    have unknown : (e.remove id none).peers[id]? = none := by simp [peers_remove]
    have opened : ((e.remove id none).openSession id).Orderly :=
      .step (.openSession unknown) removed
    have rest := course_welcome e id height
    have account := (rest.account opened (fun d routine => (routine.quiet id i).1) hp).2
    rw [rest.asks_eq (fun d routine => (routine.quiet id i).2)] at account
    have fresh : ((e.remove id none).openSession id).owed id i = 0 := by
      rw [owed, view_of_insert rfl, if_pos rfl, Option.getD_some, Peer.owes_connected]
    omega

end Engine

end BlockRelay
