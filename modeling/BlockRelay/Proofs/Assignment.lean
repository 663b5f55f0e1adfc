/-
# Assigning candidates

Reserving candidates comes to an `Engine.Assignment`: the candidates that were announced recently
are decided about one after the other, each peer on which something is reserved is asked for it
once, and no peer is eligible for what is left.  No peer ever holds more reservations than it may
(`Engine.WithinCapacity`).
-/
import BlockRelay.Proofs.Decisions
import BlockRelay.Proofs.Numbering
import BlockRelay.Proofs.Quarantine

namespace BlockRelay.Engine

variable {σ : Type}

/-! ## The requests -/

/-- What is requested after the reservations `made`: one request to each peer on which something was
reserved. -/
def fetchRequests (e : Engine σ) (made : List (PeerId × Item)) : List (PeerId × List Item) :=
  (e.peers.keys.filter fun id => !(reservedOn made id).isEmpty).map fun id =>
    (id, Item.inDeliveryOrder (reservedOn made id))

/-- The requests become visible, and nothing else changes. -/
theorem requestReserved_eq_fetchRequests (e : Engine σ) (made : List (PeerId × Item)) :
    e.requestReserved made =
      { e with journal :=
          e.journal ++ (e.fetchRequests made).map fun r => .sent r.1 (.fetch r.2) } := by
  have one (id : PeerId) : requestFor made id =
      if !(reservedOn made id).isEmpty then
        [.sent id (.fetch (Item.inDeliveryOrder (reservedOn made id)))]
      else [] := by
    unfold requestFor reservedOn
    split
    next empty =>
      rw [empty]
      rfl
    next nonempty =>
      rw [List.isEmpty_eq_false_iff.2 nonempty]
      rfl
  rw [requestReserved_eq, fetchRequests, List.map_map]
  congr 2
  induction e.peers.keys with
  | nil => rfl
  | cons id rest ih =>
    rw [List.flatMap_cons, one, ih, List.filter_cons]
    split <;> rfl

/-- A request lists what was reserved on the peer, in the order of delivery. -/
theorem mem_fetchRequests {e : Engine σ} {made : List (PeerId × Item)} {id : PeerId}
    {items : List Item} : (id, items) ∈ e.fetchRequests made ↔
      (∃ p, e.peers[id]? = some p) ∧ reservedOn made id ≠ [] ∧
        Item.inDeliveryOrder (reservedOn made id) = items := by
  simp only [fetchRequests, List.mem_map, List.mem_filter, Bool.not_eq_true',
    List.isEmpty_eq_false_iff, Std.TreeMap.mem_keys, ← Std.TreeMap.contains_iff_mem,
    contains_iff_exists, Prod.mk.injEq]
  constructor
  · rintro ⟨_, ⟨known, nonempty⟩, rfl, eq⟩
    exact ⟨known, nonempty, eq⟩
  · rintro ⟨known, nonempty, eq⟩
    exact ⟨id, ⟨known, nonempty⟩, rfl, eq⟩

/-- No peer gets two requests. -/
theorem nodup_fetchRequests (e : Engine σ) (made : List (PeerId × Item)) :
    ((e.fetchRequests made).map (·.1)).Nodup := by
  rw [fetchRequests, List.map_map, Function.comp_def, List.map_id']
  exact Std.TreeMap.nodup_keys.sublist List.filter_sublist

/-! ## A whole call -/

/-- The effect of reserving candidates, which answers with `n`.  Every candidate that was announced
within `maxAge` is decided about, in the order of fetching, and each decision is the best one at
that point.  The candidates before are those that were announced too long ago, those that are
reserved and those that are left.  Each peer on which something is reserved is sent one request, for
just that, blocks by height before transactions in the order in which they were reserved, and it is
noted in the record of the peer with the time.  No peer is eligible for a candidate that is left,
and an immediate second call has no effect.  Nothing else changes. -/
structure Assignment (e : Engine σ) (maxAge : Nat) (decisions : List Decision)
    (requests : List (PeerId × List Item)) (n : Nat) (e' : Engine σ) : Prop where
  taken : (decisions.map (·.candidate)).Perm
    (e.candidates.entries.filter fun c => !c.isStale e.now maxAge)
  ordered : (decisions.map (·.candidate)).Pairwise fun c d => c.order d = .lt
  greedy : e.Greedy decisions
  split : e.candidates.entries.Perm
    (e.candidates.entries.filter (·.isStale e.now maxAge) ++
      (decisions.filter (·.server.isSome)).map (·.candidate) ++ e'.candidates.entries)
  left : e'.candidates =
    { e.candidates with
      entries := e.candidates.entries.filter fun c => ⟨c, none⟩ ∈ decisions }
  records : ∀ id : PeerId, e'.peers[id]? = (e.peers[id]?).map fun p =>
    p.reserveAll (reservedOn (reservations decisions) id) e.now
  loads : ∀ (id : PeerId) (p : Peer), e'.peers[id]? = some p →
    p.reserved.size = e.loadAfter (reservations decisions) id
  journal : e'.journal = e.journal ++ requests.map fun r => .sent r.1 (.fetch r.2)
  once : (requests.map (·.1)).Nodup
  asked : ∀ (id : PeerId) (items : List Item), (id, items) ∈ requests → items ≠ [] ∧
    items.Perm (reservedOn (reservations decisions) id) ∧ items.Pairwise Item.MayPrecede ∧
    items.filter (·.kind = .transaction) =
      (reservedOn (reservations decisions) id).filter (·.kind = .transaction)
  all : ∀ id : PeerId, reservedOn (reservations decisions) id ≠ [] → id ∈ requests.map (·.1)
  count : n = (reservations decisions).length
  maximal : ∀ c ∈ e'.candidates.entries, ∀ id, ¬ e'.EligibleAfter [] c.item.hash id
  again : e'.reserveCandidates = .ok (0, e')
  rest : e' = { e with peers := e'.peers, candidates := e'.candidates, journal := e'.journal }

/-- The engine without the candidates that were announced too long ago. -/
def withoutStale (e : Engine σ) (maxAge : Nat) : Engine σ :=
  { e with candidates := (e.candidates.dropStale e.now maxAge).2 }

/-- What a call does that does not return early. -/
theorem reserveCandidates_eq {e : Engine σ} {maxAge : Nat}
    (pending : e.candidates.isEmpty = false) (free : e.peers.values.all Peer.isBusy = false)
    (fetchable : e.config.net.fetchableFor = .ok maxAge) :
    e.reserveCandidates = .ok ((e.withoutStale maxAge).reserveAll.1.length,
      (e.withoutStale maxAge).reserveAll.2.requestReserved
        (e.withoutStale maxAge).reserveAll.1) := by
  unfold reserveCandidates
  rw [pending, free, Bool.or_self, if_neg Bool.false_ne_true]
  exact Checked.bind_eq_ok_iff.2 ⟨maxAge, fetchable, rfl⟩

/-- If no peer is eligible for any candidate, and none was announced too long ago, a call has no
effect. -/
theorem reserveCandidates_of_exhausted {e : Engine σ} {maxAge : Nat}
    (fetchable : e.config.net.fetchableFor = .ok maxAge)
    (recent : ∀ c ∈ e.candidates.entries, c.isStale e.now maxAge = false)
    (exhausted : ∀ c ∈ e.candidates.entries, ∀ id, ¬ e.EligibleAfter [] c.item.hash id) :
    e.reserveCandidates = .ok (0, e) := by
  by_cases early : (e.candidates.isEmpty || e.peers.values.all Peer.isBusy) = true
  · unfold reserveCandidates
    rw [if_pos early]
    rfl
  rw [Bool.not_eq_true, Bool.or_eq_false_iff] at early
  have kept : e.withoutStale maxAge = e := by
    have all : e.candidates.entries.filter (fun c => !c.isStale e.now maxAge) =
        e.candidates.entries := List.filter_eq_self.2 fun c mem => by rw [recent c mem]; rfl
    rw [withoutStale, CandidateQueue.dropStale, all]
  have unmoved : e.reserveAll = ([], e) :=
    foldl_reserveOne_of_unserved (fun c mem => chooseServer_eq_none
      (exhausted c (e.candidates.inFetchOrder_perm.mem_iff.1 mem))) []
  rw [reserveCandidates_eq early.1 early.2 fetchable, kept, unmoved,
    requestReserved_eq_fetchRequests]
  simp [fetchRequests, reservedOn]

/-- When all recent candidates are decided about, those are left that were to stay. -/
theorem Assigning.left_eq {e : Engine σ} {maxAge : Nat} {decisions : List Decision}
    {acc : List (PeerId × Item) × Engine σ}
    (h : Assigning (e.withoutStale maxAge) decisions acc)
    (exclusive : (e.withoutStale maxAge).Exclusive)
    (all : (decisions.map (·.candidate)).Perm (e.withoutStale maxAge).candidates.entries) :
    acc.2.candidates =
      { e.candidates with
        entries := e.candidates.entries.filter fun c => ⟨c, none⟩ ∈ decisions } := by
  have kept : acc.2.candidates =
      { e.candidates with entries := acc.2.candidates.entries } := by
    rw [h.candidates]
    rfl
  have entries : acc.2.candidates.entries =
      (e.candidates.entries.filter fun c => !c.isStale e.now maxAge).filter fun c =>
        c.item.hash ∉ (reservations decisions).map (·.2.hash) := by
    rw [h.candidates]
    rfl
  rw [List.filter_filter] at entries
  have same : acc.2.candidates.entries =
      e.candidates.entries.filter fun c => ⟨c, none⟩ ∈ decisions := by
    rw [entries]
    refine List.filter_congr fun c queued => ?_
    rw [Bool.eq_iff_iff, decide_eq_true_eq, ← h.mem_left_iff exclusive all, entries,
      List.mem_filter, and_iff_right queued]
  rw [← same]
  exact kept

/-- The effect of a call, from what is known when all candidates are decided about. -/
theorem Assigning.assignment {e : Engine σ} {maxAge : Nat} {decisions : List Decision}
    {acc : List (PeerId × Item) × Engine σ}
    (h : Assigning (e.withoutStale maxAge) decisions acc)
    (listed : decisions.map (·.candidate) = (e.withoutStale maxAge).candidates.inFetchOrder)
    (exclusive : (e.withoutStale maxAge).Exclusive)
    (numbered : (e.withoutStale maxAge).candidates.Numbered)
    (fetchable : e.config.net.fetchableFor = .ok maxAge) :
    Assignment e maxAge decisions (acc.2.fetchRequests acc.1) acc.1.length
      (acc.2.requestReserved acc.1) := by
  have taken : (decisions.map (·.candidate)).Perm (e.withoutStale maxAge).candidates.entries := by
    rw [listed]
    exact CandidateQueue.inFetchOrder_perm _
  have stays {c : Candidate} := h.mem_left_iff exclusive taken (c := c)
  have exhausted : ∀ c ∈ acc.2.candidates.entries, ∀ id,
      ¬ acc.2.EligibleAfter [] c.item.hash id := by
    intro c mem id
    rw [h.eligible_iff exclusive]
    exact h.greedy.exhausted (stays.1 mem) id
  rw [requestReserved_eq_fetchRequests]
  constructor
  case taken => exact taken
  case ordered =>
    rw [listed]
    exact numbered.ascending_inFetchOrder
  case greedy => exact h.greedy
  case split =>
    rw [List.append_assoc]
    exact (List.filter_append_perm _ _).symm.trans ((h.split exclusive taken).append_left _)
  case left => exact h.left_eq exclusive taken
  case records => exact h.peers
  case loads =>
    intro id p' hp'
    obtain ⟨p, hp, rfl⟩ := Option.map_eq_some_iff.1 ((h.peers id).symm.trans hp')
    exact h.size_reserved exclusive hp
  case journal =>
    rw [h.rest]
    rfl
  case once => exact nodup_fetchRequests _ _
  case asked =>
    intro id items mem
    obtain ⟨-, nonempty, rfl⟩ := mem_fetchRequests.1 mem
    rw [h.made] at nonempty ⊢
    have perm := Item.inDeliveryOrder_perm (reservedOn (reservations decisions) id)
    refine ⟨fun empty => nonempty ?_, perm, Item.mayPrecede_inDeliveryOrder _,
      Item.filter_transaction_inDeliveryOrder _⟩
    rw [empty] at perm
    exact perm.nil_eq.symm
  case all =>
    intro id nonempty
    obtain ⟨i, reserved⟩ := List.exists_mem_of_ne_nil _ nonempty
    obtain ⟨p, hp⟩ := h.greedy.registered reserved
    have known : ∃ p, acc.2.peers[id]? = some p := ⟨_, by rw [h.peers, hp, Option.map_some]⟩
    rw [← h.made] at nonempty
    exact List.mem_map_of_mem (mem_fetchRequests.2 ⟨known, nonempty, rfl⟩)
  case count => rw [h.made]
  case maximal => exact exhausted
  case again =>
    have fetchable' : acc.2.config.net.fetchableFor = .ok maxAge := by
      rw [h.config]
      exact fetchable
    have recent (c : Candidate) (mem : c ∈ acc.2.candidates.entries) :
        c.isStale acc.2.now maxAge = false := by
      have queued := taken.mem_iff.1 (List.mem_map_of_mem (stays.1 mem))
      rw [h.now]
      show c.isStale e.now maxAge = false
      simpa using (List.mem_filter.1 queued).2
    exact reserveCandidates_of_exhausted fetchable' recent exhausted
  case rest =>
    rw [h.rest]
    rfl

/-- **The effect of a call.** -/
theorem exists_assignment {e : Engine σ} {maxAge : Nat} (exclusive : e.Exclusive)
    (numbered : e.candidates.Numbered) (pending : e.candidates.isEmpty = false)
    (free : e.peers.values.all Peer.isBusy = false)
    (fetchable : e.config.net.fetchableFor = .ok maxAge) :
    ∃ decisions requests n e', e.reserveCandidates = .ok (n, e') ∧
      Assignment e maxAge decisions requests n e' := by
  have exclusive' : (e.withoutStale maxAge).Exclusive :=
    exclusive.shrink (e.candidates.items_dropStale_sublist e.now maxAge) fun _ _ held => held
  obtain ⟨decisions, listed, assigning⟩ :=
    assigning_foldl exclusive' (List.prefix_refl (e.withoutStale maxAge).candidates.inFetchOrder)
  exact ⟨decisions, _, _, _, reserveCandidates_eq pending free fetchable,
    assigning.assignment listed exclusive' (numbered.call (.dropStale _ e.now maxAge)) fetchable⟩

/-! ## How much is reserved -/

/-- No registered peer holds more reservations than it may. -/
def WithinCapacity (e : Engine σ) : Prop :=
  ∀ (id : PeerId) (p : Peer), e.peers[id]? = some p → p.reserved.size ≤ e.config.net.maxReserved

/-- A candidate is reserved only on a peer with room for it. -/
theorem WithinCapacity.reserveOne {e : Engine σ} (h : e.WithinCapacity)
    (made : List (PeerId × Item)) (c : Candidate) :
    (reserveOne (made, e) c).2.WithinCapacity := by
  rcases reserveOne_cases made e c with eq | ⟨id, p, hp, serves, eq⟩ <;> rw [eq]
  · exact h
  · intro other q hq
    rw [peers_modifyPeer] at hq
    split at hq
    next same =>
      subst same
      rw [hp] at hq
      cases hq
      have room : p.reserved.size < e.config.net.maxReserved := by
        simp only [canServe, Bool.and_eq_true, decide_eq_true_eq] at serves
        exact serves.2
      exact Std.TreeMap.size_insert_le.trans room
    next => exact h other q hq

/-- Reserving as many candidates as possible. -/
theorem WithinCapacity.reserveAll {e : Engine σ} (h : e.WithinCapacity) :
    e.reserveAll.2.WithinCapacity := by
  suffices ∀ (order : List Candidate) (made : List (PeerId × Item)) (e : Engine σ),
      e.WithinCapacity → (order.foldl Engine.reserveOne (made, e)).2.WithinCapacity from
    this _ [] e h
  intro order
  induction order with
  | nil => exact fun _ _ h => h
  | cons c rest ih => exact fun made _ h => ih _ _ (h.reserveOne made c)

variable [Ledger σ]

/-- Only reserving candidates adds to what is reserved on a peer. -/
theorem Revision.size_reserved_le {e : Engine σ} {id : PeerId} {d : Deed} {p p' : Peer}
    (r : Revision e id d p p') (other : d ≠ .reserved) :
    p'.reserved.size ≤ p.reserved.size := by
  cases r with
  | reserved => exact absurd rfl other
  | tookBlock | tookTransaction => exact Std.TreeMap.size_erase_le
  | announced | joined | requested | settled | refused => simp
  | same | welcomed | restarted | summarized | answered | finished | noted | served | accepted
  | forgot => exact Nat.le_refl _

/-- **No step reserves more on a peer than it may hold.** -/
theorem WithinCapacity.step {d : Deed} {e e' : Engine σ} (s : Step d e e')
    (h : e.WithinCapacity) : e'.WithinCapacity := by
  by_cases reserves : d = .reserved
  · subst reserves
    cases s with
    | reserve =>
      rw [requestReserved_eq]
      exact h.reserveAll
  · intro id p' hp'
    rw [s.config_eq]
    rcases s.revised id p' hp' with ⟨-, rfl⟩ | ⟨p, hp, revision⟩
    · exact Nat.zero_le _
    · exact (revision.size_reserved_le reserves).trans (h id p hp)

/-- **Candidates are assigned to the best servers.**  In every state that is reached, reserving
candidates has its effect if there are candidates and some peer is not busy.  That the limit on the
age of candidates is a word was checked when the engine started.  And no registered peer ever holds
more reservations than it may. -/
theorem assigned_to_best {config : Config} {ledger : σ} {clock : Clock} {start e : Engine σ}
    {past : List (Moment σ)} (started : Engine.start config ledger clock = .ok start)
    (run : Run start past e) :
    (e.candidates.isEmpty = false → e.peers.values.all Peer.isBusy = false →
      ∃ maxAge decisions requests n e', config.net.fetchableFor = .ok maxAge ∧
        e.reserveCandidates = .ok (n, e') ∧ Assignment e maxAge decisions requests n e') ∧
      ∀ (id : PeerId) (p : Peer), e.peers[id]? = some p →
        p.reserved.size ≤ config.net.maxReserved := by
  have same := run.config_eq started
  constructor
  · intro pending free
    obtain ⟨maxAge, fetchable⟩ : ∃ maxAge, config.net.fetchableFor = .ok maxAge := by
      obtain ⟨_, slots, -⟩ := Checked.bind_eq_ok_iff.1 started
      obtain ⟨span, product, -⟩ := Checked.bind_eq_ok_iff.1 slots
      rw [Checked.mul_eq_ok_iff, Nat.mul_comm] at product
      exact ⟨span, Checked.mul_eq_ok_iff.2 product⟩
    obtain ⟨decisions, requests, n, e', done, assignment⟩ :=
      exists_assignment (run.exclusive started) (run.numbered started) pending free
        (same.symm ▸ fetchable)
    exact ⟨maxAge, decisions, requests, n, e', fetchable, done, assignment⟩
  · rw [← same]
    refine run.invariant (I := WithinCapacity) (fun id p hp => ?_) (fun s h => h.step s)
      fun _ _ h => h
    rw [peers_of_start started] at hp
    cases hp

/-- Two peers that may hold one reservation each announced the same three transactions: one
transaction is reserved on each of them, and one is left. -/
theorem assigned_of_three_announced :
    ∃ (start e : Engine ChainLedger) (past : List (Moment ChainLedger)) (maxAge : Nat)
        (decisions : List Decision) (requests : List (PeerId × List Item))
        (e' : Engine ChainLedger),
      Engine.start { net := { maxReserved := 1 } } (.ofGenesis (.genesis 0) 0 10) {} = .ok start ∧
        Run start past e ∧ e.reserveCandidates = .ok (2, e') ∧
          Assignment e maxAge decisions requests 2 e' ∧ e'.candidates.size = 1 := by
  obtain ⟨start, past, e, started, run, checked⟩ := exists_run { net := { maxReserved := 1 } }
    (ChainLedger.ofGenesis (.genesis 0) 0 10) {}
    ([⟨1⟩, ⟨2⟩].flatMap fun id => [.register id 0,
      .receive id (.announce ([7, 8, 9].map fun n => .transaction ⟨0, 0, 0, n⟩))])
    (fun (_, e) => e.candidates.isEmpty = false ∧ e.peers.values.all Peer.isBusy = false ∧
      e.reserveCandidates.toOption.any fun r => r.1 = 2 ∧ r.2.candidates.size = 1)
    (by decide +kernel)
  simp only [decide_eq_true_eq] at checked
  obtain ⟨pending, free, shown⟩ := checked
  obtain ⟨maxAge, decisions, requests, n, e', -, done, assignment⟩ :=
    (assigned_to_best started run).1 pending free
  rw [done] at shown
  obtain ⟨two, one⟩ : n = 2 ∧ e'.candidates.size = 1 := by simpa [Except.toOption] using shown
  subst two
  exact ⟨start, e, past, maxAge, decisions, requests, e', started, run, done, assignment, one⟩

end BlockRelay.Engine
