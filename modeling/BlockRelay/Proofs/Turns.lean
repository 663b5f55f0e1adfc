/-
# Turns without work

In every step of a network an engine has a turn at its chores: it announces, reserves candidates,
asks for blocks, and applies waiting blocks, in this order.  A turn in which every chore answers
with zero (`Engine.QuietTurn`) says nothing and leaves the ledger alone, but it may change what the
next turn looks at.  Afterwards nothing is left to announce, to reserve or to apply
(`QuietTurn.resting_iff`), and only a pass that asks for blocks may have become possible
(`Engine.Poised`).

The reason is the order of the last two chores.  A pass over the waiting blocks that applies none
of them may still lift the suspension, or drop a block whose origin has left (`Engine.Frees`), and
the chore that asks for blocks had its turn before that (`QuietTurn.frees_of_poised`).  An engine
that is not poised stays as it is in all further turns (`Resting.exists_turn`).
-/
import Mathlib.Algebra.Order.BigOperators.Group.List
import BlockRelay.Proofs.Assignment
import BlockRelay.Proofs.Leading
import BlockRelay.Proofs.Passes
import BlockRelay.Proofs.Spreading

namespace BlockRelay.Engine

variable {σ : Type} {e e' : Engine σ}

/-! ## Announcing -/

/-- If nothing is announced, there is no announcement. -/
theorem announcements_eq_nil (nothing : e.announceSpread.1 = 0) :
    e.announcements e.spread.toList = [] := by
  rw [announceSpread, announceListed_eq_announcements] at nothing
  refine List.eq_nil_iff_forall_not_mem.2 fun a mem => (mem_announcements.1 mem).1 ?_
  have empty : a.2.length = 0 :=
    List.sum_eq_zero_iff.1 nothing _ (List.mem_map_of_mem (f := fun a => a.2.length) mem)
  exact List.length_eq_zero_iff.1 empty

/-- Without an announcement, what was to be announced is forgotten, and no record changes. -/
theorem announceSpread_of_announcements_eq_nil (nothing : e.announcements e.spread.toList = []) :
    ∃ peers, e.announceSpread = (0, { e with spread := ∅, peers := peers }) ∧
      ∀ id : PeerId, peers[id]? = e.peers[id]? := by
  have silent : ∀ (id : PeerId) (p : Peer), e.peers[id]? = some p →
      newsFor e.spread.toList p = [] := fun id p hp =>
    newsFor_of_not_mem (by rw [nothing]; exact List.not_mem_nil) hp
  obtain ⟨n, peers, announced, same⟩ := announceSpread_of_silent silent
  have count := congrArg Prod.fst (announceListed_eq_announcements e e.spread.toList)
  rw [← announceSpread, announced, nothing] at count
  obtain rfl : n = 0 := count
  exact ⟨peers, announced, same⟩

/-- A turn at announcing that announces nothing. -/
theorem announceSpread_eq_zero (done : e.announceSpread = (0, e')) :
    ∃ peers, e' = { e with spread := ∅, peers := peers } ∧
      ∀ id : PeerId, peers[id]? = e.peers[id]? := by
  obtain ⟨peers, eq, same⟩ := announceSpread_of_announcements_eq_nil
    (announcements_eq_nil (congrArg Prod.fst done))
  rw [done] at eq
  exact ⟨peers, (Prod.mk.inj eq).2, same⟩

/-- There is no announcement when there is nothing to announce. -/
theorem announcements_of_emptied (emptied : e.spread = ∅) :
    e.announcements e.spread.toList = [] := by
  refine List.eq_nil_iff_forall_not_mem.2 fun a mem => ?_
  obtain ⟨nonempty, p, -, news⟩ := mem_announcements.1 mem
  rw [emptied] at news
  exact nonempty (news.symm.trans (newsFor_nil p))

/-! ## Reserving candidates -/

/-- Whether reserving candidates has no effect: there are no candidates, or everybody is busy, or
no candidate was announced too long ago and nobody is eligible for one. -/
def Exhausted (e : Engine σ) : Prop :=
  (e.candidates.isEmpty || e.peers.values.all Peer.isBusy) = true ∨
    ∃ maxAge, e.config.net.fetchableFor = .ok maxAge ∧ ∀ c ∈ e.candidates.entries,
      c.isStale e.now maxAge = false ∧ ∀ id, ¬ e.EligibleAfter [] c.item.hash id

/-- Then it has no effect. -/
theorem Exhausted.reserveCandidates (h : e.Exhausted) : e.reserveCandidates = .ok (0, e) := by
  rcases h with early | ⟨maxAge, fetchable, stuck⟩
  · unfold Engine.reserveCandidates
    rw [if_pos early]
    rfl
  · exact reserveCandidates_of_exhausted fetchable (fun c mem => (stuck c mem).1)
      fun c mem => (stuck c mem).2

/-- It depends on the candidates, on the records of the peers, on the configuration and on the
time. -/
theorem Exhausted.congr (h : e.Exhausted) (config : e'.config = e.config)
    (candidates : e'.candidates = e.candidates) (now : e'.now = e.now)
    (peers : ∀ id : PeerId, e'.peers[id]? = e.peers[id]?) : e'.Exhausted := by
  have busy : e'.peers.values.all Peer.isBusy = e.peers.values.all Peer.isBusy := by
    rw [Bool.eq_iff_iff]
    simp only [List.all_eq_true, mem_values_peers, peers]
  unfold Exhausted
  simp only [eligibleAfter_nil_iff, config, candidates, now, peers, busy]
  simpa only [Exhausted, eligibleAfter_nil_iff] using h

/-- Deciding about more candidates takes back no reservation. -/
theorem length_le_foldl_reserveOne (order : List Candidate) (made : List (PeerId × Item))
    (e : Engine σ) : made.length ≤ (order.foldl reserveOne (made, e)).1.length := by
  induction order generalizing made e with
  | nil => exact Nat.le_refl _
  | cons c rest ih =>
    rw [List.foldl_cons]
    rcases reserveOne_cases made e c with eq | ⟨id, p, -, -, eq⟩ <;> rw [eq]
    · exact ih made e
    · refine Nat.le_trans ?_ (ih ..)
      rw [List.length_append]
      exact Nat.le_add_right ..

/-- If nothing is reserved, nobody is eligible for any of the candidates, and nothing changes. -/
theorem foldl_reserveOne_of_length {order : List Candidate} (made : List (PeerId × Item))
    (nothing : (order.foldl reserveOne (made, e)).1.length = made.length) :
    order.foldl reserveOne (made, e) = (made, e) ∧
      ∀ c ∈ order, ∀ id, ¬ e.EligibleAfter [] c.item.hash id := by
  suffices unserved : ∀ c ∈ order, e.chooseServer c.item.hash = none by
    refine ⟨foldl_reserveOne_of_unserved unserved made, fun c mem => ?_⟩
    have best := e.best_chooseServer c
    rwa [unserved c mem] at best
  induction order with
  | nil => exact List.forall_mem_nil _
  | cons c rest ih =>
    rw [List.foldl_cons] at nothing
    cases chosen : e.chooseServer c.item.hash with
    | none =>
      simp only [reserveOne, chosen] at nothing
      exact List.forall_mem_cons.2 ⟨chosen, ih nothing⟩
    | some id =>
      -- the reservation is one of those that are made
      simp only [reserveOne, chosen] at nothing
      have grown := length_le_foldl_reserveOne rest (made ++ [(id, c.item)])
        ({ e with candidates := e.candidates.erase c.item.hash }.modifyPeer id fun p =>
          p.reserve c.item e.now)
      rw [List.length_append] at grown
      exact absurd (nothing ▸ grown) (Nat.not_succ_le_self _)

/-- A call that reserves nothing drops old candidates, and after it no call has an effect. -/
theorem exhausted_of_reserveCandidates (done : e.reserveCandidates = .ok (0, e')) :
    e'.Exhausted ∧ ∃ candidates, e' = { e with candidates } := by
  by_cases early : (e.candidates.isEmpty || e.peers.values.all Peer.isBusy) = true
  · unfold Engine.reserveCandidates at done
    rw [if_pos early] at done
    cases done
    exact ⟨.inl early, _, rfl⟩
  obtain ⟨maxAge, fetchable⟩ : ∃ maxAge, e.config.net.fetchableFor = .ok maxAge := by
    unfold Engine.reserveCandidates at done
    rw [if_neg early] at done
    obtain ⟨maxAge, fetchable, -⟩ := Checked.bind_eq_ok_iff.1 done
    exact ⟨maxAge, fetchable⟩
  rw [Bool.not_eq_true, Bool.or_eq_false_iff] at early
  rw [reserveCandidates_eq early.1 early.2 fetchable] at done
  obtain ⟨nothing, rfl⟩ := Prod.mk.inj (Except.ok.inj done)
  obtain ⟨unmoved, stuck⟩ := foldl_reserveOne_of_length [] nothing
  have unmoved : (e.withoutStale maxAge).reserveAll = ([], e.withoutStale maxAge) := unmoved
  have silent : (e.withoutStale maxAge).requestReserved [] = e.withoutStale maxAge := by
    rw [requestReserved_eq_fetchRequests]
    simp [fetchRequests, reservedOn]
  rw [unmoved, silent]
  refine ⟨.inr ⟨maxAge, fetchable, fun c mem => ⟨?_, fun id => ?_⟩⟩, _, rfl⟩
  · show c.isStale e.now maxAge = false
    simpa using (List.mem_filter.1 mem).2
  · exact stuck c ((CandidateQueue.inFetchOrder_perm _).mem_iff.2 mem) id

/-! ## Asking for blocks -/

/-- Whether the next turn at asking for blocks asks for some: that is due and not suspended, and
there is somebody whom a pass would ask. -/
structure Poised (e : Engine σ) : Prop where
  allowed : e.suspended = false
  due : e.issueDue = true
  someone : ∃ (id : PeerId) (p : Peer), e.peers[id]? = some p ∧ e.CanAsk p

/-- It depends on the two flags, on the records of the peers, on what was asked for, on the
configuration and on the time. -/
theorem Poised.congr (h : e.Poised) (suspended : e'.suspended = e.suspended)
    (issueDue : e.issueDue = true → e'.issueDue = true) (config : e'.config = e.config)
    (requested : e'.requested = e.requested) (now : e'.now = e.now)
    (peers : ∀ id : PeerId, e'.peers[id]? = e.peers[id]?) : e'.Poised := by
  obtain ⟨id, p, hp, asks⟩ := h.someone
  refine ⟨suspended.trans h.allowed, issueDue h.due, id, p, (peers id).trans hp, ?_⟩
  unfold CanAsk at asks ⊢
  rwa [config, requested, now]

/-- A poised engine asks for some blocks. -/
theorem Poised.issueTick_ne_zero (h : e.Poised) : e.issueTick.1 ≠ 0 := by
  obtain ⟨id, p, hp, asks⟩ := h.someone
  unfold issueTick
  rw [h.allowed, if_neg Bool.false_ne_true, if_pos h.due, ne_eq, issueRequests_eq_zero_iff]
  exact fun nobody => nobody id p hp asks

/-- Any other one asks for none.  What is due stays due only as long as it is suspended. -/
theorem issueTick_of_not_poised (h : ¬ e.Poised) :
    ∃ issueDue, e.issueTick = (0, { e with issueDue }) ∧
      issueDue = (e.suspended && e.issueDue) := by
  unfold issueTick
  split
  next suspended => exact ⟨e.issueDue, rfl, by rw [suspended, Bool.true_and]⟩
  next allowed =>
    rw [Bool.not_eq_true] at allowed
    have ended : (e.suspended && e.issueDue) = false := by rw [allowed, Bool.false_and]
    split
    next due =>
      refine ⟨false, issueRequests_of_silent fun id p hp asks => h ?_, ended.symm⟩
      exact ⟨allowed, due, id, p, hp, asks⟩
    next rested =>
      rw [Bool.not_eq_true] at rested
      exact ⟨e.issueDue, rfl, rested.trans ended.symm⟩

/-- A turn at asking for blocks that asks for none. -/
theorem issueTick_eq_zero (done : e.issueTick = (0, e')) :
    ¬ e.Poised ∧ ∃ issueDue, e' = { e with issueDue } ∧
      issueDue = (e.suspended && e.issueDue) := by
  have unpoised : ¬ e.Poised := fun poised => poised.issueTick_ne_zero (congrArg Prod.fst done)
  obtain ⟨issueDue, eq, left⟩ := issueTick_of_not_poised unpoised
  rw [done] at eq
  exact ⟨unpoised, issueDue, (Prod.mk.inj eq).2, left⟩

/-! ## Applying blocks -/

/-- Whether a pass over the waiting blocks is due that may make it possible to ask for blocks
without applying any: the suspension is lifted, as few enough blocks wait, or the origin of a
waiting block has left, so that the block is dropped. -/
def Frees (e : Engine σ) : Prop :=
  e.applyDue = true ∧
    (e.suspended = true ∧ e.absorb.waiting.size < e.config.sync.backlogCap ∨
      ∃ (hash : Hash) (w : WaitingBlock), e.absorb.waiting[hash]? = some w ∧
        e.isRegistered w.origin = false)

variable [Ledger σ]

/-- If nothing is submitted, waiting blocks are dropped at most. -/
theorem Handles.eq_of_unsubmitted {list : List (Handling σ)} (h : Handles e list e')
    (none : submittedIds list = []) :
    ∃ requested waiting issueDue,
      e' = { e with requested := requested, waiting := waiting, issueDue := issueDue } := by
  induction h with
  | nil e => exact ⟨e.requested, e.waiting, e.issueDue, rfl⟩
  | cons legal _ ih =>
    cases legal with
    | submit => cases none
    | drop =>
      obtain ⟨requested, waiting, issueDue, eq⟩ := ih none
      exact ⟨requested, waiting, issueDue, eq⟩

/-- The first block that is taken, if it is not submitted, has lost its origin. -/
theorem Handles.orphan_or_eq {list : List (Handling σ)} (h : Handles e list e')
    (none : submittedIds list = []) :
    (∃ (hash : Hash) (w : WaitingBlock), e.waiting[hash]? = some w ∧
      e.isRegistered w.origin = false) ∨ e' = e := by
  cases h with
  | nil => exact .inr rfl
  | cons legal =>
    cases legal with
    | submit => cases none
    | drop hw gone => exact .inl ⟨_, _, hw, gone⟩

/-- A pass that applies nothing drops waiting blocks at most. -/
theorem handles_of_applyWaiting (done : e.applyWaiting = .ok (0, e')) :
    ∃ list, Handles e.absorb.resume list e' ∧ submittedIds list = [] := by
  obtain ⟨s, ran, done⟩ := Checked.bind_eq_ok_iff.1 done
  obtain ⟨count, state⟩ := Prod.mk.inj (Except.ok.inj done)
  obtain ⟨list, handles, total⟩ := exists_takes_run ran
  -- the budget is positive, so that it is not used up
  rw [if_neg (by omega)] at state
  refine ⟨list, state ▸ handles, List.length_eq_zero_iff.1 ?_⟩
  exact (Nat.zero_add _).symm.trans (total.symm.trans count)

omit [Ledger σ] in
/-- The suspension is lifted if it can be, or a pass begins as it is. -/
theorem resume_cases (e : Engine σ) :
    e.suspended = true ∧ e.waiting.size < e.config.sync.backlogCap ∨ e.resume = e := by
  unfold resume
  split
  next lifted => exact .inl (by simpa using lifted)
  next => exact .inr rfl

/-- **A turn at applying blocks that applies none.**  No such turn is due any more.  Without
anything that could make it possible, it is not made possible to ask for blocks. -/
theorem applyTick_eq_zero (done : e.applyTick = .ok (0, e')) :
    ∃ requested arrived waiting issueDue suspended,
      e' = { e with
        requested := requested
        arrived := arrived
        waiting := waiting
        issueDue := issueDue
        applyDue := false
        suspended := suspended } ∧
      (e.Frees ∨ issueDue = e.issueDue ∧ suspended = e.suspended) := by
  unfold applyTick at done
  split at done
  next due =>
    obtain ⟨list, handles, none⟩ := handles_of_applyWaiting done
    obtain ⟨requested, waiting, issueDue, eq⟩ := handles.eq_of_unsubmitted none
    obtain ⟨suspended, resumed⟩ := resume_eq (absorb { e with applyDue := false })
    rw [resumed] at eq
    refine ⟨requested, [], waiting, issueDue, suspended, eq, ?_⟩
    rcases handles.orphan_or_eq none with ⟨hash, w, waits, gone⟩ | same
    · rw [resumed] at waits gone
      exact .inl ⟨due, .inr ⟨hash, w, waits, gone⟩⟩
    · rcases resume_cases (absorb { e with applyDue := false }) with lifted | unlifted
      · exact .inl ⟨due, .inl lifted⟩
      · have same := eq.symm.trans (same.trans unlifted)
        exact .inr ⟨congrArg Engine.issueDue same, congrArg Engine.suspended same⟩
  next rested =>
    cases done
    rw [Bool.not_eq_true] at rested
    refine ⟨e.requested, e.arrived, e.waiting, e.issueDue, e.suspended, ?_, .inr ⟨rfl, rfl⟩⟩
    rw [← rested]

/-! ## Turns -/

/-- Operations that an engine carries out one after the other, each of which answers with zero. -/
inductive Quietly : List Operation → Engine σ → Engine σ → Prop where
  | nil (e : Engine σ) : Quietly [] e e
  | cons {e e₁ e' : Engine σ} {op : Operation} {ops : List Operation} :
    e.perform op = .ok (.count 0, e₁) → Quietly ops e₁ e' → Quietly (op :: ops) e e'

/-- A turn at the chores in which each of them answers with zero. -/
def QuietTurn (e e' : Engine σ) : Prop := Quietly StepNetwork.chores e e'

omit [Ledger σ] in
/-- A number that is answered is zero. -/
theorem counted_eq_zero_iff {r : Nat × Engine σ} :
    perform.counted r = (.count 0, e) ↔ r = (0, e) := by
  unfold perform.counted
  rw [Prod.ext_iff, Prod.ext_iff, Outcome.count.injEq]

omit [Ledger σ] in
/-- A number that is computed and answered is zero. -/
theorem map_counted_eq_zero_iff {r : Checked (Nat × Engine σ)} :
    r.map perform.counted = .ok (.count 0, e) ↔ r = .ok (0, e) := by
  cases r with
  | error => exact ⟨nofun, nofun⟩
  | ok r =>
    rw [Except.map, Except.ok.injEq, Except.ok.injEq]
    exact counted_eq_zero_iff

/-- A chore answers with a number. -/
theorem exists_count_of_chore {op : Operation} (mem : op ∈ StepNetwork.chores) {answer : Outcome}
    (done : e.perform op = .ok (answer, e')) : ∃ n, answer = .count n := by
  have computed {r : Checked (Nat × Engine σ)}
      (done : r.map perform.counted = .ok (answer, e')) : ∃ n, answer = .count n := by
    cases r <;> cases done
    exact ⟨_, rfl⟩
  simp only [StepNetwork.chores, List.mem_cons, List.not_mem_nil, or_false] at mem
  rcases mem with rfl | rfl | rfl | rfl
  · cases done
    exact ⟨_, rfl⟩
  · exact computed done
  · cases done
    exact ⟨_, rfl⟩
  · exact computed done

/-- A chore that answers with zero says nothing. -/
theorem journal_of_chore {op : Operation} (mem : op ∈ StepNetwork.chores)
    (done : e.perform op = .ok (.count 0, e')) : e'.journal = e.journal := by
  simp only [StepNetwork.chores, List.mem_cons, List.not_mem_nil, or_false] at mem
  rcases mem with rfl | rfl | rfl | rfl
  · obtain ⟨_, rfl, -⟩ := announceSpread_eq_zero (counted_eq_zero_iff.1 (Except.ok.inj done))
    rfl
  · obtain ⟨-, _, rfl⟩ := exhausted_of_reserveCandidates (map_counted_eq_zero_iff.1 done)
    rfl
  · obtain ⟨-, _, rfl, -⟩ := issueTick_eq_zero (counted_eq_zero_iff.1 (Except.ok.inj done))
    rfl
  · obtain ⟨_, _, _, _, _, rfl, -⟩ := applyTick_eq_zero (map_counted_eq_zero_iff.1 done)
    rfl

/-- The chores of a turn without work. -/
theorem quietTurn_iff :
    e.QuietTurn e' ↔ ∃ e₁ e₂ e₃, e.announceSpread = (0, e₁) ∧
      e₁.reserveCandidates = .ok (0, e₂) ∧ e₂.issueTick = (0, e₃) ∧
        e₃.applyTick = .ok (0, e') := by
  constructor
  · rintro (_ | ⟨announced, _ | ⟨reserved, _ | ⟨asked, _ | ⟨applied, ⟨⟩⟩⟩⟩⟩)
    exact ⟨_, _, _, counted_eq_zero_iff.1 (Except.ok.inj announced),
      map_counted_eq_zero_iff.1 reserved, counted_eq_zero_iff.1 (Except.ok.inj asked),
      map_counted_eq_zero_iff.1 applied⟩
  · rintro ⟨e₁, e₂, e₃, announced, reserved, asked, applied⟩
    exact .cons (congrArg Except.ok (counted_eq_zero_iff.2 announced))
      (.cons (map_counted_eq_zero_iff.2 reserved)
        (.cons (congrArg Except.ok (counted_eq_zero_iff.2 asked))
          (.cons (map_counted_eq_zero_iff.2 applied) (.nil e'))))

/-- An engine that has nothing to do: there is nothing to announce or to reserve, it is not poised
to ask for blocks, and no pass over the waiting blocks is due. -/
structure Resting (e : Engine σ) : Prop where
  spread : e.spread = ∅
  candidates : e.Exhausted
  issue : ¬ e.Poised
  apply : e.applyDue = false

namespace QuietTurn

/-- **What happens before blocks are applied.**  The spread set is forgotten, old candidates may be
dropped, and a pass that asks for blocks stays due only as long as it is suspended; the engine was
not poised for it. -/
theorem before_apply (h : e.QuietTurn e') :
    ¬ e.Poised ∧ ∃ peers candidates issueDue e₃,
      e₃ = { e with
        spread := ∅
        peers := peers
        candidates := candidates
        issueDue := issueDue } ∧
      (∀ id : PeerId, peers[id]? = e.peers[id]?) ∧ e₃.Exhausted ∧
      issueDue = (e.suspended && e.issueDue) ∧ e₃.applyTick = .ok (0, e') := by
  obtain ⟨e₁, e₂, e₃, announced, reserved, asked, applied⟩ := quietTurn_iff.1 h
  obtain ⟨peers, rfl, same⟩ := announceSpread_eq_zero announced
  obtain ⟨exhausted, candidates, rfl⟩ := exhausted_of_reserveCandidates reserved
  obtain ⟨unpoised, issueDue, rfl, left⟩ := issueTick_eq_zero asked
  refine ⟨fun poised => unpoised (poised.congr rfl id rfl rfl rfl same), peers, candidates,
    issueDue, _, rfl, same, exhausted.congr rfl rfl rfl fun _ => rfl, left, applied⟩

/-- A turn without work says nothing, and leaves the ledger alone. -/
theorem silent (h : e.QuietTurn e') : e'.journal = e.journal ∧ e'.ledger = e.ledger := by
  obtain ⟨-, peers, candidates, issueDue, e₃, rfl, -, -, -, applied⟩ := h.before_apply
  obtain ⟨_, _, _, _, _, rfl, -⟩ := applyTick_eq_zero applied
  exact ⟨rfl, rfl⟩

/-- **After a turn without work** an engine has nothing to do, unless it is poised to ask for
blocks. -/
theorem resting_iff (h : e.QuietTurn e') : e'.Resting ↔ ¬ e'.Poised := by
  refine ⟨Resting.issue, fun unpoised => ?_⟩
  obtain ⟨-, peers, candidates, issueDue, e₃, rfl, -, exhausted, -, applied⟩ := h.before_apply
  obtain ⟨_, _, _, _, _, rfl, -⟩ := applyTick_eq_zero applied
  exact ⟨rfl, exhausted.congr rfl rfl rfl fun _ => rfl, unpoised, rfl⟩

/-- **Why an engine is poised after a turn without work.**  Blocks were to be applied, and none
was, but the suspension was lifted or a waiting block was dropped. -/
theorem frees_of_poised (h : e.QuietTurn e') (poised : e'.Poised) : e.Frees := by
  obtain ⟨-, peers, candidates, issueDue, e₃, rfl, same, -, left, applied⟩ := h.before_apply
  obtain ⟨_, _, _, issueDue', suspended, rfl, freed | ⟨due, allowed⟩⟩ := applyTick_eq_zero applied
  · obtain ⟨due, lifted | ⟨hash, w, waits, gone⟩⟩ := freed
    · exact ⟨due, .inl lifted⟩
    · refine ⟨due, .inr ⟨hash, w, waits, ?_⟩⟩
      rw [isRegistered, Std.TreeMap.contains_eq_isSome_getElem?] at gone ⊢
      rwa [← same]
  · -- what is due and not suspended has had its turn
    have due : issueDue = true := due.symm.trans poised.due
    have allowed : e.suspended = false := allowed.symm.trans poised.allowed
    rw [left, allowed] at due
    cases due

end QuietTurn

namespace Resting

/-- **An engine that has nothing to do** has a turn without work. -/
theorem exists_turn (h : e.Resting) : ∃ e', e.QuietTurn e' := by
  obtain ⟨peers, announced, same⟩ :=
    announceSpread_of_announcements_eq_nil (announcements_of_emptied h.spread)
  have exhausted : Exhausted { e with spread := ∅, peers := peers } :=
    h.candidates.congr rfl rfl rfl same
  have unpoised : ¬ Poised { e with spread := ∅, peers := peers } := fun poised =>
    h.issue (poised.congr rfl id rfl rfl rfl fun id => (same id).symm)
  obtain ⟨issueDue, asked, -⟩ := issueTick_of_not_poised unpoised
  have applied : applyTick { e with spread := ∅, peers := peers, issueDue := issueDue } =
      .ok (0, { e with spread := ∅, peers := peers, issueDue := issueDue }) :=
    if_neg (by rw [h.apply]; exact Bool.false_ne_true)
  exact ⟨_, quietTurn_iff.2 ⟨_, _, _, announced, exhausted.reserveCandidates, asked, applied⟩⟩

/-- After it the engine has nothing to do either. -/
theorem turn (h : e.Resting) (done : e.QuietTurn e') : e'.Resting :=
  done.resting_iff.2 fun poised =>
    Bool.false_ne_true (h.apply.symm.trans (done.frees_of_poised poised).1)

end Resting

end BlockRelay.Engine
