/-
# Blocks that several peers are asked for

Nobody is asked for a block that the cache of requests remembers.  A block is followed from when it
is asked for (`Run.traced`), so that several peers are asked for it only after it was forgotten: it
was asked for again, and until then it was not settled.  This happens because it was asked for too
long ago, or because too many blocks were asked for since.
-/
import BlockRelay.Ledger.Chain
import BlockRelay.Proofs.Unsettled

namespace BlockRelay

/-! ## What is asked for in a moment -/

/-- The hashes that a request lists. -/
def Event.fetched : Event → List Hash
  | .sent _ (.fetch items) => items.map (·.hash)
  | _ => []

/-- The blocks of a catch-up that peers are asked for in a moment. -/
def Moment.blocksAsked {σ : Type} (m : Moment σ) : List Hash :=
  if m.operation = some .issueRequests ∨ m.operation = some .issueTick then
    m.events.flatMap Event.fetched
  else []

/-- No blocks are asked for in a moment of another kind. -/
theorem Moment.blocksAsked_eq_nil {σ : Type} {m : Moment σ}
    (other : ¬ (m.operation = some .issueRequests ∨ m.operation = some .issueTick)) :
    m.blocksAsked = [] := if_neg other

/-- Whether a block is asked for while it is awaited from a peer. -/
def Moment.AsksAgain {σ : Type} (m : Moment σ) (hash : Hash) : Prop :=
  hash ∈ m.blocksAsked ∧ ∃ id, m.before.AskedOf id hash

namespace Engine

variable {σ : Type}

/-- Whether two registered peers were asked for a block that neither has delivered. -/
def Shared (e : Engine σ) (hash : Hash) : Prop :=
  ∃ id other, id ≠ other ∧ e.AskedOf id hash ∧ e.AskedOf other hash

/-! ## A pass over the peers -/

/-- A peer that is asked for blocks is asked for these, and for nothing else. -/
theorem askedOf_requestBlocks_iff {e : Engine σ} {peer id : PeerId} {p : Peer}
    {batch : List BlockId} {hash : Hash} (hp : e.peers[peer]? = some p) :
    (e.requestBlocks peer batch).AskedOf id hash ↔
      e.AskedOf id hash ∨ id = peer ∧ hash ∈ batch.map (·.hash) := by
  unfold AskedOf
  simp only [peers_requestBlocks]
  by_cases same : id = peer
  · subst same
    simp only [if_pos, hp, Option.map_some, Option.some.injEq, exists_eq_left', true_and]
    rw [Peer.contains_blocksAsked_requestBlocks, or_comm]
  · simp only [same, if_false, false_and, or_false]

/-- A peer that is not busy is asked for nothing. -/
theorem not_askedOf_of_free {e : Engine σ} {id : PeerId} {p : Peer} (hp : e.peers[id]? = some p)
    (free : p.isBusy = false) (hash : Hash) : ¬ e.AskedOf id hash := by
  rintro ⟨q, hq, asked⟩
  cases hp.symm.trans hq
  simp only [Peer.isBusy, Bool.or_eq_false_iff, Bool.not_eq_false'] at free
  rw [Std.TreeMap.contains_of_isEmpty free.2] at asked
  cases asked

/-- How an engine differs from an earlier state after some blocks were asked for: who was asked,
what the cache holds, and what is visible. -/
structure Asking (e e' : Engine σ) (asked : List Hash) : Prop where
  arrived : e'.arrived = e.arrived
  waiting : e'.waiting = e.waiting
  now : e'.now = e.now
  requested : e'.requested = asked.foldl (fun c hash => c.insert hash () e.now) e.requested
  shown : ∃ events, e'.journal = e.journal ++ events ∧ events.flatMap Event.fetched = asked
  kept : ∀ id hash, e.AskedOf id hash → e'.AskedOf id hash
  old : ∀ id hash, e'.AskedOf id hash → e.AskedOf id hash ∨ hash ∈ asked
  asks : ∀ hash ∈ asked, ∃ id, e'.AskedOf id hash ∧ ∀ other, ¬ e.AskedOf id other
  one : ∀ hash ∈ asked, (∀ id, ¬ e.AskedOf id hash) →
    ∀ id other, e'.AskedOf id hash → e'.AskedOf other hash → id = other
  forgot : ∀ hash ∈ asked, ∀ askedAt n, e.requested.Kept hash askedAt n →
    e.requested.capacity + 1 < n + asked.length ∨ e.requested.lifetime < e.now - askedAt

/-- Nothing is asked for at first. -/
theorem asking_nil (e : Engine σ) (issueDue : Bool) :
    Asking e { e with issueDue := issueDue } [] where
  arrived := rfl
  waiting := rfl
  now := rfl
  requested := rfl
  shown := ⟨[], (List.append_nil _).symm, rfl⟩
  kept _ _ asked := asked
  old _ _ := .inl
  asks := nofun
  one := nofun
  forgot := nofun

namespace Asking

variable {e e' : Engine σ} {asked : List Hash}

/-- Asking for blocks leaves the limits of the cache alone. -/
theorem limits (h : Asking e e' asked) : e'.requested.limits = e.requested.limits := by
  rw [h.requested]
  exact AgingCache.limits_foldl_insert () e.now asked _

/-- A block that was asked for, is not asked for again and is not remembered any more was displaced
or is expired. -/
theorem lost (h : Asking e e' asked) {hash : Hash} (absent : hash ∉ asked)
    (forgotten : e'.requested.contains hash e'.now = false) {askedAt n : Nat}
    (kept : e.requested.Kept hash askedAt n) :
    e.requested.capacity < n + asked.length ∨ e.requested.lifetime < e.now - askedAt := by
  have capacity : e'.requested.capacity = e.requested.capacity := congrArg Prod.fst h.limits
  have lifetime : e'.requested.lifetime = e.requested.lifetime := congrArg Prod.snd h.limits
  have aged : e'.requested.Kept hash askedAt (n + asked.length) := by
    rw [h.requested]
    exact kept.foldl_insert () e.now absent
  rw [← capacity, ← lifetime, ← h.now]
  exact aged.of_not_contains forgotten

/-- A peer that is not busy is asked for blocks that nobody was asked for in the pass, and that the
cache does not remember. -/
theorem requestBlocks (h : Asking e e' asked) {id : PeerId} {p : Peer} {batch : List BlockId}
    (hp : e'.peers[id]? = some p) (free : p.isBusy = false)
    (unclaimed : ∀ hash ∈ batch.map (·.hash), hash ∉ asked)
    (forgotten : ∀ hash ∈ batch.map (·.hash), e'.requested.contains hash e'.now = false) :
    Asking e (e'.requestBlocks id batch) (asked ++ batch.map (·.hash)) := by
  have old {other : PeerId} {hash : Hash} (now : (e'.requestBlocks id batch).AskedOf other hash) :
      e'.AskedOf other hash ∨ other = id ∧ hash ∈ batch.map (·.hash) :=
    (askedOf_requestBlocks_iff hp).1 now
  have kept {other : PeerId} {hash : Hash} (before : e'.AskedOf other hash) :
      (e'.requestBlocks id batch).AskedOf other hash :=
    (askedOf_requestBlocks_iff hp).2 (.inl before)
  obtain ⟨events, journal, fetched⟩ := h.shown
  obtain ⟨_, _, eq⟩ := requestBlocks_eq e' id batch
  constructor
  case arrived => rw [eq]; exact h.arrived
  case waiting => rw [eq]; exact h.waiting
  case now => rw [eq]; exact h.now
  case requested => rw [requested_requestBlocks, h.requested, h.now, List.foldl_append]
  case shown =>
    refine ⟨events ++ [.sent id (.fetch (batch.map BlockId.item))], ?_, ?_⟩
    · rw [eq, ← List.append_assoc, ← journal]
    · rw [List.flatMap_append, fetched, List.flatMap_singleton, Event.fetched, List.map_map]
      rfl
  case kept => exact fun other hash before => kept (h.kept other hash before)
  case old =>
    intro other hash now
    rcases old now with now | ⟨-, mem⟩
    · exact (h.old other hash now).imp_right (List.mem_append_left _)
    · exact .inr (List.mem_append_right _ mem)
  case asks =>
    intro hash mem
    rcases List.mem_append.1 mem with earlier | mem
    · obtain ⟨other, now, idle⟩ := h.asks hash earlier
      exact ⟨other, kept now, idle⟩
    · refine ⟨id, (askedOf_requestBlocks_iff hp).2 (.inr ⟨rfl, mem⟩), fun other before => ?_⟩
      exact not_askedOf_of_free hp free other (h.kept id other before)
  case one =>
    intro hash mem fresh first second now now'
    by_cases earlier : hash ∈ asked
    · -- the visited peer is not asked for a block that was claimed before
      have before {other : PeerId} (now : (e'.requestBlocks id batch).AskedOf other hash) :
          e'.AskedOf other hash :=
        (old now).resolve_right fun ⟨_, mem⟩ => unclaimed hash mem earlier
      exact h.one hash earlier fresh first second (before now) (before now')
    · have visited {other : PeerId} (now : (e'.requestBlocks id batch).AskedOf other hash) :
          other = id := by
        rcases old now with before | ⟨same, -⟩
        · exact ((h.old other hash before).elim (fresh other) earlier).elim
        · exact same
      exact (visited now).trans (visited now').symm
  case forgot =>
    intro hash mem askedAt n remembered
    rw [List.length_append]
    rcases List.mem_append.1 mem with earlier | mem
    · exact (h.forgot hash earlier askedAt n remembered).imp_left fun full => by omega
    · have some := List.length_pos_of_mem mem
      refine (h.lost (unclaimed hash mem) (forgotten hash mem) remembered).imp_left fun full => ?_
      omega

/-- One visit asks for the blocks of its batch. -/
theorem visit {s : IssuePass σ} (h : Asking e s.engine asked)
    (claimed : ∀ hash ∈ asked, s.claimed.contains hash = true) {id : PeerId} {p : Peer}
    (hp : s.engine.peers[id]? = some p) :
    Asking e (s.visit id p).engine (asked ++ (s.batchFor p).map (·.hash)) := by
  have unclaimed : ∀ hash ∈ (s.batchFor p).map (·.hash), hash ∉ asked := by
    intro hash mem earlier
    obtain ⟨b, hb, rfl⟩ := List.mem_map.1 mem
    cases (claimed b.hash earlier).symm.trans (IssuePass.unclaimed_of_mem_batchFor hb)
  have forgotten : ∀ hash ∈ (s.batchFor p).map (·.hash),
      s.engine.requested.contains hash s.engine.now = false := by
    intro hash mem
    obtain ⟨b, hb, rfl⟩ := List.mem_map.1 mem
    exact IssuePass.unasked_of_mem_batchFor hb
  unfold IssuePass.visit
  split
  next none =>
    rw [none, List.map_nil, List.append_nil]
    exact h
  next some =>
    exact h.requestBlocks hp (IssuePass.free_of_batchFor_ne_nil some).2 unclaimed forgotten

/-- A pass asks for some blocks. -/
theorem issueRequests (start : Asking e e' []) : ∃ asked, Asking e e'.issueRequests.2 asked := by
  have pass := issueRequests_induction (P := fun s => ∃ asked, Asking e s.engine asked ∧
    ∀ hash ∈ asked, s.claimed.contains hash = true) e' ⟨[], start, nofun⟩
  obtain ⟨asked, h, -⟩ := pass fun s id p hp ⟨asked, h, claimed⟩ =>
    ⟨_, h.visit claimed hp, fun hash mem => (s.contains_claimed_visit id p hash).2
      ((List.mem_append.1 mem).symm.imp_right (claimed hash))⟩
  exact ⟨asked, h⟩

variable (h : Asking e e' asked)

include h

/-- The blocks that are asked for are visible. -/
theorem blocksAsked_eq {op : Operation} (issue : op = .issueRequests ∨ op = .issueTick) :
    (Moment.mk e (some op) e').blocksAsked = asked := by
  obtain ⟨events, journal, fetched⟩ := h.shown
  rw [Moment.blocksAsked, if_pos (issue.imp (congrArg some) (congrArg some)), Moment.events,
    journal, List.drop_left, fetched]

/-- Asking for blocks delivers none. -/
theorem delivered_iff (hash : Hash) : e'.Delivered hash ↔ e.Delivered hash := by
  rw [Delivered, Delivered]
  simp only [InHand, h.arrived, h.waiting]

/-- A block that is not settled and that is not asked for was not settled before. -/
theorem unsettled {hash : Hash} (absent : hash ∉ asked) (unsettled : e'.Unsettled hash) :
    e.Unsettled hash := by
  rcases unsettled with ⟨id, now⟩ | delivered
  · exact .inl ⟨id, (h.old id hash now).resolve_right absent⟩
  · exact .inr ((h.delivered_iff hash).1 delivered)

/-- A block that is asked for while it is awaited is awaited from two peers, because a peer from
which a block is awaited is not asked for more. -/
theorem shared {id : PeerId} {hash : Hash} (mem : hash ∈ asked) (before : e.AskedOf id hash) :
    e'.Shared hash := by
  obtain ⟨other, now, idle⟩ := h.asks hash mem
  refine ⟨id, other, ?_, h.kept id hash before, now⟩
  rintro rfl
  exact idle hash before

/-- A block is awaited from two peers only if it was before, or is asked for while it is awaited. -/
theorem shared_cases {hash : Hash} (shared : e'.Shared hash) :
    e.Shared hash ∨ hash ∈ asked ∧ ∃ id, e.AskedOf id hash := by
  obtain ⟨id, other, ne, first, second⟩ := shared
  by_cases mem : hash ∈ asked
  · refine .inr ⟨mem, ?_⟩
    by_contra nobody
    exact ne (h.one hash mem (not_exists.1 nobody) id other first second)
  · exact .inl ⟨id, other, ne, (h.old id hash first).resolve_right mem,
      (h.old other hash second).resolve_right mem⟩

/-- A block that is not asked for is followed on. -/
theorem followed {hash : Hash} (absent : hash ∉ asked) {askedAt n : Nat}
    (followed : e.Followed hash askedAt n) : e'.Followed hash askedAt (n + asked.length) := by
  have old {id : PeerId} (now : e'.AskedOf id hash) : e.AskedOf id hash :=
    (h.old id hash now).resolve_right absent
  refine ⟨⟨fun id other first second => followed.apart.one id other (old first) (old second),
    fun id now => ?_, fun w mem same => ?_⟩, ?_⟩
  · rw [h.delivered_iff]
    exact followed.apart.asked id (old now)
  · rw [h.waiting]
    exact followed.apart.arrived w (h.arrived ▸ mem) same
  · have lifetime : e'.requested.lifetime = e.requested.lifetime := congrArg Prod.snd h.limits
    rw [lifetime, h.now]
    refine followed.remembered.imp_left fun kept => ?_
    rw [h.requested]
    exact kept.foldl_insert () e.now absent

/-- A block that was settled is followed from when it is asked for. -/
theorem followed_of_settled {hash : Hash} (mem : hash ∈ asked) (settled : ¬ e.Unsettled hash) :
    e'.Followed hash e.now asked.length := by
  have nobody (id : PeerId) : ¬ e.AskedOf id hash := fun now => settled (.inl ⟨id, now⟩)
  have absent : ¬ e.Delivered hash := fun delivered => settled (.inr delivered)
  refine ⟨⟨h.one hash mem nobody, fun id _ => ?_, fun w mem same => ?_⟩, .inl ?_⟩
  · rwa [h.delivered_iff]
  · exact (absent ⟨w, .inl (h.arrived ▸ mem), same⟩).elim
  · rw [h.requested]
    exact AgingCache.kept_foldl_insert e.requested () e.now mem

end Asking

variable [Ledger σ]

/-- Operations that may ask for blocks ask for some. -/
theorem exists_asking {e e' : Engine σ} {op : Operation} {answer : Outcome}
    (issue : op = .issueRequests ∨ op = .issueTick) (done : e.perform op = .ok (answer, e')) :
    ∃ asked, Asking e e' asked := by
  rcases issue with rfl | rfl
  · cases done
    exact (asking_nil e e.issueDue).issueRequests
  · cases done
    unfold issueTick
    split
    · exact ⟨[], asking_nil e e.issueDue⟩
    · split
      · exact (asking_nil e false).issueRequests
      · exact ⟨[], asking_nil e e.issueDue⟩

/-! ## Runs -/

/-- How many blocks of a catch-up peers are asked for in a part of a run. -/
def countAsked (moments : List (Moment σ)) : Nat :=
  (moments.map fun m => m.blocksAsked.length).sum

omit [Ledger σ] in
/-- A moment adds what peers are asked for in it. -/
theorem countAsked_cons (m : Moment σ) (moments : List (Moment σ)) :
    countAsked (m :: moments) = m.blocksAsked.length + countAsked moments := rfl

/-- Whether a block was asked for in a moment `a`, and was asked for again in a later moment `m`
although it was not settled in between.  It was asked for too long ago to be remembered, or too
many blocks were asked for since. -/
structure Forgets (config : Config) (hash : Hash) (m : Moment σ) (between : List (Moment σ))
    (a : Moment σ) : Prop where
  again : hash ∈ m.blocksAsked
  first : hash ∈ a.blocksAsked
  unsettled : ∀ d ∈ m :: between, d.before.Unsettled hash
  cause : config.cache.requestSeconds * 1000 < m.before.now - a.before.now ∨
    max config.cache.requestSize 1 + 1 < countAsked (m :: between ++ [a])

/-- Whether a block was forgotten in a run and asked for again, and is not settled since. -/
def Forgotten (config : Config) (past : List (Moment σ)) (hash : Hash) : Prop :=
  ∃ newest m between a older, past = newest ++ m :: (between ++ a :: older) ∧
    (∀ d ∈ newest, d.before.Unsettled hash) ∧ Forgets config hash m between a

section Run

variable {config : Config} {ledger : σ} {clock : Clock} {start e : Engine σ}
  {past : List (Moment σ)} {hash : Hash}

/-- The limits of the cache are those that are configured. -/
theorem Run.limits (run : Run start past e)
    (started : Engine.start config ledger clock = .ok start) :
    e.requested.limits = (max config.cache.requestSize 1, config.cache.requestSeconds * 1000) := by
  refine run.invariant (I := fun e => e.requested.limits = _) ?_ (fun s h => s.limits.trans h)
    fun _ _ h => h
  obtain ⟨_, -, eq⟩ := Checked.bind_eq_ok_iff.1 started
  cases eq
  rfl

/-- What is known of a block in a run: it was forgotten, or it is followed from when it was asked
for. -/
def Traced (config : Config) (past : List (Moment σ)) (e : Engine σ) (hash : Hash) : Prop :=
  Forgotten config past hash ∨
    ∃ newer a older, past = newer ++ a :: older ∧ hash ∈ a.blocksAsked ∧
      (∀ d ∈ newer, d.before.Unsettled hash) ∧
      e.Followed hash a.before.now (countAsked (newer ++ [a]))

omit [Ledger σ] in
/-- A block that was forgotten stays so until it is settled. -/
theorem Forgotten.cons {m : Moment σ} (h : Forgotten config past hash)
    (unsettled : m.before.Unsettled hash) : Forgotten config (m :: past) hash := by
  obtain ⟨newest, again, between, a, older, rfl, since, forgets⟩ := h
  exact ⟨m :: newest, again, between, a, older, rfl, List.forall_mem_cons.2 ⟨unsettled, since⟩,
    forgets⟩

omit [Ledger σ] in
/-- A block is traced on while it is followed. -/
theorem Traced.cons {m : Moment σ} (h : Traced config past m.before hash)
    (unsettled : m.before.Unsettled hash)
    (carries : ∀ askedAt n, m.before.Followed hash askedAt n →
      e.Followed hash askedAt (m.blocksAsked.length + n)) :
    Traced config (m :: past) e hash := by
  rcases h with forgotten | ⟨newer, a, older, rfl, first, waits, followed⟩
  · exact .inl (forgotten.cons unsettled)
  · refine .inr ⟨m :: newer, a, older, rfl, first, List.forall_mem_cons.2 ⟨unsettled, waits⟩, ?_⟩
    rw [List.cons_append, countAsked_cons]
    exact carries _ _ followed

/-- When blocks are asked for, a block that is not settled is traced on. -/
theorem Traced.asking {e' : Engine σ} {op : Operation} {answer : Outcome}
    (issue : op = .issueRequests ∨ op = .issueTick) (done : e.perform op = .ok (answer, e'))
    (limits : e.requested.limits =
      (max config.cache.requestSize 1, config.cache.requestSeconds * 1000))
    (unsettled : e'.Unsettled hash) (before : e.Unsettled hash → Traced config past e hash) :
    Traced config (⟨e, some op, e'⟩ :: past) e' hash := by
  obtain ⟨asked, asking⟩ := exists_asking issue done
  have shown := asking.blocksAsked_eq issue
  by_cases mem : hash ∈ asked
  · have again : hash ∈ (Moment.mk e (some op) e').blocksAsked := by rwa [shown]
    by_cases was : e.Unsettled hash
    · rcases before was with forgotten | ⟨newer, a, older, rfl, first, waits, followed⟩
      · exact .inl (forgotten.cons was)
      · -- the cache has forgotten the block, or it would not be asked for again
        refine .inl ⟨[], ⟨e, some op, e'⟩, newer, a, older, rfl, List.forall_mem_nil _, again,
          first, List.forall_mem_cons.2 ⟨was, waits⟩, ?_⟩
        obtain ⟨capacity, lifetime⟩ := Prod.mk.inj limits
        have lost := followed.remembered.elim (asking.forgot hash mem _ _) .inr
        rw [capacity, lifetime] at lost
        rw [List.cons_append, countAsked_cons, shown, Nat.add_comm asked.length]
        exact lost.symm
    · -- the block was settled, so that it is followed from now on
      refine .inr ⟨[], ⟨e, some op, e'⟩, past, rfl, again, List.forall_mem_nil _, ?_⟩
      rw [List.nil_append, countAsked_cons, shown]
      exact asking.followed_of_settled mem was
  · have was := asking.unsettled mem unsettled
    refine (before was).cons was fun askedAt n followed => ?_
    rw [shown, Nat.add_comm]
    exact asking.followed mem followed

/-- **In every run a block that is not settled is traced**: it was forgotten, or it is followed
from when it was asked for. -/
theorem Run.traced (run : Run start past e)
    (started : Engine.start config ledger clock = .ok start) (unsettled : e.Unsettled hash) :
    Traced config past e hash := by
  induction run with
  | start =>
    rcases unsettled with ⟨id, p, hp, -⟩ | ⟨w, inHand, -⟩
    · cases (peers_of_start started id).symm.trans hp
    · exact (not_inHand_of_start started w inHand).elim
  | @meddle past e ledger before ih =>
    refine (ih unsettled).cons unsettled fun askedAt n followed => ?_
    rw [Moment.blocksAsked_eq_nil (by simp), List.length_nil, Nat.zero_add]
    exact followed.withLedger ledger
  | @perform past e e' op answer before done ih =>
    by_cases issue : op = .issueRequests ∨ op = .issueTick
    · exact .asking issue done (before.limits started) unsettled ih
    · have calm (id : PeerId) : ¬ op.Allows (.requested id) := issue
      have course := course_perform done
      have was := course.unsettled calm unsettled
      refine (ih was).cons was fun askedAt n followed => ?_
      rw [Moment.blocksAsked_eq_nil (by simpa using issue), List.length_nil, Nat.zero_add]
      exact course.followed calm (before.keyed started) unsettled followed

/-- What two peers are asked for is shared after an operation only if it was before, or if it is
asked for again. -/
theorem Shared.perform {e' : Engine σ} {op : Operation} {answer : Outcome}
    (done : e.perform op = .ok (answer, e')) (h : e'.Shared hash) :
    e.Shared hash ∨ (Moment.mk e (some op) e').AsksAgain hash := by
  by_cases issue : op = .issueRequests ∨ op = .issueTick
  · obtain ⟨asked, asking⟩ := exists_asking issue done
    rw [Moment.AsksAgain, asking.blocksAsked_eq issue]
    exact asking.shared_cases h
  · have calm (id : PeerId) : ¬ op.Allows (.requested id) := issue
    have course := course_perform done
    obtain ⟨id, other, ne, first, second⟩ := h
    exact .inl ⟨id, other, ne, course.askedOf calm first, course.askedOf calm second⟩

/-- What is asked for again is shared. -/
theorem shared_of_asksAgain {e' : Engine σ} {op : Operation} {answer : Outcome}
    (done : e.perform op = .ok (answer, e')) (again : (Moment.mk e (some op) e').AsksAgain hash) :
    e'.Shared hash := by
  obtain ⟨mem, id, before⟩ := again
  by_cases issue : op = .issueRequests ∨ op = .issueTick
  · obtain ⟨asked, asking⟩ := exists_asking issue done
    rw [asking.blocksAsked_eq issue] at mem
    exact asking.shared mem before
  · rw [Moment.blocksAsked_eq_nil (by simpa using issue)] at mem
    cases mem

/-- In a run in which a block is not asked for again it is never shared. -/
theorem Run.unshared (run : Run start past e)
    (started : Engine.start config ledger clock = .ok start)
    (never : ∀ m ∈ past, ¬ m.AsksAgain hash) : ¬ e.Shared hash := by
  induction run with
  | start =>
    rintro ⟨id, _, -, ⟨p, hp, -⟩, -⟩
    cases (peers_of_start started id).symm.trans hp
  | meddle ledger before ih => exact ih fun m mem => never m (List.mem_cons_of_mem _ mem)
  | perform before done ih =>
    intro shared
    rcases shared.perform done with shared | again
    · exact ih (fun m mem => never m (List.mem_cons_of_mem _ mem)) shared
    · exact never _ (List.mem_cons_self ..) again

/-- **When several peers are asked for one block.**  In every run a block is shared exactly where
it is asked for while it is awaited from a peer.  A block that is shared was forgotten: it was
asked for again while it was not settled, too long after it was asked for first, or after too many
others, and it is not settled since. -/
theorem shared_iff_asked_again (started : Engine.start config ledger clock = .ok start)
    (run : Run start past e) (hash : Hash) :
    ((∀ m ∈ past, ¬ m.after.Shared hash) ↔ ∀ m ∈ past, ¬ m.AsksAgain hash) ∧
      (e.Shared hash → Forgotten config past hash) := by
  refine ⟨⟨fun unshared m mem again => ?_, fun never m mem => ?_⟩, ?_⟩
  · obtain ⟨older, -, newest⟩ := run.reached mem
    cases newest with
    | perform before done => exact unshared _ mem (shared_of_asksAgain done again)
    | meddle =>
      rw [Moment.AsksAgain, Moment.blocksAsked_eq_nil (by simp)] at again
      cases again.1
  · obtain ⟨older, part, newest⟩ := run.reached mem
    exact newest.unshared started fun d earlier => never d (part.subset earlier)
  · rintro ⟨id, other, ne, first, second⟩
    refine (run.traced started (.inl ⟨id, first⟩)).resolve_right ?_
    rintro ⟨_, _, _, -, -, -, followed⟩
    exact ne (followed.apart.one id other first second)

end Run

/-- Two peers reply with the same blocks, and blocks are asked for twice, with some time in
between. -/
def askedTwice (ids : List BlockId) (ms : Nat) : List Operation :=
  [.register ⟨1⟩ 2, .register ⟨2⟩ 2, .receive ⟨1⟩ (.summaryReply ids 0),
    .receive ⟨2⟩ (.summaryReply ids 0), .issueRequests, .advanceClock ms, .issueRequests]

/-- Two peers are asked for the first block if this is what happens when the operations are carried
out. -/
theorem exists_shared (config : Config) (ids : List BlockId) (ms : Nat)
    (checked : ((Engine.start config (ChainLedger.ofGenesis (.genesis 0) 0 10) {}).bind fun e =>
      e.trace (askedTwice ids ms) []).toOption.any (fun r => [PeerId.mk 1, PeerId.mk 2].all
        fun id => (r.2.peers[id]?).any fun p => p.blocksAsked.contains (Block.bare 1).id.hash) =
          true) :
    ∃ (start e : Engine ChainLedger) (past : List (Moment ChainLedger)),
      Engine.start config (.ofGenesis (.genesis 0) 0 10) {} = .ok start ∧ Run start past e ∧
        e.Shared (Block.bare 1).id.hash := by
  obtain ⟨start, past, e, started, run, shared⟩ := exists_run _ _ _ _ _ checked
  simp only [List.all_cons, List.all_nil, Bool.and_true, Bool.and_eq_true, Option.any_eq_true]
    at shared
  obtain ⟨⟨p, hp, first⟩, q, hq, second⟩ := shared
  exact ⟨start, e, past, started, run, ⟨1⟩, ⟨2⟩, by decide, ⟨p, hp, first⟩, q, hq, second⟩

/-- The request for a block expires after an hour, while the block is awaited. -/
theorem shared_when_expired :
    ∃ (start e : Engine ChainLedger) (past : List (Moment ChainLedger)),
      Engine.start {} (.ofGenesis (.genesis 0) 0 10) {} = .ok start ∧ Run start past e ∧
        e.Shared (Block.bare 1).id.hash ∧ Forgotten {} past (Block.bare 1).id.hash ∧
          ∃ m ∈ past, m.AsksAgain (Block.bare 1).id.hash := by
  obtain ⟨start, e, past, started, run, shared⟩ :=
    exists_shared {} [(Block.bare 0).id, (Block.bare 1).id] 3600001 (by decide +kernel)
  obtain ⟨unshared, forgotten⟩ := shared_iff_asked_again started run (Block.bare 1).id.hash
  refine ⟨start, e, past, started, run, shared, forgotten shared, ?_⟩
  by_contra never
  have unshared := unshared.2 fun m mem again => never ⟨m, mem, again⟩
  cases run with
  | start =>
    obtain ⟨id, _, -, ⟨p, hp, -⟩, -⟩ := shared
    cases (peers_of_start started id).symm.trans hp
  | perform => exact unshared _ (List.mem_cons_self ..) shared
  | meddle => exact unshared _ (List.mem_cons_self ..) shared

/-- With room for one request, the request for a second block displaces the one for the first
block. -/
theorem shared_by_displacement :
    ¬ ∀ (config : Config) (ledger : ChainLedger) (clock : Clock) (start e : Engine ChainLedger)
      (past : List (Moment ChainLedger)) (id other : PeerId) (hash : Hash),
      Engine.start config ledger clock = .ok start → Run start past e →
        e.AskedOf id hash → e.AskedOf other hash → id = other := by
  intro always
  obtain ⟨start, e, past, started, run, id, other, ne, first, second⟩ :=
    exists_shared { cache := { requestSize := 1 } }
      [(Block.bare 0).id, (Block.bare 1).id, (Block.bare 2).id] 0 (by decide +kernel)
  exact ne (always _ _ _ start e past id other _ started run first second)

end Engine

end BlockRelay
