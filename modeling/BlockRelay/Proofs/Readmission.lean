/-
# Quarantined objects stay out of the queue

A hash becomes a candidate when it is announced, and when the peer on which it was reserved is
left.  Both ways are closed to a quarantined hash (`Step.contains_candidates`), and the quarantine
of a hash ends only when what is out of date is forgotten (`Step.bans`).

So a quarantined hash that is no candidate stays barred (`Engine.Barred`), through every operation
and over any number of them, until its quarantine expires (`Barred.run`).
-/
import BlockRelay.Proofs.Departures
import BlockRelay.Proofs.Exclusion
import BlockRelay.Proofs.Quarantine

namespace BlockRelay

variable {σ : Type}

namespace Moment

/-- Whether candidates are reserved in a moment, and an item with a hash is among them: it comes to
be reserved on a peer, or a peer is asked for it. -/
def reserves (m : Moment σ) (hash : Hash) : Prop :=
  m.operation = some .reserveCandidates ∧ ∃ (id : PeerId) (i : Item), i.hash = hash ∧
    (m.before.hasReserved id i = false ∧ m.after.hasReserved id i = true ∨
      ∃ items, Event.sent id (.fetch items) ∈ m.events ∧ i ∈ items)

/-- Whether the quarantine of a hash ends in a moment in which what is out of date is forgotten.
The hash was refused at a given time or again later, and since it was refused last more time has
passed than a quarantine lasts. -/
def expires (m : Moment σ) (hash : Hash) (refusedAt : Nat) : Prop :=
  m.operation = some .forgetOutdated ∧ m.after.isQuarantined hash = false ∧
    ∃ last, m.before.quarantine[hash]? = some last ∧ refusedAt ≤ last ∧
      m.before.config.cache.quarantineSeconds * 1000 < m.before.now - last

end Moment

namespace Engine

variable {e e' : Engine σ} {hash : Hash} {refusedAt : Nat}

/-! ## Ways into the queue -/

/-- A removal makes no candidate of a quarantined hash. -/
theorem contains_of_remove {id : PeerId} {r : Option Reason}
    (bad : e.isQuarantined hash = true)
    (h : (e.remove id r).candidates.contains hash = true) :
    e.candidates.contains hash = true := by
  cases hp : e.peers[id]? with
  | none => exact remove_of_unknown hp r ▸ h
  | some p =>
    rcases (contains_remove hp r).1 h with before | ⟨-, returns⟩
    · exact before
    · cases bad.symm.trans ((returns_remove hp r).1 returns).2

/-- Nor do several removals. -/
theorem contains_of_disconnectAll {leaving : List (PeerId × Reason)}
    (bad : e.isQuarantined hash = true)
    (h : (e.disconnectAll leaving).candidates.contains hash = true) :
    e.candidates.contains hash = true := by
  induction leaving generalizing e with
  | nil => exact h
  | cons l rest ih =>
    have same := (sameBans_disconnectAll e [l]).quarantine
    have still : (e.disconnect l.1 l.2).isQuarantined hash = true := by
      unfold isQuarantined
      exact same ▸ bad
    exact contains_of_remove bad (ih still h)

/-- An announcement makes no candidate of a quarantined hash. -/
theorem contains_of_takeIn {id : PeerId} {i : Item} (bad : e.isQuarantined hash = true)
    (h : (e.takeIn id i).candidates.contains hash = true) :
    e.candidates.contains hash = true := by
  rcases takeIn_cases e id i with eq | ⟨candidates, flood, eq, change⟩ <;> rw [eq] at h
  · exact h
  · rcases change with rfl | ⟨⟨-, clean⟩, rfl⟩
    · exact h
    · obtain ⟨j, mem, rfl⟩ := CandidateQueue.contains_iff_mem_items.1 h
      rcases CandidateQueue.mem_of_mem_items_offer mem with old | rfl
      · exact CandidateQueue.contains_iff_mem_items.2 ⟨j, old, rfl⟩
      · cases bad.symm.trans clean

variable [Ledger σ]

omit [Ledger σ] in
/-- What is quarantined stays so in a step that forgets nothing. -/
theorem Bans.isQuarantined {d : Deed} (ban : Bans d e e') (keeps : d ≠ .forgot)
    (bad : e.isQuarantined hash = true) : e'.isQuarantined hash = true := by
  unfold Engine.isQuarantined at bad ⊢
  cases ban with
  | same h => rwa [h.quarantine]
  | refused other _ h =>
    rw [h.quarantine, Std.TreeMap.contains_insert, bad, Bool.or_true]
  | forgot => exact absurd rfl keeps
  | later => exact bad

/-- **No step makes a candidate of a quarantined hash.** -/
theorem Step.contains_candidates {d : Deed} (s : Step d e e') (bad : e.isQuarantined hash = true)
    (h : e'.candidates.contains hash = true) : e.candidates.contains hash = true := by
  have of_items {q q' : CandidateQueue} (fewer : ∀ i ∈ q'.items, i ∈ q.items)
      (h : q'.contains hash = true) : q.contains hash = true := by
    obtain ⟨i, mem, same⟩ := CandidateQueue.contains_iff_mem_items.1 h
    exact CandidateQueue.contains_iff_mem_items.2 ⟨i, fewer i mem, same⟩
  by_cases keeps : d.KeepsRequests
  · rwa [(s.sameRequests keeps).candidates] at h
  cases s with
  | openSession | arrive => exact h
  | remove => exact contains_of_remove bad h
  | takeIn => exact contains_of_takeIn bad h
  | dropStale =>
    exact of_items (fun i mem => (CandidateQueue.items_dropStale_sublist ..).subset mem) h
  | reserve =>
    rw [requestReserved_eq] at h
    exact of_items (reserving_reserveAll e).candidates h
  | submitAnnounced hp notAsked reserved done =>
    obtain ⟨_, -, -, taken⟩ := (Step.submitAnnounced hp notAsked reserved done).tookBlock
    exact of_items (fun i mem => taken.candidates.subset mem) h
  | submitTransaction hp reserved =>
    obtain ⟨_, -, -, taken⟩ := (Step.submitTransaction hp reserved).tookTransaction
    exact of_items (fun i mem => taken.candidates.subset mem) h
  | @requestBlocks _ id p batch =>
    obtain ⟨_, _, eq⟩ := requestBlocks_eq e id batch
    rwa [eq] at h
  | refuse _ _ done =>
    -- the refused block is quarantined before anybody is left for it
    have still := (bans_submitFetched done).isQuarantined nofun bad
    rw [← (SameRequests.submitFetched done).candidates]
    exact contains_of_disconnectAll still h
  | welcome | restart | sendSummary | sendAnswer | finishCatchUp | takeUp | measure
  | announceSpread | serve | due | rest | absorb | suspend | dropOrphan | settle | forgetOutdated
  | advanceFlood | advanceClock | broadcast => exact absurd trivial keeps

/-! ## Barred hashes -/

/-- A hash that is no candidate and has been quarantined since some time, or again later. -/
structure Barred (hash : Hash) (refusedAt : Nat) (e : Engine σ) : Prop where
  refused : ∃ last, e.quarantine[hash]? = some last ∧ refusedAt ≤ last
  past : refusedAt ≤ e.now
  out : e.candidates.contains hash = false

namespace Barred

omit [Ledger σ] in
/-- A barred hash is quarantined. -/
theorem isQuarantined (h : e.Barred hash refusedAt) : e.isQuarantined hash = true := by
  obtain ⟨last, found, -⟩ := h.refused
  exact contains_iff_exists.2 ⟨last, found⟩

/-- A step that forgets nothing leaves a hash barred. -/
theorem step {d : Deed} (s : Step d e e') (keeps : d ≠ .forgot) (h : e.Barred hash refusedAt) :
    e'.Barred hash refusedAt := by
  obtain ⟨last, found, late⟩ := h.refused
  have out : e'.candidates.contains hash = false := by
    rw [Bool.eq_false_iff]
    intro candidate
    cases h.out.symm.trans (s.contains_candidates h.isQuarantined candidate)
  cases s.bans with
  | same ban =>
    refine ⟨⟨last, by rw [ban.quarantine, found], late⟩, ?_, out⟩
    show refusedAt ≤ e'.clock.now
    rw [ban.clock]
    exact h.past
  | refused other _ ban =>
    constructor
    · rw [ban.quarantine, Std.TreeMap.getElem?_insert]
      split
      · exact ⟨e.now, rfl, h.past⟩
      · exact ⟨last, found, late⟩
    · show refusedAt ≤ e'.clock.now
      rw [ban.clock]
      exact h.past
    · exact out
  | forgot => exact absurd rfl keeps
  | later e ms => exact ⟨⟨last, found, late⟩, Nat.le_add_right_of_le h.past, out⟩

omit [Ledger σ] in
/-- Forgetting what is out of date leaves a hash barred, unless its quarantine has lasted long
enough. -/
theorem forgetOutdated {n : Nat} (h : e.Barred hash refusedAt)
    (done : e.forgetOutdated = .ok (n, e')) :
    e'.candidates.contains hash = false ∧ (e'.Barred hash refusedAt ∨
      (Moment.mk e (some .forgetOutdated) e').expires hash refusedAt) := by
  obtain ⟨retention, -, done⟩ := Checked.bind_eq_ok_iff.1 done
  cases done
  refine ⟨h.out, ?_⟩
  obtain ⟨last, found, late⟩ := h.refused
  by_cases fresh : e.now - last ≤ e.config.cache.quarantineSeconds * 1000
  · left
    refine ⟨⟨last, ?_, late⟩, h.past, h.out⟩
    rw [Std.TreeMap.getElem?_filter', found]
    exact Option.filter_some_pos (decide_eq_true fresh)
  · right
    refine ⟨rfl, ?_, last, found, late, ?_⟩
    · rw [Engine.isQuarantined, Std.TreeMap.contains_eq_isSome_getElem?,
        Std.TreeMap.getElem?_filter', found, Option.filter_some_neg]
      · rfl
      · exact decide_eq_false fresh
    · show e.config.cache.quarantineSeconds * 1000 < e.now - last
      omega

/-- **A barred hash in an operation.**  It does not become a candidate.  It stays barred, unless
what is out of date is forgotten and its quarantine expires. -/
theorem perform {op : Operation} {answer : Outcome} (h : e.Barred hash refusedAt)
    (done : e.perform op = .ok (answer, e')) :
    e'.candidates.contains hash = false ∧
      (e'.Barred hash refusedAt ∨ (Moment.mk e (some op) e').expires hash refusedAt) := by
  by_cases forgets : op = .forgetOutdated
  · subst forgets
    obtain ⟨n, forgot⟩ := eq_ok_of_counted done
    exact h.forgetOutdated forgot
  · have barred : e'.Barred hash refusedAt := by
      refine (course_perform done).preserves (fun allows s => step s ?_) h
      rintro rfl
      exact forgets allows
    exact ⟨barred.out, .inl barred⟩

/-- **A barred hash in a run.**  It stays barred, unless its quarantine expires in the run. -/
theorem run {later : List (Moment σ)} (run : Run e later e') (h : e.Barred hash refusedAt) :
    e'.Barred hash refusedAt ∨ ∃ m ∈ later, m.expires hash refusedAt := by
  induction run with
  | start => exact .inl h
  | perform before done ih =>
    rcases ih with barred | ⟨m, mem, expired⟩
    · rcases (barred.perform done).2 with barred | expired
      · exact .inl barred
      · exact .inr ⟨_, List.mem_cons_self .., expired⟩
    · exact .inr ⟨m, List.mem_cons_of_mem _ mem, expired⟩
  | meddle ledger before ih =>
    rcases ih with barred | ⟨m, mem, expired⟩
    · exact .inl ⟨barred.refused, barred.past, barred.out⟩
    · exact .inr ⟨m, List.mem_cons_of_mem _ mem, expired⟩

end Barred

/-! ## Reservations -/

omit [Ledger σ] in
/-- Only a candidate comes to be reserved, or is asked for, when candidates are reserved. -/
theorem mem_items_of_reserves {n : Nat} (done : e.reserveCandidates = .ok (n, e')) {id : PeerId}
    {i : Item}
    (made : e.hasReserved id i = false ∧ e'.hasReserved id i = true ∨
      ∃ items, Event.sent id (.fetch items) ∈
        (Moment.mk e (some .reserveCandidates) e').events ∧ i ∈ items) :
    i ∈ e.candidates.items := by
  unfold reserveCandidates at done
  split at done
  next =>
    cases done
    rcases made with ⟨before, after⟩ | ⟨items, sent, -⟩
    · cases before.symm.trans after
    · simp [Moment.events] at sent
  next =>
    obtain ⟨maxAge, -, done⟩ := Checked.bind_eq_ok_iff.1 done
    obtain ⟨e₁, eq⟩ : ∃ e₁ : Engine σ,
        e₁ = { e with candidates := (e.candidates.dropStale e.now maxAge).2 } := ⟨_, rfl⟩
    rw [← eq] at done
    have shape : e' = e₁.reserveAll.2.requestReserved e₁.reserveAll.1 :=
      (congrArg Prod.snd (Except.ok.inj done)).symm
    have fewer : ∀ j ∈ e₁.candidates.items, j ∈ e.candidates.items := by
      intro j mem
      rw [eq] at mem
      exact (CandidateQueue.items_dropStale_sublist ..).subset mem
    have reserving := reserving_reserveAll e₁
    rw [requestReserved_eq] at shape
    rcases made with ⟨before, after⟩ | ⟨items, sent, asked⟩
    · rw [shape] at after
      obtain ⟨p', hp', reserved⟩ := (Option.any_eq_true _ _).1 after
      obtain ⟨p, made, hp, rfl, source⟩ := reserving.revised id p' hp'
      rcases source i reserved with old | candidate
      · rw [eq] at hp
        cases before.symm.trans ((Option.any_eq_true _ _).2 ⟨p, hp, old⟩)
      · exact fewer i candidate
    · have journal : e₁.reserveAll.2.journal = e.journal := by
        obtain ⟨_, _, same⟩ := reserveAll_eq e₁
        rw [same, eq]
      rw [Moment.events, shape] at sent
      simp only [journal, List.drop_left] at sent
      obtain ⟨other, -, listed⟩ := List.mem_flatMap.1 sent
      exact fewer i (reserving.made (id, i) (mem_of_requestFor listed asked)).1

/-- A hash that is no candidate is not reserved. -/
theorem not_reserves_of_not_candidate {op : Operation} {answer : Outcome}
    (done : e.perform op = .ok (answer, e')) (out : e.candidates.contains hash = false) :
    ¬ (Moment.mk e (some op) e').reserves hash := by
  rintro ⟨reserves, id, i, rfl, made⟩
  cases reserves
  obtain ⟨n, done⟩ := eq_ok_of_counted done
  have candidate := mem_items_of_reserves done made
  rw [Bool.eq_false_iff] at out
  exact out (CandidateQueue.contains_iff_mem_items.2 ⟨i, candidate, rfl⟩)

/-! ## Runs -/

/-- In every run nothing is quarantined in the future. -/
theorem Run.refused_in_past {config : Config} {ledger : σ} {clock : Clock} {start : Engine σ}
    {past : List (Moment σ)} (run : Run start past e)
    (started : Engine.start config ledger clock = .ok start)
    (found : e.quarantine[hash]? = some refusedAt) : refusedAt ≤ e.now := by
  refine run.invariant
    (I := fun e => ∀ refusedAt, e.quarantine[hash]? = some refusedAt → refusedAt ≤ e.now)
    ?_ (fun {d e e'} s h => ?_) (fun _ _ h => h) refusedAt found
  · obtain ⟨_, -, eq⟩ := Checked.bind_eq_ok_iff.1 started
    cases eq
    intro refusedAt found
    cases Std.TreeMap.getElem?_emptyc.symm.trans found
  · intro refusedAt found
    cases s.bans with
    | same ban =>
      show refusedAt ≤ e'.clock.now
      rw [ban.clock]
      exact h refusedAt (ban.quarantine ▸ found)
    | refused other _ ban =>
      show refusedAt ≤ e'.clock.now
      rw [ban.clock]
      rw [ban.quarantine, Std.TreeMap.getElem?_insert] at found
      split at found
      · cases found
        exact Nat.le_refl _
      · exact h refusedAt found
    | forgot ban =>
      show refusedAt ≤ e'.clock.now
      rw [ban.clock]
      rw [ban.quarantine, Std.TreeMap.getElem?_filter'] at found
      obtain ⟨before, -⟩ := Option.filter_eq_some_iff.1 found
      exact h refusedAt before
    | later e ms => exact Nat.le_add_right_of_le (h refusedAt found)

/-- **A quarantined hash stays out of the queue.**  Take a hash that is quarantined and no candidate
after some run.  It is no candidate after any further operation.  If it is a candidate after any
further run, then its quarantine expired in this run; and before every moment of this run in which
it is reserved its quarantine expired. -/
theorem not_candidate_until_expired {config : Config} {ledger : σ} {clock : Clock}
    {start : Engine σ} {past : List (Moment σ)}
    (started : Engine.start config ledger clock = .ok start) (run : Run start past e)
    (found : e.quarantine[hash]? = some refusedAt) (out : e.candidates.contains hash = false) :
    (∀ (op : Operation) (answer : Outcome) (e' : Engine σ), e.perform op = .ok (answer, e') →
        e'.candidates.contains hash = false) ∧
      ∀ (later : List (Moment σ)) (e' : Engine σ), Run e later e' →
        (e'.candidates.contains hash = true → ∃ d ∈ later, d.expires hash refusedAt) ∧
          ∀ (m : Moment σ) (older : List (Moment σ)), m :: older <:+ later →
            m.reserves hash → ∃ d ∈ older, d.expires hash refusedAt := by
  have barred : e.Barred hash refusedAt :=
    ⟨⟨refusedAt, found, Nat.le_refl _⟩, run.refused_in_past started found, out⟩
  refine ⟨fun op answer e' done => (barred.perform done).1, fun later e' run' => ⟨?_, ?_⟩⟩
  · intro candidate
    rcases barred.run run' with barred | expired
    · cases barred.out.symm.trans candidate
    · exact expired
  · intro m older part reserves
    obtain ⟨e₁, before⟩ := run'.suffix part
    cases before with
    | meddle => cases reserves.1
    | perform before done =>
      rcases barred.run before with barred | expired
      · exact absurd reserves (not_reserves_of_not_candidate done barred.out)
      · exact expired

/-- A peer announces a block, is asked for it, and delivers it. -/
def announcedAndDelivered : List Operation :=
  [.register ⟨1⟩ 0, .receive ⟨1⟩ (.announce [(Block.bare 1).id.item]), .reserveCandidates,
    .receive ⟨1⟩ (.block (Block.bare 1))]

/-- The block is refused, and stays out of the queue as long as it is quarantined. -/
theorem not_candidate_after_refusal :
    ∃ (start : Engine ChainLedger) (past : List (Moment ChainLedger)) (e : Engine ChainLedger),
      Engine.start {} ((ChainLedger.ofGenesis (.genesis 0) 0 10).forbid (Block.bare 1).id.hash)
          {} = .ok start ∧
        Run start past e ∧ e.quarantine[(Block.bare 1).id.hash]? = some 0 ∧
          e.candidates.contains (Block.bare 1).id.hash = false ∧
            ∀ (later : List (Moment ChainLedger)) (e' : Engine ChainLedger), Run e later e' →
              e'.candidates.contains (Block.bare 1).id.hash = true →
                ∃ d ∈ later, d.expires (Block.bare 1).id.hash 0 := by
  obtain ⟨start, past, e, started, run, checked⟩ := exists_run {}
    ((ChainLedger.ofGenesis (.genesis 0) 0 10).forbid (Block.bare 1).id.hash) {}
    announcedAndDelivered (fun (_, e) => e.quarantine[(Block.bare 1).id.hash]? = some 0 &&
      !e.candidates.contains (Block.bare 1).id.hash) (by decide +kernel)
  simp only [Bool.and_eq_true, decide_eq_true_eq, Bool.not_eq_true'] at checked
  obtain ⟨found, out⟩ := checked
  refine ⟨start, past, e, started, run, found, out, fun later e' run' candidate => ?_⟩
  exact ((not_candidate_until_expired started run found out).2 later e' run').1 candidate

end Engine

end BlockRelay
