/-
# The order of fetching

Candidates are numbered in the order in which they are put into the queue, so the entries of a queue
ascend by their numbers (`CandidateQueue.Numbered`), and the order of fetching is strict
(`Numbered.ascending_inFetchOrder`).  This holds after any calls on a queue, and all that a step of
an engine does to its candidates is a few calls (`Step.candidates_calls`).
-/
import BlockRelay.Proofs.Requests

namespace BlockRelay

namespace CandidateQueue

/-! ## Calls -/

/-- A change of a queue, at some time. -/
inductive Call : CandidateQueue → CandidateQueue → Prop where
  | offer (q : CandidateQueue) (item : Item) (now : Nat) : Call q (q.offer item now).2
  | requeue (q : CandidateQueue) (item : Item) (now : Nat) : Call q (q.requeue item now)
  | erase (q : CandidateQueue) (hash : Hash) : Call q (q.erase hash)
  | dropStale (q : CandidateQueue) (now maxAge : Nat) : Call q (q.dropStale now maxAge).2

/-- Several changes of a queue, one after the other. -/
def Calls : CandidateQueue → CandidateQueue → Prop := Relation.ReflTransGen Call

namespace Calls

variable {q q₁ q₂ : CandidateQueue}

/-- No change. -/
theorem refl (q : CandidateQueue) : Calls q q := Relation.ReflTransGen.refl

/-- One change. -/
theorem call (h : Call q q₁) : Calls q q₁ := Relation.ReflTransGen.single h

/-- Changes after changes. -/
theorem trans (h : Calls q q₁) (h' : Calls q₁ q₂) : Calls q q₂ := Relation.ReflTransGen.trans h h'

/-- Forgetting several hashes. -/
theorem foldl_erase (hashes : List Hash) (q : CandidateQueue) :
    Calls q (hashes.foldl (fun q h => q.erase h) q) := by
  induction hashes generalizing q with
  | nil => exact .refl q
  | cons h rest ih => exact (call (.erase q h)).trans (ih _)

end Calls

/-! ## Numbers -/

/-- The entries of a queue ascend by their numbers, and no number was not given out yet. -/
structure Numbered (q : CandidateQueue) : Prop where
  ascending : q.entries.Pairwise fun a b => a.sequence < b.sequence
  bounded : ∀ c ∈ q.entries, c.sequence ≤ q.lastSequence

namespace Numbered

variable {q q' : CandidateQueue}

/-- There is no number at first. -/
theorem empty : Numbered {} where
  ascending := .nil
  bounded := nofun

/-- Fewer entries ascend as well. -/
theorem of_sublist (h : q.Numbered) {entries : List Candidate} (fewer : entries.Sublist q.entries) :
    Numbered { q with entries := entries } :=
  ⟨h.ascending.sublist fewer, fun c mem => h.bounded c (fewer.subset mem)⟩

/-- Forgetting a hash leaves the numbers of the other entries. -/
theorem erase (h : q.Numbered) (hash : Hash) : (q.erase hash).Numbered :=
  h.of_sublist List.filter_sublist

/-- The entry that is put in last has the largest number. -/
theorem requeue (h : q.Numbered) (i : Item) (now : Nat) : (q.requeue i now).Numbered := by
  have others := h.erase i.hash
  have below (c : Candidate) (mem : c ∈ (q.erase i.hash).entries) :
      c.sequence < q.lastSequence + 1 := Nat.lt_succ_of_le (others.bounded c mem)
  constructor
  · show ((q.erase i.hash).entries ++ [Candidate.mk i (q.lastSequence + 1) now]).Pairwise _
    rw [List.pairwise_append]
    refine ⟨others.ascending, List.pairwise_singleton .., fun c mem d last => ?_⟩
    rw [List.mem_singleton.1 last]
    exact below c mem
  · intro c mem
    rcases List.mem_append.1 mem with old | last
    · exact (below c old).le
    · rw [List.mem_singleton.1 last]
      exact Nat.le_refl _

/-- A repeated announcement leaves the numbers alone. -/
theorem refresh (h : q.Numbered) (hash : Hash) (now : Nat) : (q.refresh hash now).Numbered := by
  have same (c : Candidate) :
      (if c.item.hash = hash then { c with lastSeen := now } else c).sequence = c.sequence := by
    split <;> rfl
  constructor
  · show (q.entries.map _).Pairwise _
    rw [List.pairwise_map]
    simp only [same]
    exact h.ascending
  · intro c mem
    obtain ⟨d, hd, rfl⟩ := List.mem_map.1 mem
    rw [same]
    exact h.bounded d hd

/-- An announcement keeps the entries ascending. -/
theorem offer (h : q.Numbered) (i : Item) (now : Nat) : (q.offer i now).2.Numbered := by
  unfold CandidateQueue.offer
  split
  · exact h.refresh i.hash now
  · exact h.requeue i now

/-- **Every call keeps the entries ascending.** -/
theorem call (h : q.Numbered) (c : Call q q') : q'.Numbered := by
  cases c with
  | offer item now => exact h.offer item now
  | requeue item now => exact h.requeue item now
  | erase hash => exact h.erase hash
  | dropStale => exact h.of_sublist List.filter_sublist

/-- All calls keep the entries ascending. -/
theorem calls (h : q.Numbered) (c : Calls q q') : q'.Numbered := by
  induction c with
  | refl => exact h
  | tail _ last ih => exact ih.call last

/-- **The order of fetching is strict.** -/
theorem ascending_inFetchOrder (h : q.Numbered) :
    q.inFetchOrder.Pairwise fun a b => a.order b = .lt := by
  have within (kind : ItemKind) :
      (q.entries.filter (·.item.kind = kind)).Pairwise fun a b => a.order b = .lt := by
    rw [List.pairwise_filter]
    refine h.ascending.imp fun {a b} lt => ?_
    intro ha hb
    rw [decide_eq_true_eq] at ha hb
    simp [Candidate.order, ha, hb, Nat.compare_eq_lt.2 lt]
  unfold inFetchOrder
  rw [List.pairwise_append]
  refine ⟨within .block, within .transaction, fun a ha b hb => ?_⟩
  have block := of_decide_eq_true (List.mem_filter.1 ha).2
  have transaction := of_decide_eq_true (List.mem_filter.1 hb).2
  have lt : compare ItemKind.block ItemKind.transaction = .lt := rfl
  simp [Candidate.order, block, transaction, lt]

end Numbered

end CandidateQueue

/-! ## The candidates of an engine -/

namespace Engine

variable {σ : Type}

/-- Releasing objects puts some of them back into the queue. -/
theorem calls_releaseItems (e : Engine σ) (items : List Item) :
    e.candidates.Calls (e.releaseItems items).candidates := by
  unfold releaseItems
  induction items generalizing e with
  | nil => exact .refl _
  | cons i rest ih =>
    refine CandidateQueue.Calls.trans ?_ (ih (e.releaseItem i))
    unfold releaseItem
    split
    · exact .call (.requeue _ i e.now)
    · exact .refl _

/-- A removal puts some of what was reserved on the peer back into the queue. -/
theorem calls_remove (e : Engine σ) (id : PeerId) (r : Option Reason) :
    e.candidates.Calls (e.remove id r).candidates := by
  cases hp : e.peers[id]? with
  | none =>
    rw [remove_of_unknown hp]
    exact .refl _
  | some p =>
    obtain ⟨e', same, -, -, eq⟩ := candidates_remove hp r
    rw [eq, ← same]
    exact calls_releaseItems e' p.reserved.keys

/-- Several removals put back some of what was reserved on the peers. -/
theorem calls_disconnectAll (e : Engine σ) (leaving : List (PeerId × Reason)) :
    e.candidates.Calls (e.disconnectAll leaving).candidates := by
  unfold disconnectAll
  induction leaving generalizing e with
  | nil => exact .refl _
  | cons l rest ih => exact (calls_remove e l.1 (some l.2)).trans (ih _)

/-- Reserving a candidate takes it out of the queue. -/
theorem calls_foldl_reserveOne (order : List Candidate) (made : List (PeerId × Item))
    (e : Engine σ) : e.candidates.Calls (order.foldl reserveOne (made, e)).2.candidates := by
  induction order generalizing made e with
  | nil => exact .refl _
  | cons c rest ih =>
    have first : e.candidates.Calls (reserveOne (made, e) c).2.candidates := by
      rcases reserveOne_cases made e c with eq | ⟨id, p, -, -, eq⟩ <;> rw [eq]
      · exact .refl _
      · exact .call (.erase _ c.item.hash)
    exact first.trans (ih (reserveOne (made, e) c).1 (reserveOne (made, e) c).2)

variable [Ledger σ]

/-- **What a step does to the candidates.**  The candidates after a step are those after a few
calls on the queue. -/
theorem Step.candidates_calls {d : Deed} {e e' : Engine σ} (s : Step d e e') :
    e.candidates.Calls e'.candidates := by
  by_cases keeps : d.KeepsRequests
  · rw [(s.sameRequests keeps).candidates]
    exact .refl _
  cases s with
  | openSession | arrive => exact .refl _
  | remove => exact calls_remove _ _ _
  | @takeIn _ id _ i =>
    rcases takeIn_cases e id i with eq | ⟨_, _, eq, rfl | ⟨-, rfl⟩⟩ <;> rw [eq]
    · exact .refl _
    · exact .refl _
    · exact .call (.offer _ i e.now)
  | dropStale e maxAge => exact .call (.dropStale _ e.now maxAge)
  | reserve =>
    rw [requestReserved_eq]
    exact calls_foldl_reserveOne _ [] e
  | submitAnnounced _ _ _ done =>
    rcases submitAnnounced_cases done with ⟨-, -, rfl⟩ | ⟨result, ledger, -, result_eq⟩
    · exact .refl _
    · cases result with
      | ok transactions =>
        obtain ⟨-, rfl⟩ := result_eq
        exact .foldl_erase transactions e.candidates
      | error =>
        obtain ⟨-, quarantine, rfl⟩ := result_eq
        exact .refl _
  | @submitTransaction _ _ _ t =>
    rcases submitTransaction_cases (e.modifyPeer _ fun p =>
        { p with reserved := p.reserved.erase t.item }) t with eq | ⟨_, _, _, _, eq⟩ <;> rw [eq]
    · exact .refl _
    · exact .refl _
  | @requestBlocks _ id p batch =>
    obtain ⟨_, _, eq⟩ := requestBlocks_eq e id batch
    rw [eq]
    exact .refl _
  | refuse _ _ done =>
    rw [← (SameRequests.submitFetched done).candidates]
    exact calls_disconnectAll _ _
  | welcome | restart | sendSummary | sendAnswer | finishCatchUp | takeUp | measure
  | announceSpread | serve | due | rest | absorb | suspend | dropOrphan | settle | forgetOutdated
  | advanceFlood | advanceClock | broadcast => exact absurd trivial keeps

/-- In every run the candidates stay numbered. -/
theorem Run.numbered {config : Config} {ledger : σ} {clock : Clock} {start e : Engine σ}
    {past : List (Moment σ)} (started : Engine.start config ledger clock = .ok start)
    (run : Run start past e) : e.candidates.Numbered := by
  refine run.invariant (I := fun e => e.candidates.Numbered) ?_
    (fun s h => h.calls s.candidates_calls) fun _ _ h => h
  obtain ⟨_, -, eq⟩ := Checked.bind_eq_ok_iff.1 started
  cases eq
  exact .empty

end Engine

end BlockRelay
