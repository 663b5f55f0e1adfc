/-
# Passes over the waiting blocks

A pass takes waiting blocks one after the other.  It submits a block that is next in line, and
drops one whose origin has left (`Engine.Handling.Legal`); every other block it leaves where it is.
So no block is lost: what was in hand before a pass waits after it, or was taken by it, and not
both (`Engine.Handles.contains_waiting_iff`).

The blocks that a pass submits ascend.  Nothing that a sweep has visited is next in line before the
sweep ends, since only higher blocks come to the front (`Engine.Covered.visit`).  So the sweeps
after the first one submit nothing.
-/
import BlockRelay.Proofs.Fronts
import BlockRelay.Proofs.Releases

namespace BlockRelay.Engine

/-! ## What a pass takes -/

/-- A waiting block that a pass takes, and the engine before and after: the block is submitted, or
it is dropped. -/
structure Handling (σ : Type) where
  before : Engine σ
  hash : Hash
  taken : WaitingBlock
  submitted : Bool
  after : Engine σ

/-- The blocks that are submitted, in the order in which they are. -/
def submittedIds {σ : Type} (list : List (Handling σ)) : List BlockId :=
  (list.filter (·.submitted)).map (·.taken.block.id)

/-- What is submitted first and later. -/
theorem submittedIds_append {σ : Type} (list list' : List (Handling σ)) :
    submittedIds (list ++ list') = submittedIds list ++ submittedIds list' := by
  rw [submittedIds, List.filter_append, List.map_append]
  rfl

variable {σ : Type} [Ledger σ]

/-- When a pass takes a waiting block.  A block is submitted if its origin is registered and it is
next in line; it then leaves the front of every queue.  A block is dropped if its origin has
left. -/
inductive Handling.Legal : Handling σ → Prop where
  | submit {e e' : Engine σ} {hash : Hash} {w : WaitingBlock} (hw : e.waiting[hash]? = some w)
      (here : e.isRegistered w.origin = true) (next : e.anyPeer (heads hash) = true)
      (done : (e.takeNext hash).applyFetched w.block = .ok e') :
    Legal ⟨e, hash, w, true, e'⟩
  | drop {e : Engine σ} {hash : Hash} {w : WaitingBlock} (hw : e.waiting[hash]? = some w)
      (gone : e.isRegistered w.origin = false) :
    Legal ⟨e, hash, w, false, e.dropOrphan hash⟩

/-- Taking waiting blocks one after the other. -/
inductive Handles : Engine σ → List (Handling σ) → Engine σ → Prop where
  | nil (e : Engine σ) : Handles e [] e
  | cons {h : Handling σ} {rest : List (Handling σ)} {e' : Engine σ} (legal : h.Legal)
      (later : Handles h.after rest e') : Handles h.before (h :: rest) e'

/-- A block that is taken was waiting, and does not wait any more. -/
theorem Handling.Legal.hands {h : Handling σ} (legal : h.Legal) :
    h.before.waiting[h.hash]? = some h.taken ∧ h.after.waiting = h.before.waiting.erase h.hash ∧
      h.after.arrived = h.before.arrived := by
  cases legal with
  | submit hw _ _ done =>
    obtain ⟨arrived, waiting⟩ := hands_applyFetched done
    exact ⟨hw, waiting, arrived⟩
  | drop hw => exact ⟨hw, rfl, rfl⟩

/-- A block that is submitted was in front of the queue of some peer. -/
theorem Handling.Legal.fronts {h : Handling σ} (legal : h.Legal) (submitted : h.submitted = true) :
    ∃ id, h.before.Fronts id h.hash := by
  cases legal with
  | submit _ _ next => exact anyPeer_heads_iff.1 next
  | drop => cases submitted

/-- A block that is submitted leaves the front of every queue, and no other queue changes. -/
theorem Handling.Legal.popped {h : Handling σ} (legal : h.Legal) (submitted : h.submitted = true)
    {id : PeerId} {p' : Peer} (hp' : h.after.peers[id]? = some p') :
    ∃ p, h.before.peers[id]? = some p ∧
      p'.toFetch = if heads h.hash p then p.toFetch.tail else p.toFetch := by
  cases legal with
  | submit _ _ _ applied => exact toFetch_applyFetched applied hp'
  | drop => cases submitted

/-- The origin of a block that is dropped has left. -/
theorem Handling.Legal.orphaned {h : Handling σ} (legal : h.Legal) (dropped : h.submitted = false) :
    h.before.isRegistered h.taken.origin = false := by
  cases legal with
  | submit => cases dropped
  | drop _ gone => exact gone

namespace Handles

variable {e e₁ e' : Engine σ} {list list' : List (Handling σ)} {hash : Hash}

/-- Taking one waiting block. -/
theorem single {h : Handling σ} (legal : h.Legal) : Handles h.before [h] h.after :=
  .cons legal (.nil h.after)

/-- Taking more waiting blocks. -/
theorem append (h : Handles e list e₁) (h' : Handles e₁ list' e') :
    Handles e (list ++ list') e' := by
  induction h with
  | nil => exact h'
  | cons legal _ ih => exact .cons legal (ih h')

/-- Every block is taken legally. -/
theorem legal (h : Handles e list e') : ∀ x ∈ list, x.Legal := by
  induction h with
  | nil => exact List.forall_mem_nil _
  | cons legal _ ih => exact List.forall_mem_cons.2 ⟨legal, ih⟩

/-- Nothing arrives while waiting blocks are taken. -/
theorem arrived (h : Handles e list e') : e'.arrived = e.arrived := by
  induction h with
  | nil => rfl
  | cons legal _ ih => exact ih.trans legal.hands.2.2

/-- What waits afterwards is what was waiting and was not taken. -/
theorem getElem?_waiting (h : Handles e list e') (hash : Hash) :
    e'.waiting[hash]? = if hash ∈ list.map Handling.hash then none else e.waiting[hash]? := by
  induction h with
  | nil => rfl
  | @cons x rest _ legal _ ih =>
    rw [ih, legal.hands.2.1, Std.TreeMap.getElem?_erase]
    simp only [Std.LawfulEqCmp.compare_eq_iff_eq, List.map_cons, List.mem_cons]
    by_cases later : hash ∈ rest.map Handling.hash
    · rw [if_pos later, if_pos (.inr later)]
    by_cases here : x.hash = hash
    · rw [if_neg later, if_pos here, if_pos (.inl here.symm)]
    · have other : ¬ (hash = x.hash ∨ hash ∈ rest.map Handling.hash) :=
        not_or.2 ⟨fun eq => here eq.symm, later⟩
      rw [if_neg later, if_neg here, if_neg other]

/-- What is taken was waiting. -/
theorem waited (h : Handles e list e') : ∀ x ∈ list, e.waiting[x.hash]? = some x.taken := by
  induction h with
  | nil => exact List.forall_mem_nil _
  | cons legal _ ih =>
    refine List.forall_mem_cons.2 ⟨legal.hands.1, fun x mem => ?_⟩
    have later := ih x mem
    rw [legal.hands.2.1, Std.TreeMap.getElem?_erase] at later
    split at later
    · cases later
    · exact later

/-- No waiting block is taken twice. -/
theorem nodup (h : Handles e list e') : (list.map Handling.hash).Nodup := by
  induction h with
  | nil => exact List.nodup_nil
  | @cons x rest _ legal later ih =>
    rw [List.map_cons]
    refine List.nodup_cons.2 ⟨fun mem => ?_, ih⟩
    obtain ⟨y, mem, same⟩ := List.mem_map.1 mem
    have waits := later.waited y mem
    rw [same, legal.hands.2.1, Std.TreeMap.getElem?_erase_self] at waits
    cases waits

/-- **No block is lost.**  What was waiting still waits, or was taken. -/
theorem contains_waiting_iff (h : Handles e list e') (hash : Hash) :
    e.waiting.contains hash = true ↔
      e'.waiting.contains hash = true ∨ ∃ x ∈ list, x.hash = hash := by
  simp only [Std.TreeMap.contains_eq_isSome_getElem?, h.getElem?_waiting hash, List.mem_map]
  by_cases taken : ∃ x ∈ list, x.hash = hash
  · obtain ⟨x, mem, rfl⟩ := taken
    rw [h.waited x mem]
    simp only [Option.isSome_some, true_iff]
    exact .inr ⟨x, mem, rfl⟩
  · rw [if_neg taken]
    simp only [taken, or_false]

/-- Blocks that are taken in the order of their hashes are submitted in the order of heights. -/
theorem ascending (h : Handles e list e') (keyed : e.Keyed)
    (sorted : (list.map Handling.hash).Pairwise fun a b => compare a b = .lt) :
    (submittedIds list).Pairwise BlockId.Precedes := by
  have own (x : Handling σ) (mem : x ∈ list) : x.taken.block.id.hash = x.hash :=
    keyed x.hash x.taken (h.waited x mem)
  refine List.pairwise_map.2 (List.Pairwise.sublist List.filter_sublist ?_)
  refine (List.pairwise_map.1 sorted).imp_of_mem fun {x y} hx hy lt => ?_
  rw [Block.precedes_iff, own x hx, own y hy]
  exact lt

end Handles

/-! ## One visit -/

omit [Ledger σ] in
/-- What waits is still to be visited, or it comes before all that is, and is not next in line. -/
def Covered (e : Engine σ) (rest : List Hash) : Prop :=
  ∀ hash : Hash, e.waiting.contains hash = true → hash ∈ rest ∨
    (∀ next ∈ rest, compare hash next = .lt) ∧ e.anyPeer (heads hash) = false

omit [Ledger σ] in
/-- A waiting block is taken, and what comes to the front comes after it. -/
theorem Covered.erase {e e' : Engine σ} {hash : Hash} {rest : List Hash}
    (h : e.Covered (hash :: rest)) (waiting : e'.waiting = e.waiting.erase hash)
    (fronts : ∀ id other, e'.Fronts id other → e.Fronts id other ∨ compare hash other = .lt) :
    e'.Covered rest := by
  intro other waits
  rw [waiting, Std.TreeMap.contains_erase, Bool.and_eq_true, bne_iff_ne, ne_eq,
    Std.LawfulEqCmp.compare_eq_iff_eq] at waits
  rcases h other waits.2 with mem | ⟨before, notFront⟩
  · exact .inl ((List.mem_cons.1 mem).resolve_left fun eq => waits.1 eq.symm)
  · refine .inr ⟨fun next mem => before next (List.mem_cons_of_mem _ mem), ?_⟩
    refine Bool.eq_false_iff.2 fun front => ?_
    obtain ⟨id, front⟩ := anyPeer_heads_iff.1 front
    rcases fronts id other front with old | after
    · exact Bool.eq_false_iff.1 notFront (anyPeer_heads_iff.2 ⟨id, old⟩)
    · exact Std.OrientedCmp.not_lt_of_lt (before hash (List.mem_cons_self ..)) after

/-- **What a sweep leaves behind stays behind.**  A visit brings nothing to the front that comes
before what is still to be visited. -/
theorem Covered.visit {s s' : ApplyPass σ} {hash : Hash} {rest : List Hash}
    (done : s.visit hash = .ok s') (stretches : s.engine.QueuesConsecutive)
    (sorted : (hash :: rest).Pairwise fun a b => compare a b = .lt)
    (h : s.engine.Covered (hash :: rest)) : s'.engine.Covered rest := by
  cases ApplyPass.visited_of_visit done with
  | passed notNext =>
    intro other waits
    rcases h other waits with mem | ⟨before, notFront⟩
    · rcases List.mem_cons.1 mem with rfl | mem
      · obtain ⟨w, hw⟩ := contains_iff_exists.1 waits
        exact .inr ⟨(List.pairwise_cons.1 sorted).1, notNext w hw⟩
      · exact .inl mem
    · exact .inr ⟨fun next mem => before next (List.mem_cons_of_mem _ mem), notFront⟩
  | dropped => exact h.erase rfl fun _ _ => .inl
  | submitted _ _ _ applied =>
    exact h.erase (hands_applyFetched applied).2 fun _ _ => fronts_applyFetched applied stretches

/-- Once nothing that waits is next in line, nothing is submitted. -/
theorem Covered.submittedIds_eq_nil {e e' : Engine σ} {list : List (Handling σ)}
    (h : e.Covered []) (handles : Handles e list e') : submittedIds list = [] := by
  have notNext {e : Engine σ} (h : e.Covered []) {hash : Hash}
      (waits : e.waiting.contains hash = true) : e.anyPeer (heads hash) = false :=
    ((h hash waits).resolve_left List.not_mem_nil).2
  induction handles with
  | nil => rfl
  | cons legal _ ih =>
    cases legal with
    | submit hw _ next =>
      have waits := contains_iff_exists.2 ⟨_, hw⟩
      exact absurd next (Bool.eq_false_iff.1 (notNext h waits))
    | drop =>
      exact ih fun other waits =>
        .inr ⟨nofun, notNext h (Std.TreeMap.contains_of_contains_erase waits)⟩

/-- What was taken on the way from one state of a pass to another. -/
structure ApplyPass.Takes (s s' : ApplyPass σ) (list : List (Handling σ)) : Prop where
  handles : Handles s.engine list s'.engine
  count : s'.applied = s.applied + (submittedIds list).length

/-- What was taken first and later. -/
theorem ApplyPass.Takes.append {s s₁ s' : ApplyPass σ} {list list' : List (Handling σ)}
    (h : s.Takes s₁ list) (h' : s₁.Takes s' list') : s.Takes s' (list ++ list') := by
  refine ⟨h.handles.append h'.handles, ?_⟩
  rw [h'.count, h.count, submittedIds_append, List.length_append, Nat.add_assoc]

/-- A visit takes the visited block, or nothing. -/
theorem takes_visit {s s' : ApplyPass σ} {hash : Hash} (done : s.visit hash = .ok s') :
    ∃ list, s.Takes s' list ∧ (list.map Handling.hash).Sublist [hash] := by
  cases ApplyPass.visited_of_visit done with
  | passed => exact ⟨[], ⟨.nil _, rfl⟩, List.nil_sublist _⟩
  | dropped hw gone => exact ⟨_, ⟨.single (.drop hw gone), rfl⟩, List.Sublist.refl _⟩
  | submitted hw here next applied =>
    exact ⟨_, ⟨.single (.submit hw here next applied), rfl⟩, List.Sublist.refl _⟩

/-! ## Sweeps -/

/-- A sweep takes some of the visited blocks, in the order in which it visits them. -/
theorem takes_sweep {budget : Nat} {hashes : List Hash} {s s' : ApplyPass σ}
    (done : ApplyPass.sweep budget hashes s = .ok s') :
    ∃ list, s.Takes s' list ∧ (list.map Handling.hash).Sublist hashes := by
  induction hashes generalizing s with
  | nil =>
    cases done
    exact ⟨[], ⟨.nil _, rfl⟩, List.nil_sublist _⟩
  | cons hash rest ih =>
    unfold ApplyPass.sweep at done
    split at done
    · cases done
      exact ⟨[], ⟨.nil _, rfl⟩, List.nil_sublist _⟩
    · obtain ⟨s₁, visited, done⟩ := Checked.bind_eq_ok_iff.1 done
      obtain ⟨list, first, here⟩ := takes_visit visited
      obtain ⟨list', later, there⟩ := ih done
      refine ⟨list ++ list', first.append later, ?_⟩
      rw [List.map_append]
      exact here.append there

/-- A sweep submits no more blocks than its budget allows. -/
theorem applied_sweep_le {budget : Nat} {hashes : List Hash} {s s' : ApplyPass σ}
    (done : ApplyPass.sweep budget hashes s = .ok s') (le : s.applied ≤ budget) :
    s'.applied ≤ budget := by
  induction hashes generalizing s with
  | nil =>
    cases done
    exact le
  | cons hash rest ih =>
    unfold ApplyPass.sweep at done
    split at done
    next =>
      cases done
      exact le
    next left =>
      obtain ⟨s₁, visited, done⟩ := Checked.bind_eq_ok_iff.1 done
      refine ih done ?_
      cases ApplyPass.visited_of_visit visited with
      | passed | dropped => exact le
      | submitted => exact Nat.not_le.1 left

/-- A sweep over all that waits uses up the budget, or leaves nothing that is next in line. -/
theorem covered_sweep {budget : Nat} {hashes : List Hash} {s s' : ApplyPass σ}
    (done : ApplyPass.sweep budget hashes s = .ok s') (stretches : s.engine.QueuesConsecutive)
    (sorted : hashes.Pairwise fun a b => compare a b = .lt) (covered : s.engine.Covered hashes) :
    budget ≤ s'.applied ∨ s'.engine.Covered [] := by
  induction hashes generalizing s with
  | nil =>
    cases done
    exact .inr covered
  | cons hash rest ih =>
    unfold ApplyPass.sweep at done
    split at done
    next used =>
      cases done
      exact .inl used
    next =>
      obtain ⟨s₁, visited, done⟩ := Checked.bind_eq_ok_iff.1 done
      have course := (moves_applyVisit visited).course fun _ routine => routine _
      exact ih done (course.preserves (fun _ s => QueuesConsecutive.step s) stretches)
        (List.pairwise_cons.1 sorted).2 (covered.visit visited stretches sorted)

/-! ## Passes -/

/-- What a pass takes. -/
theorem exists_takes_run {budget n : Nat} {s s' : ApplyPass σ}
    (done : ApplyPass.run budget n s = .ok s') : ∃ list, s.Takes s' list := by
  induction n generalizing s with
  | zero =>
    cases done
    exact ⟨[], .nil _, rfl⟩
  | succ n ih =>
    obtain ⟨s₁, swept, done⟩ := Checked.bind_eq_ok_iff.1 done
    obtain ⟨list, ⟨handles, count⟩, -⟩ := takes_sweep swept
    split at done
    · cases done
      exact ⟨list, handles, count⟩
    · obtain ⟨list', later⟩ := ih done
      exact ⟨list ++ list', ApplyPass.Takes.append ⟨handles, count⟩ later⟩

/-- **The order of a pass.**  The blocks that are submitted ascend, as all of them are submitted by
the first sweep. -/
theorem takes_run {budget n : Nat} {s s' : ApplyPass σ}
    (done : ApplyPass.run budget n s = .ok s') (keyed : s.engine.Keyed)
    (stretches : s.engine.QueuesConsecutive) :
    ∃ list, s.Takes s' list ∧ (submittedIds list).Pairwise BlockId.Precedes := by
  induction n generalizing s with
  | zero =>
    cases done
    exact ⟨[], ⟨.nil _, rfl⟩, .nil⟩
  | succ n ih =>
    obtain ⟨s₁, swept, done⟩ := Checked.bind_eq_ok_iff.1 done
    have sorted := Std.TreeMap.ordered_keys (t := s.engine.waiting)
    obtain ⟨list, ⟨handles, count⟩, among⟩ := takes_sweep swept
    have ascending := handles.ascending keyed (sorted.sublist among)
    split at done
    next =>
      cases done
      exact ⟨list, ⟨handles, count⟩, ascending⟩
    next goesOn =>
      -- the budget is not used up, so that nothing is next in line for the sweeps that follow
      have unused : ¬ budget ≤ s₁.applied := fun used => goesOn (by simp [used])
      have covered := (covered_sweep swept stretches sorted fun _ waits =>
        .inl (Std.TreeMap.mem_keys.2 waits)).resolve_left unused
      have course := (moves_sweep budget _ swept).course fun _ routine => routine _
      obtain ⟨list', later, -⟩ := ih done (course.preserves (fun _ s => Keyed.step s) keyed)
        (course.preserves (fun _ s => QueuesConsecutive.step s) stretches)
      refine ⟨list ++ list', ApplyPass.Takes.append ⟨handles, count⟩ later, ?_⟩
      rwa [submittedIds_append, covered.submittedIds_eq_nil later.handles, List.append_nil]

/-- A pass submits no more blocks than its budget allows. -/
theorem applied_run_le {budget n : Nat} {s s' : ApplyPass σ}
    (done : ApplyPass.run budget n s = .ok s') (le : s.applied ≤ budget) :
    s'.applied ≤ budget := by
  induction n generalizing s with
  | zero =>
    cases done
    exact le
  | succ n ih =>
    obtain ⟨s₁, swept, done⟩ := Checked.bind_eq_ok_iff.1 done
    have first := applied_sweep_le swept le
    split at done
    · cases done
      exact first
    · exact ih done first

/-- **A pass ends by itself.**  With more sweeps than waiting blocks, more of them change
nothing. -/
theorem run_eq_of_size_lt {budget n m : Nat} {s : ApplyPass σ} (enough : s.engine.waiting.size < n)
    (more : n ≤ m) : ApplyPass.run budget m s = ApplyPass.run budget n s := by
  induction n generalizing m s with
  | zero => exact absurd enough (Nat.not_lt_zero _)
  | succ n ih =>
    obtain ⟨m, rfl⟩ := Nat.exists_eq_add_of_le' (Nat.one_le_of_lt more)
    simp only [ApplyPass.run]
    cases swept : ApplyPass.sweep budget s.engine.waiting.keys { s with progressed := false } with
    | error => rfl
    | ok s₁ =>
      show (if _ then _ else _) = (if _ then _ else _)
      split
      next => rfl
      next goesOn =>
        simp only [Bool.or_eq_true, decide_eq_true_eq, Bool.not_eq_true', not_or,
          Bool.not_eq_false] at goesOn
        rcases (sweep_cases swept).2 with used | gains | idles
        · exact absurd used goesOn.1
        · exact ih (Nat.lt_of_lt_of_le gains.fewer (Nat.le_of_lt_succ enough))
            (Nat.le_of_succ_le_succ more)
        · cases idles.progressed.symm.trans goesOn.2

/-! ## Aborts -/

/-- Whether the ledger aborts at a waiting block that is next in line and whose origin is
registered. -/
def AbortsAt (e : Engine σ) (o : Overflow) : Prop :=
  ∃ (hash : Hash) (w : WaitingBlock), e.waiting[hash]? = some w ∧
    e.isRegistered w.origin = true ∧ e.anyPeer (heads hash) = true ∧
      Ledger.applyBlock e.ledger w.block true = .error o

/-- Submitting a block aborts only with the ledger. -/
theorem applyFetched_eq_error {e : Engine σ} {b : Block} {o : Overflow}
    (aborted : e.applyFetched b = .error o) : Ledger.applyBlock e.ledger b true = .error o := by
  have submitted : e.submitFetched b = .error o := by
    rcases Checked.bind_eq_error_iff.1 aborted with aborted | ⟨⟨r, e₁⟩, -, aborted⟩
    · exact aborted
    · cases r <;> cases aborted
  unfold submitFetched at submitted
  dsimp only at submitted
  split at submitted
  · cases submitted
  · rcases Checked.bind_eq_error_iff.1 submitted with applied | ⟨⟨r, e₁⟩, -, aborted⟩
    · rcases Checked.bind_eq_error_iff.1 applied with ledger | ⟨_, -, aborted⟩
      · exact ledger
      · cases aborted
    · cases r <;> cases aborted

/-- A visit aborts only with the ledger. -/
theorem visit_eq_error {s : ApplyPass σ} {hash : Hash} {o : Overflow}
    (aborted : s.visit hash = .error o) : s.engine.AbortsAt o := by
  simp only [ApplyPass.visit] at aborted
  split at aborted
  · cases aborted
  next w hw =>
    split at aborted
    · cases aborted
    next here =>
      split at aborted
      next next =>
        rcases Checked.bind_eq_error_iff.1 aborted with applied | ⟨_, -, aborted⟩
        · have ledger := applyFetched_eq_error applied
          exact ⟨hash, w, hw, by simpa using here, next, ledger⟩
        · cases aborted
      next => cases aborted

/-- A sweep aborts only with the ledger. -/
theorem sweep_eq_error {budget : Nat} {hashes : List Hash} {s : ApplyPass σ} {o : Overflow}
    (aborted : ApplyPass.sweep budget hashes s = .error o) :
    ∃ list e, Handles s.engine list e ∧ e.AbortsAt o := by
  induction hashes generalizing s with
  | nil => cases aborted
  | cons hash rest ih =>
    unfold ApplyPass.sweep at aborted
    split at aborted
    · cases aborted
    · rcases Checked.bind_eq_error_iff.1 aborted with here | ⟨s₁, visited, later⟩
      · exact ⟨[], s.engine, .nil _, visit_eq_error here⟩
      · obtain ⟨list, first, -⟩ := takes_visit visited
        obtain ⟨list', e, handles, aborts⟩ := ih later
        exact ⟨list ++ list', e, first.handles.append handles, aborts⟩

/-- A pass aborts only with the ledger. -/
theorem run_eq_error {budget n : Nat} {s : ApplyPass σ} {o : Overflow}
    (aborted : ApplyPass.run budget n s = .error o) :
    ∃ list e, Handles s.engine list e ∧ e.AbortsAt o := by
  induction n generalizing s with
  | zero => cases aborted
  | succ n ih =>
    rcases Checked.bind_eq_error_iff.1 aborted with here | ⟨s₁, swept, later⟩
    · have first := sweep_eq_error here
      exact first
    · split at later
      · cases later
      · obtain ⟨list, first, -⟩ := takes_sweep swept
        obtain ⟨list', e, handles, aborts⟩ := ih later
        exact ⟨list ++ list', e, first.handles.append handles, aborts⟩

/-! ## Whole passes -/

/-- A pass over the waiting blocks of `e` that takes the blocks of `list`, answers `n` and ends in
`e'`. -/
structure Pass (e : Engine σ) (list : List (Handling σ)) (n : Nat) (e' : Engine σ) : Prop where
  /-- Arrived blocks are put with those that wait, and then blocks are taken one by one. -/
  handles : ∃ last, Handles e.absorb.resume list last ∧ (e' = last ∨ e' = last.exhaust)
  /-- The blocks that are submitted ascend by height and hash. -/
  ascending : (submittedIds list).Pairwise BlockId.Precedes
  count : n = (submittedIds list).length
  bounded : n ≤ max e.config.sync.applyBudget 1
  /-- A block that is submitted is in front of the queue of some registered peer. -/
  fronts : ∀ h ∈ list, h.submitted = true → ∃ id, h.before.Fronts id h.hash
  /-- A block that is submitted leaves the front of every queue, and no other queue changes. -/
  popped : ∀ h ∈ list, h.submitted = true →
    ∀ (id : PeerId) (p' : Peer), h.after.peers[id]? = some p' → ∃ p, h.before.peers[id]? = some p ∧
      p'.toFetch = if heads h.hash p then p.toFetch.tail else p.toFetch
  /-- The origin of a block that is dropped is not registered. -/
  orphaned : ∀ h ∈ list, h.submitted = false → h.before.isRegistered h.taken.origin = false
  /-- Every block that is taken was in hand, and is known by its own hash. -/
  inHand : ∀ h ∈ list, e.InHand h.taken ∧ h.taken.block.id.hash = h.hash
  /-- What was in hand still waits, or was taken. -/
  whole : ∀ hash : Hash, e.Delivered hash ↔
    e'.waiting.contains hash = true ∨ ∃ h ∈ list, h.hash = hash
  /-- What was taken does not wait any more. -/
  apart : ∀ h ∈ list, e'.waiting.contains h.hash = false
  /-- Nothing is taken twice. -/
  once : (list.map Handling.hash).Nodup
  /-- What waits was in hand. -/
  kept : ∀ w, e'.InHand w → e.InHand w
  arrived : e'.arrived = []
  /-- No block is in process with any peer. -/
  atRest : e'.AtRest
  /-- The budget is used up, or nothing that waits is next in line. -/
  ended : max e.config.sync.applyBudget 1 ≤ n ∨ e'.Quiet

omit [Ledger σ] in
/-- What waits when a pass begins is in hand. -/
theorem inHand_of_resume {e : Engine σ} {hash : Hash} {w : WaitingBlock}
    (hw : e.absorb.resume.waiting[hash]? = some w) : e.InHand w := by
  obtain ⟨suspended, resumed⟩ := resume_eq e.absorb
  rw [resumed] at hw
  rcases getElem?_foldl_insert hw with old | ⟨mem, -⟩
  · exact .inr ⟨hash, old⟩
  · exact .inl mem

omit [Ledger σ] in
/-- What is in hand waits when a pass begins. -/
theorem Keyed.delivered_iff_resume {e : Engine σ} (keyed : e.Keyed) {hash : Hash} :
    e.Delivered hash ↔ e.absorb.resume.waiting.contains hash = true := by
  obtain ⟨suspended, resumed⟩ := resume_eq e.absorb
  rw [resumed, keyed.delivered_iff]
  exact contains_foldl_insert.symm

/-- A pass that is carried out is one. -/
theorem exists_pass {e e' : Engine σ} {n : Nat} (keyed : e.Keyed)
    (stretches : e.QueuesConsecutive) (atRest : e.AtRest) (done : e.applyWaiting = .ok (n, e')) :
    ∃ list, Pass e list n e' := by
  have course := (moves_applyWaiting done).course fun _ routine => routine _
  have settled : e'.Keyed ∧ e'.AtRest :=
    course.preserves (I := fun e => e.Keyed ∧ e.AtRest)
      (fun _ s h => ⟨h.1.step s, h.2.step s h.1⟩) ⟨keyed, atRest⟩
  have opening := (moves_resume e).course fun _ routine => routine
  have keyed₀ := opening.preserves (fun _ s => Keyed.step s) keyed
  have stretches₀ := opening.preserves (fun _ s => QueuesConsecutive.step s) stretches
  obtain ⟨s, ran, rfl, final⟩ := applyWaiting_cases done
  obtain ⟨list, ⟨handles, count⟩, ascending⟩ := takes_run ran keyed₀ stretches₀
  have ended := run_quiet ran (arrived_resume e) (Nat.lt_succ_self _)
  replace final : e' = s.engine ∨ e' = s.engine.exhaust := final.imp_left And.left
  have waiting : e'.waiting = s.engine.waiting := by
    rcases final with rfl | rfl <;> rfl
  have arrived : e'.arrived = [] := by
    rcases final with rfl | rfl <;> exact handles.arrived.trans (arrived_resume e)
  refine ⟨list, ?_⟩
  exact
    { handles := ⟨s.engine, handles, final⟩
      ascending := ascending
      count := count.trans (Nat.zero_add _)
      bounded := applied_run_le ran (Nat.zero_le _)
      fronts := fun h mem => (handles.legal h mem).fronts
      popped := fun h mem submitted _ _ => (handles.legal h mem).popped submitted
      orphaned := fun h mem => (handles.legal h mem).orphaned
      inHand := fun h mem =>
        ⟨inHand_of_resume (handles.waited h mem), keyed₀ h.hash h.taken (handles.waited h mem)⟩
      whole := fun hash => by
        rw [keyed.delivered_iff_resume, handles.contains_waiting_iff, waiting]
      apart := fun h mem => by
        rw [waiting, Std.TreeMap.contains_eq_isSome_getElem?, handles.getElem?_waiting,
          if_pos (List.mem_map_of_mem mem)]
        rfl
      once := handles.nodup
      kept := by
        rintro w (mem | ⟨hash, hw⟩)
        · rw [arrived] at mem
          cases mem
        · rw [waiting, handles.getElem?_waiting] at hw
          split at hw
          · cases hw
          · exact inHand_of_resume hw
      arrived := arrived
      atRest := settled.2
      ended := by
        refine ended.imp_right fun quiet => ?_
        rcases final with rfl | rfl
        · exact quiet
        · exact ⟨quiet.arrived, quiet.waiting⟩ }

/-- **A pass over the waiting blocks.**  In every run, a pass submits blocks in the order of their
heights and hashes, no more of them than its budget allows, and answers how many.  Each of them is
in front of the queue of some peer, and leaves the front of every queue.  What was in hand before
the pass waits after it, was submitted, or was dropped because its origin had left.  No block is
in process afterwards.  A pass aborts only where the ledger does, and ends by itself: more sweeps
than one for each waiting block, and one more, change nothing. -/
theorem Run.pass_in_order {config : Config} {ledger : σ} {clock : Clock} {start e : Engine σ}
    {past : List (Moment σ)} (started : Engine.start config ledger clock = .ok start)
    (run : Run start past e) :
    (∀ n e', e.applyWaiting = .ok (n, e') → ∃ list, Pass e list n e') ∧
      (∀ o, e.applyWaiting = .error o →
        ∃ list last, Handles e.absorb.resume list last ∧ last.AbortsAt o) ∧
      ∀ sweeps, e.absorb.resume.waiting.size < sweeps →
        ApplyPass.run (max e.config.sync.applyBudget 1) sweeps { engine := e.absorb.resume } =
          ApplyPass.run (max e.config.sync.applyBudget 1) (e.absorb.resume.waiting.size + 1)
            { engine := e.absorb.resume } := by
  have stretches : e.QueuesConsecutive :=
    run.invariant (.start started) (fun s h => h.step s) fun _ _ h => h
  refine ⟨fun n e' done => ?_, fun o aborted => ?_, fun sweeps enough => ?_⟩
  · exact exists_pass (run.keyed started) stretches (run.atRest started) done
  · rcases Checked.bind_eq_error_iff.1 aborted with aborted | ⟨_, -, aborted⟩
    · exact run_eq_error aborted
    · cases aborted
  · exact run_eq_of_size_lt (Nat.lt_succ_self _) enough

/-- The second block of a chain arrives before the first one, and the third one from a peer that
leaves. -/
def arrivedOutOfOrder : List Operation :=
  [.register ⟨1⟩ 2,
    .receive ⟨1⟩ (.summaryReply [(Block.bare 0).id, (Block.bare 1).id, (Block.bare 2).id] 0),
    .issueTick,
    .register ⟨2⟩ 3,
    .receive ⟨2⟩ (.summaryReply
      [(Block.bare 0).id, (Block.bare 1).id, (Block.bare 2).id, (Block.bare 3).id] 0),
    .issueTick,
    .receive ⟨2⟩ (.block (Block.bare 3)), .lost ⟨2⟩,
    .receive ⟨1⟩ (.block (Block.bare 2)), .receive ⟨1⟩ (.block (Block.bare 1))]

/-- The first two blocks are submitted, and the third one is dropped. -/
theorem three_blocks_in_order :
    ∃ (start e : Engine ChainLedger) (past : List (Moment ChainLedger))
      (e' : Engine ChainLedger) (list : List (Handling ChainLedger)),
      Engine.start {} (.ofGenesis (.genesis 0) 0 10) {} = .ok start ∧ Run start past e ∧
        e.arrived.length = 3 ∧ e'.waiting.isEmpty = true ∧ e.applyWaiting = .ok (2, e') ∧
          Pass e list 2 e' := by
  obtain ⟨start, past, e, started, run, checked⟩ := exists_run {}
    (ChainLedger.ofGenesis (.genesis 0) 0 10) {} arrivedOutOfOrder
    (fun (_, e) => e.arrived.length = 3 &&
      e.applyWaiting.toOption.any fun r => r.1 = 2 && r.2.waiting.isEmpty)
    (by decide +kernel)
  simp only [Bool.and_eq_true, decide_eq_true_eq, Option.any_eq_true,
    Checked.toOption_eq_some_iff] at checked
  obtain ⟨arrived, ⟨n, e'⟩, done, rfl, waiting⟩ := checked
  obtain ⟨list, pass⟩ := (Run.pass_in_order started run).1 2 e' done
  exact ⟨start, e, past, e', list, started, run, arrived, waiting, done, pass⟩

end BlockRelay.Engine
