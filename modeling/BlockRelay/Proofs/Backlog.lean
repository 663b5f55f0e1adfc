/-
# The backlog

Fetched blocks wait until they are applied, and while too many of them wait no more blocks should
be asked for.  Only passes over the waiting blocks look at this.  A pass that begins with few
enough waiting blocks lifts the suspension, and a pass that uses up its budget sets it if too many
blocks are left (`suspended_applyWaiting`); nothing else does either (`suspended_perform`).  So
asking is suspended exactly if some pass has set the suspension and no later one has lifted it
(`Run.suspended_iff`).

A pass that ends because nothing is next in line does not look at what is left.  It overlooks a
backlog that has grown since (`Moment.Overlooks`), and in no other way do too many blocks wait after
a pass while asking goes on (`backlog_suspends_iff`).
-/
import BlockRelay.Proofs.Passes
import BlockRelay.Proofs.Quarantine

namespace BlockRelay

namespace Engine

variable {σ : Type}

/-- Whether too many fetched blocks wait. -/
def Crowded (e : Engine σ) : Prop := e.config.sync.backlogCap ≤ e.waiting.size

instance (e : Engine σ) : Decidable e.Crowded :=
  inferInstanceAs (Decidable (e.config.sync.backlogCap ≤ e.waiting.size))

/-- How many blocks a pass applies at most. -/
def passBudget (e : Engine σ) : Nat := max e.config.sync.applyBudget 1

end Engine

namespace Moment

variable {σ : Type} [Ledger σ]

/-- Whether a pass over the waiting blocks is made in a moment, and how many it applies. -/
inductive Passes : Moment σ → Nat → Prop where
  | asked {e e' : Engine σ} {n : Nat} (done : e.applyWaiting = .ok (n, e')) :
    Passes ⟨e, some .applyWaiting, e'⟩ n
  | due {e e' : Engine σ} {n : Nat} (due : e.applyDue = true)
      (done : { e with applyDue := false }.applyWaiting = .ok (n, e')) :
    Passes ⟨e, some .applyTick, e'⟩ n

/-- Whether a pass uses up its budget, and too many blocks are left. -/
def Fills (m : Moment σ) : Prop :=
  ∃ n, m.Passes n ∧ m.before.passBudget ≤ n ∧ m.after.Crowded

/-- Whether a pass begins with few enough waiting blocks. -/
def Drains (m : Moment σ) : Prop := ∃ n, m.Passes n ∧ ¬ m.before.absorb.Crowded

/-- Whether a pass that begins while asking is not suspended leaves too many blocks, but not
because its budget is used up. -/
def Overlooks (m : Moment σ) : Prop :=
  ∃ n, m.Passes n ∧ n < m.before.passBudget ∧ m.before.suspended = false ∧ m.after.Crowded

end Moment

namespace Engine

/-! ## What leaves the suspension alone -/

section

variable {σ : Type} (e : Engine σ)

/-- A removal neither suspends asking for blocks nor resumes it. -/
@[simp] theorem suspended_remove (id : PeerId) (r : Option Reason) :
    (e.remove id r).suspended = e.suspended := by
  cases hp : e.peers[id]? with
  | none => rw [remove_of_unknown hp]
  | some p =>
    obtain ⟨_, _, _, eq⟩ := remove_eq hp r
    rw [eq]

/-- Leaving peers neither suspends asking for blocks nor resumes it. -/
@[simp] theorem suspended_disconnectAll (leaving : List (PeerId × Reason)) :
    (e.disconnectAll leaving).suspended = e.suspended := by
  obtain ⟨_, _, _, _, _, _, eq⟩ := disconnectAll_eq e leaving
  rw [eq]

/-- What keeps the suspension for one element keeps it for a list. -/
theorem suspended_foldl {α : Type} {f : Engine σ → α → Engine σ}
    (one : ∀ e a, (f e a).suspended = e.suspended) (list : List α) :
    (list.foldl f e).suspended = e.suspended := by
  induction list generalizing e with
  | nil => rfl
  | cons a rest ih => rw [List.foldl_cons, ih, one]

/-- Taking in an announced item keeps the suspension. -/
theorem suspended_takeIn (id : PeerId) (i : Item) :
    (e.takeIn id i).suspended = e.suspended := by
  rcases takeIn_cases e id i with eq | ⟨_, _, eq, -⟩ <;> rw [eq]
  rfl

/-- Reserving candidates keeps the suspension. -/
theorem suspended_reserveAll : e.reserveAll.2.suspended = e.suspended := by
  obtain ⟨_, _, eq⟩ := reserveAll_eq e
  rw [eq]

/-- Asking for blocks neither suspends asking nor resumes it. -/
theorem suspended_issueRequests : e.issueRequests.2.suspended = e.suspended := by
  refine issueRequests_induction (P := fun s => s.engine.suspended = e.suspended) e rfl
    fun s id p _ kept => ?_
  unfold IssuePass.visit
  split
  · exact kept
  · obtain ⟨_, _, eq⟩ := requestBlocks_eq s.engine id (s.batchFor p)
    show (s.engine.requestBlocks id (s.batchFor p)).suspended = _
    rw [eq]
    exact kept

variable [Ledger σ]

/-- The next summary keeps the suspension. -/
@[simp] theorem suspended_nextSummary (id : PeerId) :
    (e.nextSummary id).suspended = e.suspended := by
  unfold nextSummary
  split
  · rfl
  · split
    · rfl
    · split
      · rfl
      · exact suspended_remove ..

/-- A catch-up that begins anew keeps the suspension. -/
@[simp] theorem suspended_startCatchUp (id : PeerId) :
    (e.startCatchUp id).suspended = e.suspended := by
  unfold startCatchUp
  split
  · exact suspended_nextSummary ..
  · rfl

/-- A session that begins keeps the suspension. -/
theorem suspended_register (id : PeerId) (height : UInt64) :
    (e.register id height).suspended = e.suspended := by
  have opened : ((e.remove id none).openSession id).suspended = e.suspended :=
    suspended_remove e id none
  simp only [register]
  split
  · exact (suspended_startCatchUp ..).trans opened
  · exact opened

/-- A delivered transaction keeps the suspension. -/
theorem suspended_receiveTransaction (id : PeerId) (t : Transaction) :
    (e.receiveTransaction id t).suspended = e.suspended := by
  unfold receiveTransaction
  split
  · rfl
  · split
    · have submitted (e : Engine σ) : (e.submitTransaction t).2.suspended = e.suspended := by
        rcases submitTransaction_cases e t with eq | ⟨_, _, _, _, eq⟩ <;> rw [eq]
      unfold applyDelivered
      split
      next eq => exact (congrArg (·.2.suspended) eq).symm.trans (submitted _)
      next eq =>
        refine (suspended_remove ..).trans ?_
        exact (congrArg (·.2.suspended) eq).symm.trans (submitted _)
    · exact suspended_remove ..

end

variable {σ : Type} [Ledger σ] {e e' : Engine σ}

omit [Ledger σ] in
/-- An announcement keeps the suspension. -/
theorem suspended_receiveAnnouncement {id : PeerId} {items : List Item}
    (done : e.receiveAnnouncement id items = .ok e') : e'.suspended = e.suspended := by
  unfold receiveAnnouncement at done
  split at done
  · cases done
    rfl
  · obtain ⟨cap, -, done⟩ := Checked.bind_eq_ok_iff.1 done
    split at done
    · cases done
      rfl
    · have judged {budget : Checked Bool} (done : (do
          if ← budget then return { e with metrics := e.metrics.countRejection }
          else return (e.freshItems items).foldl (fun e i => e.takeIn id i) e) = .ok e') :
          e'.suspended = e.suspended := by
        obtain ⟨refused, -, done⟩ := Checked.bind_eq_ok_iff.1 done
        cases refused <;> cases done
        · exact suspended_foldl e (fun e i => suspended_takeIn e id i) _
        · rfl
      dsimp only at done
      split at done <;> exact judged done

/-- A delivered block keeps the suspension. -/
theorem suspended_receiveBlock {id : PeerId} {b : Block}
    (done : e.receiveBlock id b = .ok e') : e'.suspended = e.suspended := by
  unfold receiveBlock at done
  split at done
  · cases done
    rfl
  · dsimp only at done
    split at done
    · cases done
      unfold receiveRequested
      split
      · rfl
      · split
        · exact suspended_nextSummary ..
        · rfl
    · split at done
      · obtain ⟨⟨r, e₁⟩, submitted, done⟩ := Checked.bind_eq_ok_iff.1 done
        have first : e₁.suspended = e.suspended := by
          obtain ⟨_, _, _, _, _, _, _, _, _, rfl⟩ := submitAnnounced_eq submitted
          rfl
        split at done <;> cases done
        all_goals rename_i eq; cases eq
        · exact first
        · exact (suspended_startCatchUp ..).trans first
        · exact (suspended_remove ..).trans first
      · cases done
        exact suspended_remove ..

/-- Answering a summary keeps the suspension. -/
theorem suspended_answerSummary {id : PeerId} {summary : List BlockId}
    (done : e.answerSummary id summary = .ok e') : e'.suspended = e.suspended := by
  obtain ⟨ids, -, done⟩ := Checked.bind_eq_ok_iff.1 done
  dsimp only at done
  split at done
  · cases done
    rfl
  · split at done <;> cases done
    · exact suspended_remove ..
    · split
      · exact suspended_startCatchUp ..
      · rfl

/-- A reply keeps the suspension. -/
theorem suspended_receiveReply {id : PeerId} {ids : List BlockId} {remaining : UInt64} {p : Peer}
    (hp : e.peers[id]? = some p) (done : e.receiveReply id ids remaining = .ok e') :
    e'.suspended = e.suspended := by
  rcases receiveReply_cases hp done with rfl | ⟨s, -, -, ⟨-, -, done⟩ | joined⟩
  · exact suspended_remove ..
  · obtain ⟨_, rfl | ⟨_, rfl⟩⟩ := finishCatchUp_cases done <;> rfl
  · obtain ⟨elsewhere, enough, e₁, taken, followed⟩ := joined
    have first : e₁.suspended = e.suspended := by
      obtain ⟨_, _, rfl | ⟨_, rfl⟩⟩ := takeUp_cases taken <;> rfl
    rcases followed with rfl | rfl
    · exact first
    · exact (suspended_nextSummary ..).trans first

/-- A message keeps the suspension. -/
theorem suspended_receive {id : PeerId} {m : Message} (done : e.receive id m = .ok e') :
    e'.suspended = e.suspended := by
  unfold receive at done
  split at done
  next known =>
    obtain ⟨p, hp⟩ := isRegistered_iff.1 known
    cases m with
    | announce => exact suspended_receiveAnnouncement done
    | fetch items =>
      cases done
      obtain ⟨_, _, _, _, -, eq | eq⟩ := serve_eq e id items <;> rw [eq]
      rfl
    | notFound =>
      cases done
      rfl
    | block => exact suspended_receiveBlock done
    | transaction =>
      cases done
      exact suspended_receiveTransaction ..
    | transactions =>
      cases done
      exact suspended_foldl e (fun e t => suspended_receiveTransaction e id t) _
    | summaryRequest => exact suspended_answerSummary done
    | summaryReply => exact suspended_receiveReply hp done
    | disconnect =>
      cases done
      exact suspended_remove ..
  next =>
    cases done
    rfl

/-- **Only passes over the waiting blocks suspend asking for blocks, or resume it.** -/
theorem suspended_perform {op : Operation} {answer : Outcome}
    (done : e.perform op = .ok (answer, e')) :
    (∃ n, (Moment.mk e (some op) e').Passes n) ∨ e'.suspended = e.suspended := by
  cases op with
  | applyWaiting =>
    obtain ⟨n, done⟩ := eq_ok_of_counted done
    exact .inl ⟨n, .asked done⟩
  | applyTick =>
    obtain ⟨n, done⟩ := eq_ok_of_counted done
    unfold applyTick at done
    split at done
    next due => exact .inl ⟨n, .due due done⟩
    next =>
      cases done
      exact .inr rfl
  | register =>
    cases done
    exact .inr (suspended_register ..)
  | receive => exact .inr (suspended_receive (receive_of_perform done))
  | broadcast m =>
    cases done
    cases m <;> exact .inr rfl
  | disconnect | lost =>
    cases done
    exact .inr (suspended_remove ..)
  | close | leaveSilent =>
    cases done
    exact .inr (suspended_disconnectAll ..)
  | startCatchUp =>
    cases done
    exact .inr (suspended_startCatchUp ..)
  | nextSummary =>
    cases done
    exact .inr (suspended_nextSummary ..)
  | announceSpread =>
    cases done
    obtain ⟨_, eq⟩ := announceSpread_eq e
    refine .inr ?_
    show e.announceSpread.2.suspended = _
    rw [eq]
    rfl
  | reserveCandidates =>
    obtain ⟨n, done⟩ := eq_ok_of_counted done
    unfold reserveCandidates at done
    split at done
    · cases done
      exact .inr rfl
    · obtain ⟨maxAge, -, done⟩ := Checked.bind_eq_ok_iff.1 done
      cases done
      rw [requestReserved_eq]
      exact .inr (suspended_reserveAll _)
  | issueRequests =>
    cases done
    exact .inr e.suspended_issueRequests
  | issueTick =>
    cases done
    refine .inr ?_
    show e.issueTick.2.suspended = _
    unfold issueTick
    split
    · rfl
    · split
      · exact suspended_issueRequests _
      · rfl
  | forgetOutdated =>
    obtain ⟨n, done⟩ := eq_ok_of_counted done
    obtain ⟨_, _, _, _, _, rfl⟩ := forgetOutdated_eq done
    exact .inr rfl
  | advanceFlood n =>
    cases done
    refine .inr ?_
    induction n with
    | zero => rfl
    | succ n ih => exact ih
  | advanceClock =>
    cases done
    exact .inr rfl
  | refreshGauges =>
    obtain ⟨e₁, refreshed, done⟩ := Checked.bind_eq_ok_iff.1 done
    cases done
    obtain ⟨census, -, refreshed⟩ := Checked.bind_eq_ok_iff.1 refreshed
    cases refreshed
    exact .inr rfl

/-! ## One pass -/

/-- Applying a waiting block keeps the suspension. -/
theorem suspended_applyFetched {b : Block} (done : e.applyFetched b = .ok e') :
    e'.suspended = e.suspended := by
  obtain ⟨⟨r, e₁⟩, submitted, done⟩ := Checked.bind_eq_ok_iff.1 done
  have first : e₁.suspended = e.suspended := by
    obtain ⟨_, _, _, _, _, _, _, _, rfl⟩ := submitFetched_eq submitted
    rfl
  cases r with
  | none =>
    cases done
    refine (suspended_foldl _ (fun e id => suspended_nextSummary e id) _).trans ?_
    exact (suspended_foldl _ (fun e id => suspended_startCatchUp e id) _).trans first
  | some error =>
    cases done
    exact (suspended_disconnectAll ..).trans first

/-- Taking waiting blocks keeps the suspension, and leaves no more of them. -/
theorem Handles.suspended {list : List (Handling σ)} (h : Handles e list e') :
    e'.suspended = e.suspended ∧ e'.waiting.size ≤ e.waiting.size := by
  induction h with
  | nil => exact ⟨rfl, Nat.le_refl _⟩
  | @cons x _ _ legal _ ih =>
    have kept : x.after.suspended = x.before.suspended := by
      cases legal with
      | submit _ _ _ done =>
        have applied := suspended_applyFetched done
        exact applied
      | drop => rfl
    refine ⟨ih.1.trans kept, ih.2.trans ?_⟩
    rw [legal.hands.2.1]
    exact Std.TreeMap.size_erase_le

omit [Ledger σ] in
/-- When a pass begins, asking stays suspended only if too many blocks wait. -/
theorem suspended_resume : e.resume.suspended = true ↔ e.suspended = true ∧ e.Crowded := by
  unfold resume Crowded
  split
  next lifted =>
    rw [Bool.and_eq_true, decide_eq_true_eq] at lifted
    exact ⟨nofun, fun ⟨_, crowded⟩ => absurd lifted.2 (Nat.not_lt.2 crowded)⟩
  next kept =>
    rw [Bool.and_eq_true, decide_eq_true_eq, not_and, Nat.not_lt] at kept
    exact ⟨fun suspended => ⟨suspended, kept suspended⟩, And.left⟩

/-- **When a pass suspends asking for blocks.**  It was suspended before, and too many blocks waited
when the pass began, or the pass used up its budget and left too many blocks. -/
theorem suspended_applyWaiting {n : Nat} (keyed : e.Keyed) (stretches : e.QueuesConsecutive)
    (done : e.applyWaiting = .ok (n, e')) :
    (e'.suspended = true ↔
        e.suspended = true ∧ e.absorb.Crowded ∨ e.passBudget ≤ n ∧ e'.Crowded) ∧
      (e'.Crowded → e.absorb.Crowded) := by
  have opening := (moves_resume e).course fun _ routine => routine
  obtain ⟨s, ran, done⟩ := Checked.bind_eq_ok_iff.1 done
  obtain ⟨list, ⟨handles, -⟩, -⟩ :=
    takes_run ran (opening.preserves (fun _ s => Keyed.step s) keyed)
    (opening.preserves (fun _ s => QueuesConsecutive.step s) stretches)
  obtain ⟨kept, fewer⟩ := handles.suspended
  have started : s.engine.suspended = true ↔ e.suspended = true ∧ e.absorb.Crowded := by
    rw [kept]
    exact suspended_resume
  have crowded : s.engine.Crowded → e.absorb.Crowded := by
    have course := (moves_applyPass _ _ ran).course fun _ routine => routine _
    have config : s.engine.config = e.absorb.resume.config :=
      course.preserves (I := fun e₁ => e₁.config = e.absorb.resume.config)
        (fun _ s h => s.config_eq.trans h) rfl
    obtain ⟨_, resumed⟩ := resume_eq e.absorb
    rw [resumed] at config fewer
    rw [Crowded, config]
    exact fun many => many.trans fewer
  cases done
  unfold passBudget
  split
  next used =>
    refine ⟨?_, crowded⟩
    show (s.engine.suspended || decide s.engine.Crowded) = true ↔ _
    rw [Bool.or_eq_true, decide_eq_true_eq, started]
    exact or_congr_right (and_iff_right used).symm
  next unused =>
    refine ⟨started.trans ?_, crowded⟩
    exact (or_iff_left fun used => unused used.1).symm

/-! ## Runs -/

/-- A pass in a moment is one that begins in the state before it, whether it is due or not. -/
theorem exists_applyWaiting_of_passes {m : Moment σ} {n : Nat} (h : m.Passes n) :
    ∃ applyDue, ({ m.before with applyDue } : Engine σ).applyWaiting = .ok (n, m.after) := by
  cases h with
  | @asked e _ _ done => exact ⟨e.applyDue, done⟩
  | due _ done => exact ⟨false, done⟩

section

variable {config : Config} {ledger : σ} {clock : Clock} {start : Engine σ} {past : List (Moment σ)}

/-- Whether asking is suspended after a pass in a run. -/
theorem Run.suspended_of_passes {m : Moment σ} (run : Run start (m :: past) e)
    (started : Engine.start config ledger clock = .ok start) {n : Nat} (passes : m.Passes n) :
    (m.after.suspended = true ↔ m.before.suspended = true ∧ m.before.absorb.Crowded ∨
        m.before.passBudget ≤ n ∧ m.after.Crowded) ∧
      (m.after.Crowded → m.before.absorb.Crowded) := by
  cases run with
  | meddle => cases passes
  | @perform _ e _ _ _ before =>
    have stretches : e.QueuesConsecutive :=
      before.invariant (.start started) (fun s h => h.step s) fun _ _ h => h
    obtain ⟨applyDue, done⟩ := exists_applyWaiting_of_passes passes
    exact suspended_applyWaiting (e := { e with applyDue }) (before.keyed started) stretches done

/-- A pass answers one number. -/
theorem passes_unique {m : Moment σ} {n k : Nat} (h : m.Passes n) (h' : m.Passes k) : n = k := by
  cases h with
  | asked done => cases h' with | asked done' => cases done.symm.trans done'; rfl
  | due _ done => cases h' with | due _ done' => cases done.symm.trans done'; rfl

omit [Ledger σ] in
/-- The last moment of one kind is the newest moment, or it lies in the past and the newest moment
does not undo it. -/
theorem exists_last_cons {sets clears : Moment σ → Prop} {m : Moment σ} {past : List (Moment σ)} :
    (∃ newer d older, m :: past = newer ++ d :: older ∧ sets d ∧ ∀ c ∈ newer, ¬ clears c) ↔
      sets m ∨ ¬ clears m ∧
        ∃ newer d older, past = newer ++ d :: older ∧ sets d ∧ ∀ c ∈ newer, ¬ clears c := by
  constructor
  · rintro ⟨newer, d, older, split, here, later⟩
    cases newer with
    | nil =>
      obtain ⟨rfl, rfl⟩ := List.cons.inj split
      exact .inl here
    | cons c newer =>
      obtain ⟨rfl, rfl⟩ := List.cons.inj split
      obtain ⟨kept, later⟩ := List.forall_mem_cons.1 later
      exact .inr ⟨kept, newer, d, older, rfl, here, later⟩
  · rintro (here | ⟨kept, newer, d, older, rfl, here, later⟩)
    · exact ⟨[], m, past, rfl, here, List.forall_mem_nil _⟩
    · exact ⟨m :: newer, d, older, rfl, here, List.forall_mem_cons.2 ⟨kept, later⟩⟩

/-- **The history of the suspension.**  Asking for blocks is suspended exactly if some pass used up
its budget and left too many blocks, and no later pass began with few enough. -/
theorem Run.suspended_iff (run : Run start past e)
    (started : Engine.start config ledger clock = .ok start) :
    e.suspended = true ↔
      ∃ newer m older, past = newer ++ m :: older ∧ m.Fills ∧ ∀ d ∈ newer, ¬ d.Drains := by
  induction run with
  | start =>
    have rests : start.suspended = false := by
      obtain ⟨_, -, eq⟩ := Checked.bind_eq_ok_iff.1 started
      cases eq
      rfl
    simp [rests]
  | @meddle past e ledger before ih =>
    rw [exists_last_cons, ← ih]
    have noPass (n : Nat) : ¬ (Moment.mk e none { e with ledger }).Passes n := nofun
    simp [Moment.Fills, Moment.Drains, noPass]
  | @perform past e e' op answer before done ih =>
    rw [exists_last_cons, ← ih]
    by_cases pass : ∃ n, (Moment.mk e (some op) e').Passes n
    · obtain ⟨n, passes⟩ := pass
      have only {k : Nat} : (Moment.mk e (some op) e').Passes k ↔ k = n :=
        ⟨fun other => passes_unique other passes, fun eq => eq ▸ passes⟩
      rw [((before.perform done).suspended_of_passes started passes).1]
      simp only [Moment.Fills, Moment.Drains, only, exists_eq_left, not_not]
      exact or_comm.trans (or_congr_right and_comm)
    · have noPass (n : Nat) : ¬ (Moment.mk e (some op) e').Passes n :=
        fun passes => pass ⟨n, passes⟩
      rw [(suspended_perform done).resolve_left pass]
      simp [Moment.Fills, Moment.Drains, noPass]

/-- **A backlog suspends asking, unless a pass overlooks it.**  In every run asking for blocks is
suspended after each pass that leaves too many blocks exactly if no pass overlooks a backlog.  After
a pass that leaves too many blocks it is suspended exactly if it was before the pass or the budget
of the pass is used up; otherwise nothing that waits is next in line.  While asking is suspended no
block is asked for.  It is suspended exactly if some pass used up its budget and left too many
blocks, and no later pass began with few enough. -/
theorem backlog_suspends_iff {config : Config} {ledger : σ} {clock : Clock} {start e : Engine σ}
    {past : List (Moment σ)} (started : Engine.start config ledger clock = .ok start)
    (run : Run start past e) :
    ((∀ m ∈ past, ∀ n, m.Passes n → m.after.Crowded → m.after.suspended = true) ↔
        ∀ m ∈ past, ¬ m.Overlooks) ∧
      (∀ n e', e.applyWaiting = .ok (n, e') → e'.arrived = [] ∧
        (e'.Crowded → (e'.suspended = true ↔ e.suspended = true ∨ e.passBudget ≤ n)) ∧
        (n < e.passBudget → e'.Quiet)) ∧
      (e.suspended = true → e.issueTick = (0, e)) ∧
      (e.suspended = true ↔
        ∃ newer m older, past = newer ++ m :: older ∧ m.Fills ∧ ∀ d ∈ newer, ¬ d.Drains) := by
  refine ⟨forall₂_congr fun m mem => ?_, fun n e' done => ?_, fun suspended => ?_,
    run.suspended_iff started⟩
  · -- too many blocks are left while asking goes on exactly in a pass that overlooks them
    obtain ⟨older, -, newest⟩ := run.reached mem
    constructor
    · rintro suspends ⟨n, passes, unused, rested, crowded⟩
      have law := (newest.suspended_of_passes started passes).1
      rcases law.1 (suspends n passes crowded) with ⟨suspended, -⟩ | ⟨used, -⟩
      · cases rested.symm.trans suspended
      · exact absurd used (Nat.not_le.2 unused)
    · intro watched n passes crowded
      obtain ⟨law, many⟩ := newest.suspended_of_passes started passes
      by_contra rests
      refine watched ⟨n, passes, Nat.not_le.1 fun used => ?_,
        Bool.eq_false_iff.2 fun suspended => ?_, crowded⟩
      · exact rests (law.2 (.inr ⟨used, crowded⟩))
      · exact rests (law.2 (.inl ⟨suspended, many crowded⟩))
  · have stretches : e.QueuesConsecutive :=
      run.invariant (.start started) (fun s h => h.step s) fun _ _ h => h
    obtain ⟨list, pass⟩ := exists_pass (run.keyed started) stretches (run.atRest started) done
    obtain ⟨law, many⟩ := suspended_applyWaiting (run.keyed started) stretches done
    refine ⟨pass.arrived, fun crowded => ?_, fun unused => ?_⟩
    · rw [law]
      exact or_congr (and_iff_left (many crowded)) (and_iff_left crowded)
    · exact pass.ended.resolve_left (Nat.not_le.2 unused)
  · rw [issueTick, if_pos suspended]

end

/-- A pass makes a run longer. -/
theorem Run.applyWaiting {start : Engine σ} {past : List (Moment σ)} {n : Nat}
    (run : Run start past e) (done : e.applyWaiting = .ok (n, e')) :
    Run start (⟨e, some .applyWaiting, e'⟩ :: past) e' := by
  have performed : e.perform .applyWaiting = .ok (.count n, e') := by
    rw [Engine.perform, done]
    rfl
  exact run.perform performed

/-- Two peers are asked for a block each, and only the second block arrives.  One waiting block is
too many, and there is a third block to ask for. -/
def arrivedTooEarly : List Operation :=
  let reply : Message :=
    .summaryReply [(Block.bare 0).id, (Block.bare 1).id, (Block.bare 2).id, (Block.bare 3).id] 0
  [.register ⟨1⟩ 3, .register ⟨2⟩ 3, .receive ⟨1⟩ reply, .receive ⟨2⟩ reply, .issueTick,
    .receive ⟨2⟩ (.block (Block.bare 2))]

/-- The limits under which one waiting block is too many, and a peer is asked for one block at a
time. -/
def oneAtATime : Config := { sync := { maxPerPeer := 1, backlogCap := 1 } }

/-- A pass applies nothing and leaves too many blocks, and another block is asked for. -/
theorem exists_overlooked :
    ∃ (start e e' : Engine ChainLedger) (past : List (Moment ChainLedger)),
      Engine.start oneAtATime (.ofGenesis (.genesis 0) 0 10) {} = .ok start ∧
        Run start past e ∧ e.applyWaiting = .ok (0, e') ∧ e'.Crowded ∧ e'.suspended = false ∧
          e'.issueTick.1 = 1 := by
  obtain ⟨start, past, e, started, run, checked⟩ := exists_run oneAtATime
    (ChainLedger.ofGenesis (.genesis 0) 0 10) {} arrivedTooEarly
    (fun r => r.2.applyWaiting.toOption.any fun (n, e') =>
      n = 0 && e'.Crowded && !e'.suspended && e'.issueTick.1 = 1)
    (by decide +kernel)
  simp only [Option.any_eq_true, Checked.toOption_eq_some_iff, Bool.and_eq_true, decide_eq_true_eq,
    Bool.not_eq_true'] at checked
  obtain ⟨⟨n, e'⟩, done, ⟨⟨rfl, crowded⟩, rests⟩, asks⟩ := checked
  exact ⟨start, e, e', past, started, run, done, crowded, rests, asks⟩

/-- A pass overlooks the block that arrived too early. -/
theorem overlooked_when_too_early :
    ∃ (start e : Engine ChainLedger) (past : List (Moment ChainLedger)),
      Engine.start oneAtATime (.ofGenesis (.genesis 0) 0 10) {} = .ok start ∧
        Run start past e ∧ e.Crowded ∧ ∃ m ∈ past, m.Overlooks := by
  obtain ⟨start, e, e', past, started, run, done, crowded, rests, -⟩ := exists_overlooked
  have pass : (Moment.mk e (some .applyWaiting) e').Passes 0 := .asked done
  have later := run.applyWaiting done
  refine ⟨start, e', _, started, later, crowded, ?_⟩
  by_contra none
  have suspends := (backlog_suspends_iff started later).1.2 fun m mem overlooks =>
    none ⟨m, mem, overlooks⟩
  exact Bool.false_ne_true
    (rests.symm.trans (suspends _ (List.mem_cons_self ..) 0 pass crowded))

/-- Asking for blocks may go on after a pass that leaves too many. -/
theorem asking_despite_backlog :
    ¬ ∀ (config : Config) (ledger : ChainLedger) (clock : Clock) (start e e' : Engine ChainLedger)
      (past : List (Moment ChainLedger)) (n : Nat),
      Engine.start config ledger clock = .ok start → Run start past e →
        1 ≤ config.sync.backlogCap → e.applyWaiting = .ok (n, e') →
          config.sync.backlogCap ≤ e'.waiting.size →
            e'.suspended = true ∧ e'.issueTick.1 = 0 := by
  intro always
  obtain ⟨start, e, e', past, started, run, done, crowded, rests, -⟩ := exists_overlooked
  have config := Run.config_eq started (run.applyWaiting done)
  rw [Crowded, config] at crowded
  have suspends := always _ _ _ start e e' past 0 started run (Nat.le_refl 1) done crowded
  exact Bool.false_ne_true (rests.symm.trans suspends.1)

end Engine

end BlockRelay
