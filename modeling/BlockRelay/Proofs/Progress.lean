/-
# Progress that is reported

How many blocks the peers still have for us at most is counted when a reply to a summary is
received, and kept until the next one (`unsynced`).  Between two replies the counts of the peers
only fall, so what is kept bounds them (`Outstanding`).

A reply that is joined tells the ledger every change of the number that is kept.  A reply that ends
a catch-up changes the number as well, but tells the ledger only that it is zero
(`Run.told_cases`).  If another peer still has blocks for us, but fewer than are kept, the change is
concealed (`Moment.Conceals`), and as the next change is taken from what is kept, the ledger is not
told of it later either.  In no other way is what the ledger was told last out of date
(`reported_current_iff`).
-/
import BlockRelay.Proofs.Backlog
import BlockRelay.Proofs.Counts

namespace BlockRelay

variable {σ : Type}

/-- The number of blocks left to fetch that the ledger is told in an event. -/
def Event.notified? : Event → Option Nat
  | .notified n => some n
  | _ => none

namespace Engine

/-- What the ledger was told so far, oldest first. -/
def told (e : Engine σ) : List Nat := e.journal.filterMap Event.notified?

/-- What the ledger was told last. -/
def reported (e : Engine σ) : Option Nat := e.told.getLast?

/-- Whether the ledger was told last how many blocks are left to fetch, if there are any. -/
def Current (e : Engine σ) : Prop := e.unsynced ≠ 0 → e.reported = some e.unsynced

end Engine

namespace Moment

/-- Whether the ledger is told a number in a moment. -/
def Reports (m : Moment σ) (n : Nat) : Prop := m.after.told = m.before.told ++ [n]

/-- Whether a reply after which nothing is left to fetch from its sender changes how many blocks
are left to fetch from anybody, while there are some. -/
def Conceals [Ledger σ] (m : Moment σ) : Prop :=
  ∃ id p ids, m.operation = some (.receive id (.summaryReply ids 0)) ∧
    m.before.peers[id]? = some p ∧
    p.nothingNew (ids.map fun b => (b, Ledger.containsBlock m.before.ledger b)) = true ∧
    m.after.unsynced ≠ 0 ∧ m.after.unsynced ≠ m.before.unsynced

end Moment

namespace Engine

/-! ## Silence -/

/-- Whether what is kept and what was told stay the same. -/
structure Silent (e e' : Engine σ) : Prop where
  unsynced : e'.unsynced = e.unsynced
  told : e'.told = e.told

/-- What happens silently one after the other happens silently. -/
theorem Silent.trans {e e₁ e₂ : Engine σ} (h : Silent e e₁) (h' : Silent e₁ e₂) : Silent e e₂ :=
  ⟨h'.unsynced.trans h.unsynced, h'.told.trans h.told⟩

/-- Telling the ledger a number. -/
@[simp] theorem told_notify [Ledger σ] (e : Engine σ) (n : Nat) :
    (e.notify n).told = e.told ++ [n] := by
  rw [told, notify, record, List.filterMap_append]
  rfl

/-- Nothing is told by events that tell nothing. -/
theorem told_of_appends {e e' : Engine σ} (h : Appends (fun ev => ev.notified? = none) e e') :
    e'.told = e.told := by
  obtain ⟨events, eq, quiet⟩ := h
  rw [told, eq, List.filterMap_append, List.filterMap_eq_nil_iff.2 quiet, List.append_nil, told]

variable [Ledger σ] {e e' : Engine σ} {d : Deed}

/-- A step that takes in no reply keeps how many blocks are left to fetch. -/
theorem Step.unsynced_eq (s : Step d e e') (finished : ∀ id, d ≠ .finished id)
    (joined : ∀ id ids, d ≠ .joined id ids) : e'.unsynced = e.unsynced := by
  cases s with
  | finishCatchUp => exact absurd rfl (finished _)
  | takeUp => exact absurd rfl (joined _ _)
  | remove r hp =>
    obtain ⟨_, _, _, eq⟩ := remove_eq hp r
    rw [eq]
  | @takeIn _ id _ i =>
    rcases takeIn_cases e id i with eq | ⟨_, _, eq, -⟩ <;> rw [eq]
    rfl
  | announceSpread =>
    obtain ⟨_, eq⟩ := announceSpread_eq e
    rw [eq]
    rfl
  | reserve =>
    obtain ⟨_, _, eq⟩ := reserveAll_eq e
    rw [requestReserved_eq, eq]
  | @serve _ id _ items =>
    obtain ⟨_, _, _, _, -, eq | eq⟩ := serve_eq e id items <;> rw [eq]
    rfl
  | submitAnnounced _ _ _ done =>
    obtain ⟨_, _, _, _, _, _, _, _, _, rfl⟩ := submitAnnounced_eq done
    rfl
  | @submitTransaction _ id _ t =>
    rcases submitTransaction_cases (e.modifyPeer id fun p =>
      { p with reserved := p.reserved.erase t.item }) t with eq | ⟨_, _, _, _, eq⟩
    · rw [eq]
      rfl
    · rw [eq]
      rfl
  | @requestBlocks _ id _ batch =>
    obtain ⟨_, _, eq⟩ := requestBlocks_eq e id batch
    rw [eq]
  | settle _ _ done =>
    obtain ⟨_, _, _, _, _, _, _, _, rfl⟩ := submitFetched_eq done
    rfl
  | @refuse _ e₁ _ _ _ _ _ done =>
    obtain ⟨_, _, _, _, _, _, eq⟩ := disconnectAll_eq e₁ _
    rw [leaveOffenders, eq]
    obtain ⟨_, _, _, _, _, _, _, _, rfl⟩ := submitFetched_eq done
    rfl
  | forgetOutdated done =>
    obtain ⟨_, _, _, _, _, rfl⟩ := forgetOutdated_eq done
    rfl
  | broadcast e m => cases m <;> rfl
  | openSession | welcome | restart | sendSummary | sendAnswer | measure | dropStale | arrive | due
  | rest | absorb | suspend | dropOrphan | advanceFlood | advanceClock => rfl

/-- A step that takes in no reply is silent. -/
theorem Step.silent (s : Step d e e') (finished : ∀ id, d ≠ .finished id)
    (joined : ∀ id ids, d ≠ .joined id ids) : Silent e e' := by
  refine ⟨s.unsynced_eq finished joined, told_of_appends (s.appends.mono fun ev shows => ?_)⟩
  cases ev with
  | notified n =>
    obtain ⟨id, eq | ⟨ids, eq⟩⟩ := shows
    · exact absurd eq (finished id)
    · exact absurd eq (joined id ids)
  | opened | closed | sent | appliedBlock | appliedTransaction => rfl

/-- An operation that takes in no reply is silent. -/
theorem silent_course {allowed : Deed → Prop} (course : Course allowed e e')
    (finished : ∀ id, ¬ allowed (.finished id)) (joined : ∀ id ids, ¬ allowed (.joined id ids)) :
    Silent e e' := by
  induction course with
  | refl => exact ⟨rfl, rfl⟩
  | tail _ last ih =>
    obtain ⟨d, allows, s⟩ := last
    refine ih.trans (s.silent (fun id eq => finished id (eq ▸ allows)) fun id ids eq => ?_)
    exact joined id ids (eq ▸ allows)

/-- Routine is silent. -/
theorem silent_moves (moves : Moves Deed.IsRoutine e e') : Silent e e' :=
  silent_course (moves.course fun _ routine => routine)
    (fun _ routine => Deed.isRoutine_iff.1 routine) fun _ _ routine => Deed.isRoutine_iff.1 routine

/-! ## The bound that is kept -/

omit [Ledger σ] in
/-- Whether no peer has more blocks for us than is kept. -/
def Outstanding (e : Engine σ) : Prop :=
  ∀ (id : PeerId) (p : Peer), e.peers[id]? = some p → p.outstanding ≤ e.unsynced

omit [Ledger σ] in
/-- What is counted is a bound. -/
theorem outstanding_of_counted (counted : e.maxUnsynced = .ok e'.unsynced)
    (peers : e'.peers = e.peers) : e'.Outstanding := fun id p hp =>
  (maxUnsynced_le_iff counted).1 (Nat.le_refl _) id p (peers ▸ hp)

/-- Every step keeps the bound. -/
theorem Outstanding.step (s : Step d e e') (h : e.Outstanding) : e'.Outstanding := by
  by_cases plain : (∀ id, d ≠ .finished id) ∧ ∀ id ids, d ≠ .joined id ids
  · intro id p' hp'
    rw [s.unsynced_eq plain.1 plain.2]
    rcases s.revised id p' hp' with ⟨-, rfl⟩ | ⟨p, hp, r⟩
    · exact Nat.zero_le _
    · exact (r.outstanding_le (plain.2 id)).trans (h id p hp)
  · cases s with
    | finishCatchUp hp asked legal nothing done =>
      obtain ⟨n, counted, done⟩ := Checked.bind_eq_ok_iff.1 done
      split at done <;> cases done <;> exact outstanding_of_counted counted rfl
    | takeUp hp asked legal done =>
      obtain ⟨n, counted, done⟩ := Checked.bind_eq_ok_iff.1 done
      split at done
      next same =>
        cases done
        exact outstanding_of_counted (counted.trans (congrArg _ same.symm)) rfl
      next =>
        cases done
        exact outstanding_of_counted counted rfl
    | _ => exact absurd ⟨nofun, nofun⟩ plain

/-- In every run the number that is kept bounds what is left to fetch. -/
theorem Run.outstanding {config : Config} {ledger : σ} {clock : Clock} {start : Engine σ}
    {past : List (Moment σ)} (run : Run start past e)
    (started : Engine.start config ledger clock = .ok start) : e.Outstanding := by
  refine run.invariant (I := Outstanding) (fun id p hp => ?_) (fun s h => h.step s) fun _ _ h => h
  cases (peers_of_start started id).symm.trans hp

/-! ## Replies -/

/-- **The end of a catch-up.**  The number that is kept does not grow.  The ledger is told that it
is zero, and nothing else. -/
theorem told_finishCatchUp {id : PeerId} {p : Peer} (h : e.Outstanding)
    (hp : e.peers[id]? = some p) (done : e.finishCatchUp id { p with summary := none } = .ok e') :
    e'.unsynced ≤ e.unsynced ∧ e'.told = e.told ++ if e'.unsynced = 0 then [0] else [] := by
  obtain ⟨n, counted, done⟩ := Checked.bind_eq_ok_iff.1 done
  have falls : n ≤ e.unsynced := by
    refine (maxUnsynced_le_iff counted).2 fun other q hq => ?_
    rw [Std.TreeMap.getElem?_insert] at hq
    split at hq
    · cases hq
      exact h id p hp
    · exact h other q hq
  split at done
  next zero =>
    cases done
    refine ⟨falls, ?_⟩
    show (Engine.notify _ 0).told = _ ++ if n = 0 then _ else _
    rw [told_notify, if_pos zero]
    rfl
  next left =>
    cases done
    refine ⟨falls, ?_⟩
    show e.told = _ ++ if n = 0 then _ else _
    rw [if_neg left, List.append_nil]

/-- **Going on with a catch-up.**  The ledger is told the number that is kept if it changes. -/
theorem told_takeUp {id : PeerId} {p : Peer} {enough : Bool}
    (done : e.takeUp id p enough = .ok e') :
    Silent e e' ∨ e'.told = e.told ++ [e'.unsynced] := by
  obtain ⟨n, -, done⟩ := Checked.bind_eq_ok_iff.1 done
  split at done <;> cases done
  · exact .inl ⟨rfl, rfl⟩
  · exact .inr (told_notify ..)

/-- What a reply does to the number that is kept: it stays the same and the ledger is told nothing;
or the ledger is told the number; or it falls to another number but zero, and the ledger is told
nothing. -/
theorem told_receiveReply {id : PeerId} {ids : List BlockId} {remaining : UInt64} {p : Peer}
    (h : e.Outstanding) (hp : e.peers[id]? = some p)
    (done : e.receiveReply id ids remaining = .ok e') :
    let m : Moment σ := ⟨e, some (.receive id (.summaryReply ids remaining)), e'⟩
    Silent e e' ∨ m.Reports e'.unsynced ∧ ¬ m.Conceals ∨
      m.Conceals ∧ e'.told = e.told ∧ e'.unsynced < e.unsynced := by
  intro m
  by_cases legal : ∃ s, p.summary = some s ∧
      e.chainFacts.judge e.config.net e.clock.wallTime s.ids ids remaining = .ok (.ok ())
  · obtain ⟨s, hs, legal⟩ := legal
    by_cases ends : remaining = 0 ∧
        p.nothingNew (ids.map fun b => (b, Ledger.containsBlock e.ledger b)) = true
    · obtain ⟨rfl, nothing⟩ := ends
      rw [receiveReply_eq_of_legal hp hs legal, if_pos (by rw [nothing]; rfl)] at done
      obtain ⟨falls, told⟩ := told_finishCatchUp h hp done
      by_cases zero : e'.unsynced = 0
      · rw [if_pos zero] at told
        refine .inr (.inl ⟨by rw [zero]; exact told, ?_⟩)
        rintro ⟨-, -, -, -, -, -, left, -⟩
        exact left zero
      · rw [if_neg zero, List.append_nil] at told
        by_cases same : e'.unsynced = e.unsynced
        · exact .inl ⟨same, told⟩
        · exact .inr (.inr ⟨⟨id, p, ids, rfl, hp, nothing, zero, same⟩, told,
            Nat.lt_of_le_of_ne falls same⟩)
    · obtain ⟨zero, nothing, -⟩ | ⟨_, _, e₁, taken, followed⟩ :=
        receiveReply_of_legal hp hs legal done
      · exact absurd ⟨zero, nothing⟩ ends
      have followed : Silent e₁ e' := by
        rcases followed with rfl | rfl
        · exact ⟨rfl, rfl⟩
        · exact silent_moves (moves_nextSummary e₁ id)
      rcases told_takeUp taken with silent | told
      · exact .inl (silent.trans followed)
      · refine .inr (.inl ⟨?_, ?_⟩)
        · show e'.told = _
          rw [followed.told, followed.unsynced, told]
        · rintro ⟨id', q, ids', eq, hq, nothing, -⟩
          cases eq
          cases hp.symm.trans hq
          exact ends ⟨rfl, nothing⟩
  · obtain rfl := receiveReply_of_not_legal hp (fun s hs ok => legal ⟨s, hs, ok⟩) done
    exact .inl (silent_moves (moves_remove e id _))

/-- **What is told in a moment.**  The number that is kept stays the same and the ledger is told
nothing; or the ledger is told the number; or the moment conceals that it has fallen. -/
theorem told_perform {op : Operation} {answer : Outcome} (h : e.Outstanding)
    (done : e.perform op = .ok (answer, e')) :
    let m : Moment σ := ⟨e, some op, e'⟩
    Silent e e' ∨ m.Reports e'.unsynced ∧ ¬ m.Conceals ∨
      m.Conceals ∧ e'.told = e.told ∧ e'.unsynced < e.unsynced := by
  by_cases reply : ∃ id ids remaining, op = .receive id (.summaryReply ids remaining)
  · obtain ⟨id, ids, remaining, rfl⟩ := reply
    have received := receive_of_perform done
    unfold receive at received
    split at received
    next known =>
      obtain ⟨p, hp⟩ := isRegistered_iff.1 known
      exact told_receiveReply h hp received
    next =>
      cases received
      exact .inl ⟨rfl, rfl⟩
  · refine .inl (silent_course (course_perform done) (fun id allows => ?_) fun id ids allows => ?_)
    · obtain ⟨ids, remaining, eq⟩ := allows
      exact reply ⟨id, ids, remaining, eq⟩
    · obtain ⟨remaining, eq⟩ := allows
      exact reply ⟨id, ids, remaining, eq⟩

/-! ## Runs -/

section

variable {config : Config} {ledger : σ} {clock : Clock} {start : Engine σ} {past : List (Moment σ)}

/-- What is told in a moment of a run. -/
theorem Run.told_cases {m : Moment σ} (run : Run start (m :: past) e)
    (started : Engine.start config ledger clock = .ok start) :
    Silent m.before m.after ∨ m.Reports m.after.unsynced ∧ ¬ m.Conceals ∨
      m.Conceals ∧ m.after.told = m.before.told ∧ m.after.unsynced < m.before.unsynced := by
  cases run with
  | perform before done => exact told_perform (before.outstanding started) done
  | meddle ledger before => exact .inl ⟨rfl, rfl⟩

/-- Whether the last change of the number that is kept was concealed. -/
def Concealed (past : List (Moment σ)) : Prop :=
  ∃ newer m older, past = newer ++ m :: older ∧ m.Conceals ∧ ∀ d ∈ newer, ¬ ∃ n, d.Reports n

/-- **The history of what is told.**  While a change is concealed the ledger was told a greater
number last; otherwise it was told the number that is kept. -/
theorem Run.concealed_cases (run : Run start past e)
    (started : Engine.start config ledger clock = .ok start) :
    Concealed past ∧ e.unsynced ≠ 0 ∧ (∃ n, e.reported = some n ∧ e.unsynced < n) ∨
      ¬ Concealed past ∧ e.Current := by
  suffices ∀ m past, Run start (m :: past) m.after →
      (Concealed past ∧ m.before.unsynced ≠ 0 ∧
          (∃ n, m.before.reported = some n ∧ m.before.unsynced < n) ∨
        ¬ Concealed past ∧ m.before.Current) →
      (Concealed (m :: past) ∧ m.after.unsynced ≠ 0 ∧
          (∃ n, m.after.reported = some n ∧ m.after.unsynced < n) ∨
        ¬ Concealed (m :: past) ∧ m.after.Current) by
    induction run with
    | start =>
      have fresh : start.unsynced = 0 := by
        obtain ⟨_, -, eq⟩ := Checked.bind_eq_ok_iff.1 started
        cases eq
        rfl
      exact .inr ⟨by simp [Concealed], fun left => absurd fresh left⟩
    | perform before done ih => exact this _ _ (before.perform done) ih
    | meddle ledger before ih => exact this _ _ (before.meddle ledger) ih
  intro m past run before
  have last : Concealed (m :: past) ↔
      m.Conceals ∨ ¬ (∃ n, m.Reports n) ∧ Concealed past := exists_last_cons
  have unreported (told : m.after.told = m.before.told) : ¬ ∃ n, m.Reports n := by
    rintro ⟨n, reports⟩
    exact List.cons_ne_nil n [] (List.self_eq_append_right.1 (told.symm.trans reports))
  rcases run.told_cases started with silent | ⟨reports, revealed⟩ | ⟨conceals, told, falls⟩
  · have kept : m.after.reported = m.before.reported := congrArg List.getLast? silent.told
    have plain : ¬ m.Conceals := fun ⟨_, _, _, _, _, _, _, changes⟩ => changes silent.unsynced
    rw [last, or_iff_right plain, and_iff_right (unreported silent.told), Current,
      silent.unsynced, kept]
    exact before
  · refine .inr ⟨fun concealed => ?_, fun _ => ?_⟩
    · rcases last.1 concealed with conceals | ⟨unreported, -⟩
      · exact revealed conceals
      · exact unreported ⟨_, reports⟩
    · rw [reported, reports, List.getLast?_concat]
  · obtain ⟨-, -, -, -, -, -, left, -⟩ := id conceals
    have kept : m.after.reported = m.before.reported := congrArg List.getLast? told
    refine .inl ⟨last.2 (.inl conceals), left, ?_⟩
    rw [kept]
    rcases before with ⟨-, -, n, reported, greater⟩ | ⟨-, current⟩
    · exact ⟨n, reported, falls.trans greater⟩
    · exact ⟨_, current (Nat.ne_of_gt (Nat.zero_lt_of_lt falls)), falls⟩

/-- **What is reported is current unless a change is concealed.**  In every run the ledger was told
last how many blocks are left to fetch, whenever there are any, exactly if no reply that ends a
catch-up conceals a change.  It is out of date exactly since the last concealed change, unless the
ledger was told another number since, and then it is too great.  Whenever nothing is left to fetch
any more, the ledger is told so. -/
theorem reported_current_iff {config : Config} {ledger : σ} {clock : Clock} {start e : Engine σ}
    {past : List (Moment σ)} (started : Engine.start config ledger clock = .ok start)
    (run : Run start past e) :
    ((∀ m ∈ past, m.after.Current) ↔ ∀ m ∈ past, ¬ m.Conceals) ∧
      (e.Current ↔ ¬ Concealed past) ∧
      (e.unsynced ≠ 0 → ∃ n, e.reported = some n ∧ e.unsynced ≤ n) ∧
      (∀ m ∈ past, m.before.unsynced ≠ 0 → m.after.unsynced = 0 → m.Reports 0) := by
  have current_iff {e : Engine σ} {past : List (Moment σ)} (run : Run start past e) :
      e.Current ↔ ¬ Concealed past := by
    rcases run.concealed_cases started with
      ⟨concealed, left, n, reported, greater⟩ | ⟨revealed, current⟩
    · refine iff_of_false (fun current => ?_) (not_not_intro concealed)
      exact Nat.ne_of_gt greater (Option.some.inj (reported.symm.trans (current left)))
    · exact iff_of_true current revealed
  refine ⟨⟨fun current m mem conceals => ?_, fun revealed m mem => ?_⟩, current_iff run,
    fun left => ?_, fun m mem left nothing => ?_⟩
  · obtain ⟨older, -, newest⟩ := run.reached mem
    exact (current_iff newest).1 (current m mem) (exists_last_cons.2 (.inl conceals))
  · obtain ⟨older, part, newest⟩ := run.reached mem
    refine (current_iff newest).2 ?_
    rintro ⟨newer, d, rest, eq, conceals, -⟩
    exact revealed d (part.subset (eq ▸ List.mem_append_right _ (List.mem_cons_self ..))) conceals
  · rcases run.concealed_cases started with ⟨-, -, n, reported, greater⟩ | ⟨-, current⟩
    · exact ⟨n, reported, Nat.le_of_lt greater⟩
    · exact ⟨_, current left, Nat.le_refl _⟩
  · obtain ⟨older, -, newest⟩ := run.reached mem
    rcases newest.told_cases started with
      silent | ⟨reports, -⟩ | ⟨⟨-, -, -, -, -, -, some_left, -⟩, -⟩
    · exact absurd (silent.unsynced.symm.trans nothing) left
    · exact nothing ▸ reports
    · exact absurd nothing some_left

end

/-- Two blocks are left to fetch from one peer.  When one of them is applied, the other peer turns
out to have nothing new. -/
def halfway : List Operation :=
  let known : Message := .summaryReply [(Block.bare 0).id, (Block.bare 1).id, (Block.bare 2).id] 0
  [.register ⟨1⟩ 2, .register ⟨2⟩ 1, .receive ⟨1⟩ known, .issueTick,
    .receive ⟨1⟩ (.block (Block.bare 1)), .applyTick, .receive ⟨2⟩ (.summaryReply [] 0)]

/-- One block is left to fetch when the ledger was told last that there are two. -/
theorem exists_outdated :
    ∃ (start e : Engine ChainLedger) (past : List (Moment ChainLedger)),
      Engine.start {} (.ofGenesis (.genesis 0) 0 10) {} = .ok start ∧ Run start past e ∧
        e.unsynced = 1 ∧ e.reported = some 2 := by
  obtain ⟨start, past, e, started, run, checked⟩ := exists_run {}
    (ChainLedger.ofGenesis (.genesis 0) 0 10) {} halfway
    (fun r => r.2.unsynced = 1 && r.2.reported = some 2) (by decide +kernel)
  rw [Bool.and_eq_true, decide_eq_true_eq, decide_eq_true_eq] at checked
  exact ⟨start, e, past, started, run, checked.1, checked.2⟩

/-- A reply halfway through a catch-up conceals a change. -/
theorem concealed_halfway :
    ∃ (start e : Engine ChainLedger) (past : List (Moment ChainLedger)),
      Engine.start {} (.ofGenesis (.genesis 0) 0 10) {} = .ok start ∧ Run start past e ∧
        Concealed past ∧ ∃ n, e.reported = some n ∧ e.unsynced < n := by
  obtain ⟨start, e, past, started, run, one, two⟩ := exists_outdated
  have outdated : ¬ e.Current := fun current => by
    cases two.symm.trans ((current (by rw [one]; decide)).trans (congrArg some one))
  have law := (reported_current_iff started run).2.1
  exact ⟨start, e, past, started, run, by_contra fun revealed => outdated (law.2 revealed), 2, two,
    by rw [one]; decide⟩

/-- What the ledger was told last may be out of date. -/
theorem outdated_report :
    ¬ ∀ (config : Config) (ledger : ChainLedger) (clock : Clock) (start e : Engine ChainLedger)
      (past : List (Moment ChainLedger)), Engine.start config ledger clock = .ok start →
        Run start past e → e.unsynced ≠ 0 → e.reported = some e.unsynced := by
  intro always
  obtain ⟨start, e, past, started, run, one, two⟩ := exists_outdated
  have current := always _ _ _ start e past started run (by rw [one]; decide)
  rw [two, one] at current
  cases current

end Engine

end BlockRelay
