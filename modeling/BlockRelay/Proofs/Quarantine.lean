/-
# Quarantined objects

An object becomes wanted only while it is not quarantined (`Step.wanted`), and a step quarantines
an object only if it hands an object to the ledger (`Step.quarantined`).  But nothing takes a
quarantined object from the candidates or from the queue of a peer, and replies to summaries are
not compared with the quarantine at all.

So a quarantined object may be asked for, in three ways and in no others
(`condemned_of_requested`): it was condemned while it was wanted, it was condemned while it was
queued with the peer, or the peer named it in a reply while it was quarantined.
-/
import BlockRelay.Proofs.Offers

namespace BlockRelay

/-- Whether a step with a given deed hands an object to the ledger. -/
def Deed.Judges : Deed → Prop
  | .tookBlock .. | .tookTransaction .. | .refused => True
  | _ => False

variable {σ : Type}

namespace Moment

/-- Whether a hash is quarantined in a moment. -/
def condemns (m : Moment σ) (hash : Hash) : Bool :=
  !m.before.isQuarantined hash && m.after.isQuarantined hash

/-- Whether a peer names a block in a reply to a summary. -/
def names (m : Moment σ) (id : PeerId) (b : BlockId) : Bool :=
  match m.heard? id with
  | some (.summaryReply ids _) => ids.contains b
  | _ => false

/-- A hash is condemned where it was not quarantined before, and is afterwards. -/
theorem condemns_iff {m : Moment σ} {hash : Hash} :
    m.condemns hash = true ↔
      m.before.isQuarantined hash = false ∧ m.after.isQuarantined hash = true := by
  rw [condemns, Bool.and_eq_true, Bool.not_eq_true']

/-- A block is named where a reply that lists it is received. -/
theorem names_of_receive {m : Moment σ} {id : PeerId} {b : BlockId} {ids : List BlockId}
    {remaining : UInt64} (received : m.operation = some (.receive id (.summaryReply ids remaining)))
    (mem : b ∈ ids) : m.names id b = true := by
  rw [names, heard?_eq_some_iff.2 received]
  exact List.contains_iff_mem.2 mem

end Moment

namespace Engine

/-! ## Bans -/

/-- The quarantine stays the same, and so does what decides how long it lasts. -/
structure SameBans (e e' : Engine σ) : Prop where
  quarantine : e'.quarantine = e.quarantine
  config : e'.config = e.config
  clock : e'.clock = e.clock

/-- What a step does to the quarantine. -/
inductive Bans : Deed → Engine σ → Engine σ → Prop where
  /-- Nothing. -/
  | same {d : Deed} {e e' : Engine σ} (h : SameBans e e') : Bans d e e'
  /-- An object that was handed to the ledger is quarantined. -/
  | refused {d : Deed} {e e' : Engine σ} (hash : Hash) (judges : d.Judges)
      (h : SameBans { e with quarantine := e.quarantine.insert hash e.now } e') : Bans d e e'
  /-- What was quarantined for too long is forgotten. -/
  | forgot {e e' : Engine σ}
      (h : SameBans
        { e with
          quarantine := e.quarantine.filter fun _ refusedAt =>
            e.now - refusedAt ≤ e.config.cache.quarantineSeconds * 1000 } e') :
      Bans .forgot e e'
  /-- Time passes. -/
  | later (e : Engine σ) (ms : Nat) : Bans .internal e (e.advanceClock ms)

/-- An object that is refused is quarantined, or it is not. -/
theorem bans_quarantineFor {d : Deed} {e e₁ : Engine σ} (judges : d.Judges) (same : SameBans e e₁)
    (error : Refusal) (hash : Hash) : Bans d e (e₁.quarantineFor error hash) := by
  obtain ⟨quarantine, config, clock⟩ := same
  unfold quarantineFor
  split
  next =>
    refine .refused hash judges ⟨?_, config, clock⟩
    show e₁.quarantine.insert hash e₁.clock.now = _
    rw [quarantine, clock]
    rfl
  next => exact .same ⟨quarantine, config, clock⟩

/-- Leaving several peers leaves the quarantine alone. -/
theorem sameBans_disconnectAll (e : Engine σ) (leaving : List (PeerId × Reason)) :
    SameBans e (e.disconnectAll leaving) := by
  obtain ⟨_, _, _, _, _, _, eq⟩ := disconnectAll_eq e leaving
  rw [eq]
  exact ⟨rfl, rfl, rfl⟩

variable [Ledger σ]

/-! ## One step -/

/-- An announced block that is submitted is quarantined if it is refused. -/
theorem bans_submitAnnounced {d : Deed} {e e' : Engine σ} {b : Block} {r : Option Refusal}
    (judges : d.Judges) (done : e.submitAnnounced b = .ok (r, e')) : Bans d e e' := by
  unfold submitAnnounced at done
  split at done
  next =>
    cases done
    exact .same ⟨rfl, rfl, rfl⟩
  next =>
    obtain ⟨⟨result, e₁⟩, called, done⟩ := Checked.bind_eq_ok_iff.1 done
    obtain ⟨ledger, -, rfl⟩ := applyBlock_eq_ok_iff.1 called
    cases result with
    | ok =>
      cases done
      exact .same ⟨rfl, rfl, rfl⟩
    | error error =>
      cases done
      apply bans_quarantineFor judges
      exact ⟨rfl, rfl, rfl⟩

/-- A fetched block that is submitted is quarantined if it is refused. -/
theorem bans_submitFetched {e e' : Engine σ} {hash : Hash} {b : Block} {error : Refusal}
    (done : (e.takeNext hash).submitFetched b = .ok (some error, e')) : Bans .refused e e' := by
  unfold submitFetched at done
  dsimp only at done
  split at done
  next => cases done
  next =>
    obtain ⟨⟨result, e₁⟩, called, done⟩ := Checked.bind_eq_ok_iff.1 done
    obtain ⟨ledger, -, rfl⟩ := applyBlock_eq_ok_iff.1 called
    cases result with
    | ok => cases done
    | error =>
      cases done
      have called : SameBans e
          { { e.takeNext hash with ledger := ledger }.record (.appliedBlock b.id true) with
            applyDue := true } := ⟨rfl, rfl, rfl⟩
      cases bans_quarantineFor (d := .refused) trivial called error b.id.hash with
      | same h => exact .same ⟨h.quarantine, h.config, h.clock⟩
      | refused other judges h => exact .refused other judges ⟨h.quarantine, h.config, h.clock⟩

/-- A transaction that is submitted is quarantined if it is refused. -/
theorem bans_submitTransaction {d : Deed} (judges : d.Judges) (e : Engine σ) (t : Transaction) :
    Bans d e (e.submitTransaction t).2 := by
  unfold submitTransaction
  split
  next => exact .same ⟨rfl, rfl, rfl⟩
  next =>
    simp only [applyTransaction]
    split
    next eq =>
      obtain ⟨-, rfl⟩ := Prod.mk.inj eq
      exact .same ⟨rfl, rfl, rfl⟩
    next eq =>
      obtain ⟨-, rfl⟩ := Prod.mk.inj eq
      exact .same ⟨rfl, rfl, rfl⟩
    next error _ eq =>
      obtain ⟨-, rfl⟩ := Prod.mk.inj eq
      apply bans_quarantineFor judges
      exact ⟨rfl, rfl, rfl⟩

/-- **What a step does to the quarantine.**  An object is quarantined only when it is refused, and
is forgotten only with everything that is out of date. -/
theorem Step.bans {d : Deed} {e e' : Engine σ} (s : Step d e e') : Bans d e e' := by
  cases s with
  | remove r hp =>
    obtain ⟨_, _, _, eq⟩ := remove_eq hp r
    rw [eq]
    exact .same ⟨rfl, rfl, rfl⟩
  | finishCatchUp _ _ _ _ done =>
    obtain ⟨_, rfl | ⟨_, rfl⟩⟩ := finishCatchUp_cases done <;> exact .same ⟨rfl, rfl, rfl⟩
  | takeUp _ _ _ done =>
    obtain ⟨_, _, rfl | ⟨_, rfl⟩⟩ := takeUp_cases done <;> exact .same ⟨rfl, rfl, rfl⟩
  | @takeIn _ id _ i =>
    rcases takeIn_cases e id i with eq | ⟨_, _, eq, -⟩ <;> rw [eq] <;> exact .same ⟨rfl, rfl, rfl⟩
  | announceSpread =>
    obtain ⟨_, eq⟩ := announceSpread_eq e
    rw [eq]
    exact .same ⟨rfl, rfl, rfl⟩
  | reserve =>
    obtain ⟨_, _, eq⟩ := reserveAll_eq e
    rw [requestReserved_eq, eq]
    exact .same ⟨rfl, rfl, rfl⟩
  | @serve _ id _ items =>
    obtain ⟨_, _, _, _, -, eq | eq⟩ := serve_eq e id items <;> rw [eq] <;>
      exact .same ⟨rfl, rfl, rfl⟩
  | @requestBlocks _ id _ batch =>
    obtain ⟨_, _, eq⟩ := requestBlocks_eq e id batch
    rw [eq]
    exact .same ⟨rfl, rfl, rfl⟩
  | submitAnnounced _ _ _ done =>
    cases bans_submitAnnounced (d := .tookBlock _ _) trivial done with
    | same h => exact .same ⟨h.quarantine, h.config, h.clock⟩
    | refused hash judges h => exact .refused hash judges ⟨h.quarantine, h.config, h.clock⟩
  | @submitTransaction _ id _ t =>
    cases bans_submitTransaction (d := .tookTransaction id t) trivial
        (e.modifyPeer id fun p => { p with reserved := p.reserved.erase t.item }) t with
    | same h => exact .same ⟨h.quarantine, h.config, h.clock⟩
    | refused hash judges h => exact .refused hash judges ⟨h.quarantine, h.config, h.clock⟩
  | settle _ _ done =>
    rcases submitFetched_cases done with ⟨-, -, rfl⟩ | ⟨result, ledger, -, result_eq⟩
    · exact .same ⟨rfl, rfl, rfl⟩
    · cases result with
      | ok =>
        obtain ⟨-, rfl⟩ := result_eq
        exact .same ⟨rfl, rfl, rfl⟩
      | error => cases result_eq.1
  | refuse _ _ done =>
    obtain ⟨quarantine, config, clock⟩ := sameBans_disconnectAll _ _
    cases bans_submitFetched done with
    | same h =>
      exact .same ⟨quarantine.trans h.quarantine, config.trans h.config, clock.trans h.clock⟩
    | refused hash judges h =>
      exact .refused hash judges
        ⟨quarantine.trans h.quarantine, config.trans h.config, clock.trans h.clock⟩
  | forgetOutdated done =>
    obtain ⟨_, -, done⟩ := Checked.bind_eq_ok_iff.1 done
    cases done
    exact .forgot ⟨rfl, rfl, rfl⟩
  | advanceClock _ ms => exact .later e ms
  | broadcast e m => cases m <;> exact .same ⟨rfl, rfl, rfl⟩
  | openSession | welcome | restart | sendSummary | sendAnswer | measure | arrive | dropStale | due
  | rest | absorb | suspend | dropOrphan | advanceFlood => exact .same ⟨rfl, rfl, rfl⟩

/-- No step changes the configuration. -/
theorem Step.config_eq {d : Deed} {e e' : Engine σ} (s : Step d e e') : e'.config = e.config := by
  cases s.bans with
  | same h | refused _ _ h | forgot h => exact h.config
  | later => rfl

/-- In every run the configuration is that at the start. -/
theorem Run.config_eq {config : Config} {ledger : σ} {clock : Clock} {start e : Engine σ}
    {past : List (Moment σ)} (started : Engine.start config ledger clock = .ok start)
    (run : Run start past e) : e.config = config := by
  refine run.invariant (I := fun e => e.config = config) ?_ (fun s h => s.config_eq.trans h)
    fun _ _ h => h
  obtain ⟨_, -, eq⟩ := Checked.bind_eq_ok_iff.1 started
  cases eq
  rfl

/-- What a quarantine holds after a step was there before, unless an object was handed to the
ledger. -/
theorem Step.quarantined {d : Deed} {e e' : Engine σ} (s : Step d e e') {hash : Hash}
    (h : e'.isQuarantined hash = true) : e.isQuarantined hash = true ∨ d.Judges := by
  unfold isQuarantined at h ⊢
  cases s.bans with
  | same ban =>
    rw [ban.quarantine] at h
    exact .inl h
  | refused _ judges => exact .inr judges
  | forgot ban =>
    rw [ban.quarantine] at h
    exact .inl (Std.TreeMap.contains_of_contains_filter h)
  | later => exact .inl h

/-- What a quarantine holds after a course was there before, unless an object was handed to the
ledger. -/
theorem Course.quarantined {allowed : Deed → Prop} {e e' : Engine σ} (c : Course allowed e e')
    {hash : Hash} (h : e'.isQuarantined hash = true) :
    e.isQuarantined hash = true ∨ ∃ d, allowed d ∧ d.Judges :=
  c.cause (F := (·.isQuarantined hash = true)) (fun s h => s.quarantined h) h

/-- An object that is wanted and quarantined was so before, unless an object was handed to the
ledger. -/
theorem Course.wanted_quarantined {allowed : Deed → Prop} {e e' : Engine σ}
    (c : Course allowed e e') {i : Item}
    (h : e'.Wanted i ∧ e'.isQuarantined i.hash = true) :
    (e.Wanted i ∧ e.isQuarantined i.hash = true) ∨ ∃ d, allowed d ∧ d.Judges := by
  refine c.cause (F := fun e => e.Wanted i ∧ e.isQuarantined i.hash = true) (fun s h => ?_) h
  rcases s.quarantined h.2 with bad | judges
  · rcases s.wanted h.1 with wanted | ⟨_, _, clean⟩
    · exact .inl ⟨wanted, bad⟩
    · rw [bad] at clean
      cases clean
  · exact .inr judges

omit [Ledger σ] in
/-- An operation that hands an object to the ledger notes no announcement, and joins no reply. -/
theorem Operation.quiet_of_judges {op : Operation} {d : Deed} (allows : op.Allows d)
    (judges : d.Judges) :
    (∀ id i, ¬ op.Allows (.noted id i)) ∧ ∀ id ids, ¬ op.Allows (.joined id ids) := by
  cases d with
  | tookBlock id b =>
    cases allows
    simp [Operation.Allows]
  | tookTransaction id t =>
    rcases allows with rfl | ⟨ts, rfl, -⟩ <;> simp [Operation.Allows]
  | refused => rcases allows with rfl | rfl <;> simp [Operation.Allows]
  | _ => exact judges.elim

/-! ## Runs -/

section

variable {config : Config} {ledger : σ} {clock : Clock} {start e : Engine σ}
  {past : List (Moment σ)}

/-- What is wanted and quarantined was condemned while it was wanted. -/
theorem Run.condemned_of_wanted (run : Run start past e)
    (started : Engine.start config ledger clock = .ok start) {i : Item} (wanted : e.Wanted i)
    (bad : e.isQuarantined i.hash = true) :
    ∃ d ∈ past, d.condemns i.hash = true ∧ d.before.Wanted i := by
  induction run with
  | start =>
    obtain ⟨peers, candidates⟩ := blank_of_start started
    simp [Wanted, peers, candidates, CandidateQueue.items] at wanted
  | meddle _ _ ih =>
    obtain ⟨d, mem, condemned⟩ := ih wanted bad
    exact ⟨d, List.mem_cons_of_mem _ mem, condemned⟩
  | @perform past e e' op _ _ done ih =>
    have earlier (wanted : e.Wanted i) (bad : e.isQuarantined i.hash = true) :
        ∃ d ∈ ⟨e, some op, e'⟩ :: past, d.condemns i.hash = true ∧ d.before.Wanted i := by
      obtain ⟨d, mem, condemned⟩ := ih wanted bad
      exact ⟨d, List.mem_cons_of_mem _ mem, condemned⟩
    have course := course_perform done
    rcases course.wanted_quarantined ⟨wanted, bad⟩ with ⟨wanted, bad⟩ | ⟨d, allows, judges⟩
    · exact earlier wanted bad
    · -- nothing is noted in this operation, so that the item was wanted before it
      have quiet := (Operation.quiet_of_judges allows judges).1
      have wanted : e.Wanted i := by
        rcases course.wanted wanted with before | ⟨id, noted⟩
        · exact before
        · exact absurd noted (quiet id i)
      cases before : e.isQuarantined i.hash with
      | true => exact earlier wanted before
      | false =>
        exact ⟨_, List.mem_cons_self .., Moment.condemns_iff.2 ⟨before, bad⟩, wanted⟩

/-- A block that is to be fetched from a peer and is quarantined was condemned while it was to be
fetched from this peer, or was named by it while it was quarantined, since the peer was
registered. -/
theorem Run.condemned_of_listed (run : Run start past e)
    (started : Engine.start config ledger clock = .ok start) {id : PeerId} {b : BlockId}
    (listed : e.Listed id b) (bad : e.isQuarantined b.hash = true) :
    ∃ d ∈ session id past, d.condemns b.hash = true ∧ d.before.Listed id b ∨
      d.names id b = true ∧ d.before.isQuarantined b.hash = true := by
  induction run with
  | start =>
    obtain ⟨peers, -⟩ := blank_of_start started
    simp [Listed, peers] at listed
  | @meddle past e ledger _ ih =>
    obtain ⟨d, mem, condemned⟩ := ih listed bad
    exact ⟨d, session_meddle id _ _ past ▸ List.mem_cons_of_mem _ mem, condemned⟩
  | @perform past e e' op _ _ done ih =>
    rw [session_cons]
    split
    next opens =>
      -- nothing is to be fetched from a peer that has just been registered
      obtain ⟨height, eq⟩ := Moment.opens_iff.1 opens
      cases eq
      cases done
      rcases (course_welcome e id height).listed listed with ⟨p, hp, mem⟩ | ⟨_, routine, -⟩
      · rw [peers_openSession, if_pos rfl] at hp
        cases hp
        cases mem
      · exact (Deed.isRoutine_iff.1 routine).elim
    next =>
      have course := course_perform done
      rcases course.listed listed with listed | ⟨ids, allows, named⟩
      · cases before : e.isQuarantined b.hash with
        | true =>
          obtain ⟨d, mem, condemned⟩ := ih listed before
          exact ⟨d, List.mem_cons_of_mem _ mem, condemned⟩
        | false =>
          exact ⟨_, List.mem_cons_self .., .inl ⟨Moment.condemns_iff.2 ⟨before, bad⟩, listed⟩⟩
      · -- a reply hands no object to the ledger, so that the block was quarantined before it
        have before : e.isQuarantined b.hash = true := by
          rcases course.quarantined bad with before | ⟨d, also, judges⟩
          · exact before
          · exact absurd allows ((Operation.quiet_of_judges also judges).2 id ids)
        obtain ⟨remaining, rfl⟩ := allows
        exact ⟨_, List.mem_cons_self .., .inr ⟨Moment.names_of_receive rfl named, before⟩⟩

end

/-- **When a quarantined object is asked for.**  In every run, a quarantined item that a peer is
asked for is an announced one that was condemned while it was wanted, or a block of a catch-up
that the peer had in its queue when it was condemned, or that the peer named in a reply while
it was quarantined. -/
theorem condemned_of_requested {config : Config} {ledger : σ} {clock : Clock} {start e : Engine σ}
    {m : Moment σ} {past : List (Moment σ)}
    (started : Engine.start config ledger clock = .ok start) (run : Run start (m :: past) e)
    {id : PeerId} {items : List Item} (sent : Event.sent id (.fetch items) ∈ m.events) {i : Item}
    (asked : i ∈ items) (bad : m.before.isQuarantined i.hash = true) :
    (m.operation = some .reserveCandidates ∧
        ∃ d ∈ past, d.condemns i.hash = true ∧ d.before.Wanted i) ∨
      (m.operation = some .issueRequests ∨ m.operation = some .issueTick) ∧
        ∃ b : BlockId, b.item = i ∧
          ∃ d ∈ session id past, d.condemns b.hash = true ∧ d.before.Listed id b ∨
            d.names id b = true ∧ d.before.isQuarantined b.hash = true := by
  cases run with
  | meddle => simp [Moment.events] at sent
  | perform before done =>
    rcases asked_of_sent done sent asked with ⟨rfl, wanted, -⟩ | ⟨issues, b, listed, rfl⟩
    · exact .inl ⟨rfl, before.condemned_of_wanted started wanted bad⟩
    · refine .inr ⟨issues.imp (congrArg some) (congrArg some), b, rfl, ?_⟩
      exact before.condemned_of_listed started listed bad

/-- A block that a peer announced and delivered is refused, and another peer names it in a reply. -/
def refusedThenNamed : List Operation :=
  [.register ⟨1⟩ 0, .receive ⟨1⟩ (.announce [(Block.bare 1).id.item]), .reserveCandidates,
    .receive ⟨1⟩ (.block (Block.bare 1)), .register ⟨2⟩ 1,
    .receive ⟨2⟩ (.summaryReply [(Block.bare 0).id, (Block.bare 1).id] 0), .issueTick]

/-- Whether the newest moment asks the second peer for the block, which is quarantined. -/
def asksForQuarantined (past : List (Moment ChainLedger)) : Bool :=
  match past with
  | m :: _ => m.operation = some .issueTick &&
    m.events.contains (.sent ⟨2⟩ (.fetch [(Block.bare 1).id.item])) &&
      m.before.isQuarantined (Block.bare 1).id.hash
  | [] => false

/-- After the refusal the second peer is asked for the block. -/
theorem exists_asksForQuarantined :
    ∃ (start e : Engine ChainLedger) (m : Moment ChainLedger) (past : List (Moment ChainLedger)),
      Engine.start {} ((ChainLedger.ofGenesis (.genesis 0) 0 10).forbid (Block.bare 1).id.hash)
          {} = .ok start ∧
        Run start (m :: past) e ∧ m.operation = some .issueTick ∧
          Event.sent ⟨2⟩ (.fetch [(Block.bare 1).id.item]) ∈ m.events ∧
            m.before.isQuarantined (Block.bare 1).id.hash = true := by
  obtain ⟨start, past, e, started, run, checked⟩ := exists_run {}
    ((ChainLedger.ofGenesis (.genesis 0) 0 10).forbid (Block.bare 1).id.hash) {} refusedThenNamed
    (fun (past, _) => asksForQuarantined past) (by decide +kernel)
  cases past with
  | nil => cases checked
  | cons m past =>
    simp only [asksForQuarantined, Bool.and_eq_true, decide_eq_true_eq] at checked
    obtain ⟨⟨issues, sent⟩, bad⟩ := checked
    exact ⟨start, e, m, past, started, run, issues, List.contains_iff_mem.1 sent, bad⟩

/-- The second peer is asked for a block that was condemned while the peer had it in its queue, or
that it named while the block was quarantined. -/
theorem named_while_quarantined :
    ∃ (start : Engine ChainLedger) (past : List (Moment ChainLedger)) (b : BlockId),
      Engine.start {} ((ChainLedger.ofGenesis (.genesis 0) 0 10).forbid (Block.bare 1).id.hash)
          {} = .ok start ∧
        b.item = (Block.bare 1).id.item ∧
          ∃ d ∈ session ⟨2⟩ past, d.condemns b.hash = true ∧ d.before.Listed ⟨2⟩ b ∨
            d.names ⟨2⟩ b = true ∧ d.before.isQuarantined b.hash = true := by
  obtain ⟨start, e, m, past, started, run, issues, sent, bad⟩ := exists_asksForQuarantined
  rcases condemned_of_requested started run sent (List.mem_singleton.2 rfl) bad with
    ⟨reserves, -⟩ | ⟨-, b, same, condemned⟩
  · cases issues.symm.trans reserves
  · exact ⟨start, past, b, started, same, condemned⟩

/-- A peer may be asked for a quarantined block. -/
theorem quarantined_requested :
    ¬ ∀ (config : Config) (ledger : ChainLedger) (clock : Clock) (start e : Engine ChainLedger)
      (m : Moment ChainLedger) (past : List (Moment ChainLedger)) (id : PeerId)
      (items : List Item) (i : Item),
      Engine.start config ledger clock = .ok start → Run start (m :: past) e →
        Event.sent id (.fetch items) ∈ m.events → i ∈ items →
          m.before.isQuarantined i.hash = false := by
  intro never
  obtain ⟨start, e, m, past, started, run, -, sent, bad⟩ := exists_asksForQuarantined
  have clean := never _ _ _ start e m past _ _ _ started run sent (List.mem_singleton.2 rfl)
  exact Bool.false_ne_true (clean.symm.trans bad)

end Engine

end BlockRelay
