/-
# When waiting blocks are applied

A block that was delivered waits until it is in front of a queue, and then `Engine.applyDue`
makes sure that it is taken up at the next occasion.  An engine is awake if this is so
(`Engine.Awake`).

A pass over the waiting blocks leaves an engine awake: it uses up its budget, and then another one
is due, or its last sweep has found nothing that is next in line (`awake_applyWaiting`).  The
arrival of a block makes a pass due.  What is left are replies, which put blocks in front of
queues but make no pass due: an engine falls asleep exactly by a reply that puts a block that is
in hand in front of a queue (`awake_iff_no_uncover`).
-/
import BlockRelay.Ledger.Chain
import BlockRelay.Proofs.Arrivals
import BlockRelay.Proofs.Records

namespace BlockRelay

namespace Engine

variable {σ : Type}

/-- Whether a block is in front of the queue of a registered peer. -/
def Fronts (e : Engine σ) (id : PeerId) (hash : Hash) : Prop :=
  ∃ p, e.peers[id]? = some p ∧ heads hash p = true

/-- A block is in front of some queue exactly if it is in front of the queue of some peer. -/
theorem anyPeer_heads_iff {e : Engine σ} {hash : Hash} :
    e.anyPeer (heads hash) = true ↔ ∃ id, e.Fronts id hash := by
  rw [anyPeer_iff]
  exact Iff.rfl

/-- Whether a block is in hand and in front of the queue of some peer. -/
def Ready (e : Engine σ) (w : WaitingBlock) : Prop :=
  e.InHand w ∧ e.anyPeer (heads w.block.id.hash) = true

/-- Whether a pass over the waiting blocks is due whenever one of them is next in line. -/
def Awake (e : Engine σ) : Prop := ∀ w, e.Ready w → e.applyDue = true

end Engine

/-- Whether a reply puts a block that is in hand in front of the queue of its peer, where it was in
front of no queue, while no pass over the waiting blocks is due. -/
def Moment.Uncovers {σ : Type} (m : Moment σ) (id : PeerId) : Prop :=
  (∃ ids remaining, m.operation = some (.receive id (.summaryReply ids remaining))) ∧
    m.before.applyDue = false ∧ ∃ w, m.before.InHand w ∧
      m.before.anyPeer (Engine.heads w.block.id.hash) = false ∧
        m.after.Fronts id w.block.id.hash

/-- Whether a deed may put a block in front of the queue of a peer. -/
def Deed.Advances (id : PeerId) : Deed → Prop
  | .joined other _ => other = id
  | .settled | .refused => True
  | _ => False

namespace Engine

variable {σ : Type} [Ledger σ]

/-! ## One step -/

/-- A block comes to the front of the queue of a peer only by few deeds. -/
theorem Step.fronts {d : Deed} {e e' : Engine σ} (s : Step d e e') {id : PeerId} {hash : Hash}
    (h : e'.Fronts id hash) : e.Fronts id hash ∨ d.Advances id := by
  obtain ⟨p', hp', front⟩ := h
  rcases s.revised id p' hp' with ⟨-, rfl⟩ | ⟨p, hp, r⟩
  · cases front
  suffices heads hash p = true ∨ d.Advances id from this.imp_left fun front => ⟨p, hp, front⟩
  cases r with
  | joined => exact .inr rfl
  | settled | refused => exact .inr trivial
  | restarted => cases front
  | announced p items =>
    rw [Peer.announceAll_eq] at front
    exact .inl front
  | requested p batch =>
    rw [Peer.requestBlocks_eq] at front
    exact .inl front
  | same | welcomed | summarized | answered | finished | noted | reserved | served | accepted
  | tookBlock | tookTransaction | forgot => exact .inl front

/-- Only a deed of its own makes a pass over the waiting blocks not due any more. -/
theorem Step.applyDue {d : Deed} {e e' : Engine σ} (s : Step d e e') (busy : d ≠ .rested)
    (h : e.applyDue = true) : e'.applyDue = true := by
  cases s.work with
  | rested => exact absurd rfl busy
  | arrived => rfl
  | takenUp _ _ _ _ kept work => exact work.applyDue.trans (kept h)
  | due kept work => exact work.applyDue.trans (kept h)
  | same work | left _ _ work | asked _ work | purged work => exact work.applyDue.trans h
  | absorbed | dropped | later => exact h

/-- A block that comes into hand makes a pass due. -/
theorem applyDue_of_inHand {d : Deed} {e e' : Engine σ} (s : Step d e e') {w : WaitingBlock}
    (h : e'.InHand w) : e.InHand w ∨ e'.applyDue = true := by
  rcases h.of_step s with before | ⟨rfl, p, hp, asked⟩
  · exact .inl before
  · cases s with
    | arrive => exact .inr rfl
    | submitAnnounced hq notAsked =>
      cases hp.symm.trans hq
      cases asked.symm.trans notAsked

/-! ## A pass over the waiting blocks -/

omit [Ledger σ] in
/-- Whether nothing has just arrived, and nothing that waits is next in line. -/
structure Quiet (e : Engine σ) : Prop where
  arrived : e.arrived = []
  waiting : ∀ hash : Hash, e.waiting.contains hash = true → e.anyPeer (heads hash) = false

omit [Ledger σ] in
/-- A quiet engine is awake. -/
theorem Quiet.awake {e : Engine σ} (h : e.Quiet) (keyed : e.Keyed) : e.Awake := by
  rintro w ⟨mem | ⟨hash, hw⟩, front⟩
  · rw [h.arrived] at mem
    cases mem
  · rw [keyed hash w hw] at front
    have waits : e.waiting.contains hash = true := contains_iff_exists.2 ⟨w, hw⟩
    exact absurd front (Bool.eq_false_iff.1 (h.waiting hash waits))

/-- The next summary delivers nothing and takes nothing up. -/
theorem hands_nextSummary (e : Engine σ) (id : PeerId) :
    (e.nextSummary id).arrived = e.arrived ∧ (e.nextSummary id).waiting = e.waiting ∧
      (e.nextSummary id).applyDue = e.applyDue := by
  unfold nextSummary
  split
  next => exact ⟨rfl, rfl, rfl⟩
  next p hp =>
    split
    · exact ⟨rfl, rfl, rfl⟩
    · split
      · exact ⟨rfl, rfl, rfl⟩
      · obtain ⟨_, _, _, eq⟩ := remove_eq hp (some .forked)
        rw [disconnect, eq]
        exact ⟨rfl, rfl, rfl⟩

/-- A catch-up that begins anew delivers nothing and takes nothing up. -/
theorem hands_startCatchUp (e : Engine σ) (id : PeerId) :
    (e.startCatchUp id).arrived = e.arrived ∧ (e.startCatchUp id).waiting = e.waiting := by
  unfold startCatchUp
  split
  · obtain ⟨arrived, waiting, -⟩ := hands_nextSummary (e.restart id) id
    exact ⟨arrived, waiting⟩
  · exact ⟨rfl, rfl⟩

omit [Ledger σ] in
/-- What delivers nothing and takes nothing up does neither for several peers. -/
theorem hands_foldl {f : Engine σ → PeerId → Engine σ}
    (one : ∀ e id, (f e id).arrived = e.arrived ∧ (f e id).waiting = e.waiting)
    (ids : List PeerId) (e : Engine σ) :
    (ids.foldl f e).arrived = e.arrived ∧ (ids.foldl f e).waiting = e.waiting := by
  induction ids generalizing e with
  | nil => exact ⟨rfl, rfl⟩
  | cons id rest ih =>
    obtain ⟨arrived, waiting⟩ := ih (f e id)
    obtain ⟨arrived₁, waiting₁⟩ := one e id
    exact ⟨arrived.trans arrived₁, waiting.trans waiting₁⟩

/-- Applying the block that is next in line takes it from those that wait. -/
theorem hands_applyFetched {e e' : Engine σ} {hash : Hash} {b : Block}
    (done : (e.takeNext hash).applyFetched b = .ok e') :
    e'.arrived = e.arrived ∧ e'.waiting = e.waiting.erase hash := by
  obtain ⟨⟨r, e₁⟩, submitted, done⟩ := Checked.bind_eq_ok_iff.1 done
  obtain ⟨_, -, taken⟩ := work_submitFetched submitted
  cases r with
  | none =>
    cases done
    obtain ⟨arrived₂, waiting₂⟩ := hands_foldl hands_startCatchUp
      ((e.takeNext hash).settledPeers b.id.hash .idle) e₁
    obtain ⟨arrived₃, waiting₃⟩ := hands_foldl
      (fun e id => ⟨(hands_nextSummary e id).1, (hands_nextSummary e id).2.1⟩)
      ((e.takeNext hash).settledPeers b.id.hash .drained)
      (e₁.startCatchUps ((e.takeNext hash).settledPeers b.id.hash .idle))
    exact ⟨arrived₃.trans (arrived₂.trans taken.arrived),
      waiting₃.trans (waiting₂.trans taken.waiting)⟩
  | some error =>
    cases done
    exact ⟨(work_disconnectAll e₁ _).arrived.trans taken.arrived,
      (work_disconnectAll e₁ _).waiting.trans taken.waiting⟩

/-- Visits that have taken up some waiting block. -/
structure Gains (s s' : ApplyPass σ) : Prop where
  progressed : s'.progressed = true
  fewer : s'.engine.waiting.size < s.engine.waiting.size

/-- Visits of waiting blocks none of which was taken up: nothing was next in line. -/
structure Idles (hashes : List Hash) (s s' : ApplyPass σ) : Prop where
  progressed : s'.progressed = s.progressed
  peers : s'.engine.peers = s.engine.peers
  size : s'.engine.waiting.size ≤ s.engine.waiting.size
  waiting : ∀ hash : Hash, s'.engine.waiting.contains hash = true →
    s.engine.waiting.contains hash = true
  left : ∀ hash ∈ hashes, s'.engine.waiting.contains hash = true →
    s.engine.anyPeer (heads hash) = false

/-- A visit takes up the visited block, or it is not next in line. -/
theorem visit_cases {s s' : ApplyPass σ} {hash : Hash} (done : s.visit hash = .ok s') :
    s'.engine.arrived = s.engine.arrived ∧ (Gains s s' ∨ Idles [hash] s s') := by
  cases ApplyPass.visited_of_visit done with
  | passed notNext =>
    refine ⟨rfl, .inr ⟨rfl, rfl, Nat.le_refl _, fun _ h => h, fun other mem waits => ?_⟩⟩
    cases List.mem_singleton.1 mem
    obtain ⟨w, hw⟩ := contains_iff_exists.1 waits
    exact notNext w hw
  | dropped =>
    refine ⟨rfl, .inr ⟨rfl, rfl, Std.TreeMap.size_erase_le, fun other waits => ?_,
      fun other mem waits => ?_⟩⟩
    · exact Std.TreeMap.contains_of_contains_erase waits
    · cases List.mem_singleton.1 mem
      have gone : (s.engine.waiting.erase hash).contains hash = false := by simp
      exact absurd waits (Bool.eq_false_iff.1 gone)
  | submitted hw _ _ applied =>
    obtain ⟨arrived, waiting⟩ := hands_applyFetched applied
    -- the waiting block that was taken up is one less
    have waits : s.engine.waiting.contains hash = true := contains_iff_exists.2 ⟨_, hw⟩
    have some : 0 < s.engine.waiting.keys.length :=
      List.length_pos_of_mem (Std.TreeMap.mem_keys.2 waits)
    rw [Std.TreeMap.length_keys] at some
    refine ⟨arrived, .inl ⟨rfl, ?_⟩⟩
    rw [waiting, Std.TreeMap.size_erase, if_pos waits]
    exact Nat.sub_lt some Nat.one_pos

/-- A sweep uses up the budget, takes up a waiting block, or finds nothing that is next in line. -/
theorem sweep_cases {budget : Nat} {hashes : List Hash} {s s' : ApplyPass σ}
    (done : ApplyPass.sweep budget hashes s = .ok s') :
    s'.engine.arrived = s.engine.arrived ∧
      (budget ≤ s'.applied ∨ Gains s s' ∨ Idles hashes s s') := by
  induction hashes generalizing s with
  | nil =>
    cases done
    exact ⟨rfl, .inr (.inr ⟨rfl, rfl, Nat.le_refl _, fun _ h => h, nofun⟩)⟩
  | cons hash rest ih =>
    unfold ApplyPass.sweep at done
    split at done
    next used =>
      cases done
      exact ⟨rfl, .inl used⟩
    next =>
      obtain ⟨s₁, visited, done⟩ := Checked.bind_eq_ok_iff.1 done
      obtain ⟨arrived₁, first⟩ := visit_cases visited
      obtain ⟨arrived, later⟩ := ih done
      refine ⟨arrived.trans arrived₁, later.imp_right fun later => ?_⟩
      rcases first with gains | idles <;> rcases later with gains' | idles'
      · exact .inl ⟨gains'.progressed, gains'.fewer.trans gains.fewer⟩
      · exact .inl ⟨idles'.progressed.trans gains.progressed,
          Nat.lt_of_le_of_lt idles'.size gains.fewer⟩
      · exact .inl ⟨gains'.progressed, Nat.lt_of_lt_of_le gains'.fewer idles.size⟩
      · refine .inr ⟨idles'.progressed.trans idles.progressed, idles'.peers.trans idles.peers,
          idles'.size.trans idles.size, fun other waits => idles.waiting other
            (idles'.waiting other waits), fun other mem waits => ?_⟩
        have still := idles'.waiting other waits
        rcases List.mem_cons.1 mem with rfl | mem
        · exact idles.left other (List.mem_singleton.2 rfl) still
        · rw [← idles'.left other mem waits, anyPeer, anyPeer, idles.peers]

/-- **A pass leaves nothing undone.**  With more sweeps than waiting blocks, a pass ends with its
budget used up, or with nothing that is next in line. -/
theorem run_quiet {budget n : Nat} {s s' : ApplyPass σ} (done : ApplyPass.run budget n s = .ok s')
    (arrived : s.engine.arrived = []) (enough : s.engine.waiting.size < n) :
    budget ≤ s'.applied ∨ s'.engine.Quiet := by
  induction n generalizing s with
  | zero => exact absurd enough (Nat.not_lt_zero _)
  | succ n ih =>
    obtain ⟨s₁, swept, done⟩ := Checked.bind_eq_ok_iff.1 done
    obtain ⟨arrived₁, outcome⟩ := sweep_cases swept
    have arrived₁ : s₁.engine.arrived = [] := arrived₁.trans arrived
    split at done
    next stops =>
      cases done
      rw [Bool.or_eq_true, decide_eq_true_eq] at stops
      rcases outcome with used | gains | idles
      · exact .inl used
      · -- a sweep that took up a block is the last one only if the budget is used up
        refine stops.imp_right fun stuck => ?_
        rw [gains.progressed] at stuck
        cases stuck
      · refine .inr ⟨arrived₁, fun hash waits => ?_⟩
        have listed := Std.TreeMap.mem_keys.2 (idles.waiting hash waits)
        rw [← idles.left hash listed waits, anyPeer, anyPeer, idles.peers]
    next goesOn =>
      simp only [Bool.or_eq_true, decide_eq_true_eq, Bool.not_eq_true', not_or,
        Bool.not_eq_false] at goesOn
      rcases outcome with used | gains | idles
      · exact absurd used goesOn.1
      · exact ih done arrived₁ (Nat.lt_of_lt_of_le gains.fewer (Nat.le_of_lt_succ enough))
      · cases idles.progressed.symm.trans goesOn.2

/-- **A pass leaves an engine awake.** -/
theorem awake_applyWaiting {e e' : Engine σ} {n : Nat} (keyed : e.Keyed)
    (done : e.applyWaiting = .ok (n, e')) : e'.Awake := by
  have course := (moves_applyWaiting done).course fun _ routine => routine _
  have keyed' : e'.Keyed := course.preserves (fun _ s => Keyed.step s) keyed
  obtain ⟨s, ran, rfl, final⟩ := applyWaiting_cases done
  rcases final with ⟨rfl, left⟩ | rfl
  · have ended := run_quiet ran (arrived_resume e) (Nat.lt_succ_self _)
    exact (ended.resolve_left left).awake keyed'
  · exact fun _ _ => rfl

/-! ## Operations -/

/-- While a pass does not become undue, a block that comes into hand makes one due. -/
theorem Course.inHand {allowed : Deed → Prop} {e e' : Engine σ} (c : Course allowed e e')
    (busy : ¬ allowed .rested) {w : WaitingBlock} (h : e'.InHand w) :
    e.InHand w ∨ e'.applyDue = true := by
  induction c with
  | refl => exact .inl h
  | tail _ last ih =>
    obtain ⟨d, allows, last⟩ := last
    rcases applyDue_of_inHand last h with before | due
    · exact (ih before).imp_right (last.applyDue fun eq => busy (eq ▸ allows))
    · exact .inr due

/-- An operation leaves an engine awake, or it is a reply that uncovers a block. -/
theorem Awake.perform {e e' : Engine σ} {op : Operation} {answer : Outcome} (keyed : e.Keyed)
    (h : e.Awake) (done : e.perform op = .ok (answer, e')) :
    e'.Awake ∨ ∃ id, (Moment.mk e (some op) e').Uncovers id := by
  by_cases applies : op = .applyWaiting ∨ op = .applyTick
  · -- a pass leaves the engine awake, whatever went before
    refine .inl ?_
    rcases applies with rfl | rfl
    · obtain ⟨n, done⟩ := eq_ok_of_counted done
      exact awake_applyWaiting keyed done
    · obtain ⟨n, done⟩ := eq_ok_of_counted done
      unfold applyTick at done
      split at done
      · exact awake_applyWaiting (e := { e with applyDue := false }) keyed done
      · cases done
        exact h
  · have course := course_perform done
    have busy : ¬ op.Allows .rested := fun eq => applies (.inr eq)
    refine or_iff_not_imp_left.2 fun asleep => ?_
    obtain ⟨w, ⟨inHand, front⟩, rests⟩ : ∃ w, e'.Ready w ∧ ¬ e'.applyDue = true := by
      simpa [Awake] using asleep
    have before := (Course.inHand course busy inHand).resolve_right rests
    have restedBefore : ¬ e.applyDue = true := fun due => rests <|
      course.preserves (I := (·.applyDue = true))
        (fun allows s => s.applyDue fun eq => busy (eq ▸ allows)) due
    have hidden : ¬ e.anyPeer (heads w.block.id.hash) = true := fun front =>
      restedBefore (h w ⟨before, front⟩)
    -- the block came to the front of a queue by a reply, since this is no pass
    obtain ⟨id, front⟩ := anyPeer_heads_iff.1 front
    have cause := course.cause (F := (·.Fronts id w.block.id.hash)) (C := (·.Advances id))
      (fun s h => s.fronts h) front
    obtain ⟨d, allows, advances⟩ :=
      cause.resolve_left fun front => hidden (anyPeer_heads_iff.2 ⟨id, front⟩)
    cases d with
    | joined other ids =>
      obtain rfl : other = id := advances
      obtain ⟨remaining, rfl⟩ := allows
      exact ⟨other, ⟨ids, remaining, rfl⟩, Bool.eq_false_iff.2 restedBefore, w, before,
        Bool.eq_false_iff.2 hidden, front⟩
    | settled | refused => exact absurd allows applies
    | _ => exact advances.elim

/-- A reply delivers nothing, takes nothing up, and makes no pass due. -/
theorem hands_receiveReply {e e' : Engine σ} {id : PeerId} {ids : List BlockId}
    {remaining : UInt64} {p : Peer} (hp : e.peers[id]? = some p)
    (done : e.receiveReply id ids remaining = .ok e') :
    e'.arrived = e.arrived ∧ e'.waiting = e.waiting ∧ e'.applyDue = e.applyDue := by
  rcases receiveReply_cases hp done with rfl | ⟨s, hs, -, ⟨-, -, done⟩ | joined⟩
  · obtain ⟨_, _, _, eq⟩ := remove_eq hp (some .badProtocol)
    rw [disconnect, eq]
    exact ⟨rfl, rfl, rfl⟩
  · obtain ⟨_, rfl | ⟨_, rfl⟩⟩ := finishCatchUp_cases done <;> exact ⟨rfl, rfl, rfl⟩
  · obtain ⟨elsewhere, enough, e₁, taken, followed⟩ := joined
    have first : e₁.arrived = e.arrived ∧ e₁.waiting = e.waiting ∧ e₁.applyDue = e.applyDue := by
      obtain ⟨_, _, rfl | ⟨_, rfl⟩⟩ := takeUp_cases taken <;> exact ⟨rfl, rfl, rfl⟩
    rcases followed with rfl | rfl
    · exact first
    · obtain ⟨arrived, waiting, due⟩ := hands_nextSummary e₁ id
      exact ⟨arrived.trans first.1, waiting.trans first.2.1, due.trans first.2.2⟩

/-- A reply that uncovers a block leaves an engine that is not awake. -/
theorem not_awake_of_uncovers {e e' : Engine σ} {op : Operation} {answer : Outcome}
    (done : e.perform op = .ok (answer, e')) {id : PeerId}
    (uncovers : (Moment.mk e (some op) e').Uncovers id) : ¬ e'.Awake := by
  obtain ⟨⟨ids, remaining, eq⟩, rests, w, inHand, -, p', hp', front⟩ := uncovers
  cases eq
  have received := receive_of_perform done
  have known := isRegistered_of_receive received (isRegistered_iff.2 ⟨p', hp'⟩)
  obtain ⟨p, hp⟩ := isRegistered_iff.1 known
  rw [receive, if_pos known] at received
  obtain ⟨arrived, waiting, due⟩ := hands_receiveReply hp received
  have still : e'.InHand w := by rwa [InHand, arrived, waiting]
  intro awake
  have woken := awake w ⟨still, anyPeer_heads_iff.2 ⟨id, p', hp', front⟩⟩
  exact Bool.false_ne_true (rests.symm.trans (due.symm.trans woken))

/-! ## Runs -/

section

variable {config : Config} {ledger : σ} {clock : Clock} {start e : Engine σ}
  {past : List (Moment σ)}

/-- In a run without a reply that uncovers a block the engine stays awake. -/
theorem Run.awake (run : Run start past e)
    (started : Engine.start config ledger clock = .ok start)
    (never : ∀ m ∈ past, ∀ id, ¬ m.Uncovers id) : e.Awake := by
  induction run with
  | start =>
    rintro w ⟨-, front⟩
    obtain ⟨id, p, hp, -⟩ := anyPeer_heads_iff.1 front
    cases (peers_of_start started id).symm.trans hp
  | meddle ledger before ih => exact ih fun m mem => never m (List.mem_cons_of_mem _ mem)
  | perform before done ih =>
    have awake := ih fun m mem => never m (List.mem_cons_of_mem _ mem)
    refine (awake.perform (before.keyed started) done).resolve_right ?_
    rintro ⟨id, uncovers⟩
    exact never _ (List.mem_cons_self ..) id uncovers

end

/-- **When a pass fails to become due.**  In every run the engine is always awake exactly if no
reply uncovers a block, and every pass over the waiting blocks leaves it awake. -/
theorem awake_iff_no_uncover {config : Config} {ledger : σ} {clock : Clock} {start e : Engine σ}
    {past : List (Moment σ)} (started : Engine.start config ledger clock = .ok start)
    (run : Run start past e) :
    ((∀ m ∈ past, m.after.Awake) ↔ ∀ m ∈ past, ∀ id, ¬ m.Uncovers id) ∧
      ∀ n e', e.applyWaiting = .ok (n, e') → e'.Awake := by
  refine ⟨⟨fun awake m mem id uncovers => ?_, fun never m mem => ?_⟩,
    fun n e' done => awake_applyWaiting (run.keyed started) done⟩
  · obtain ⟨older, -, newest⟩ := run.reached mem
    cases newest with
    | perform before done => exact not_awake_of_uncovers done uncovers (awake _ mem)
    | meddle =>
      obtain ⟨_, _, eq⟩ := uncovers.1
      cases eq
  · obtain ⟨older, part, newest⟩ := run.reached mem
    exact newest.awake started fun d earlier => never d (part.subset earlier)

/-- A block waits for the block below it, which is then applied as an announced one.  A peer that
registers afterwards replies with the block that waits. -/
def uncoveredByReply : List Operation :=
  [.register ⟨1⟩ 2,
    .receive ⟨1⟩ (.summaryReply [(Block.bare 0).id, (Block.bare 1).id, (Block.bare 2).id] 0),
    .issueTick, .receive ⟨1⟩ (.block (Block.bare 2)), .applyTick,
    .register ⟨2⟩ 0, .receive ⟨2⟩ (.announce [(Block.bare 1).id.item]), .reserveCandidates,
    .receive ⟨2⟩ (.block (Block.bare 1)),
    .register ⟨3⟩ 2, .receive ⟨3⟩ (.summaryReply [(Block.bare 1).id, (Block.bare 2).id] 0)]

/-- At the end the waiting block is in front of a queue, and no pass is due. -/
theorem exists_asleep :
    ∃ (start e : Engine ChainLedger) (past : List (Moment ChainLedger)) (w : WaitingBlock),
      Engine.start {} (.ofGenesis (.genesis 0) 0 10) {} = .ok start ∧ Run start past e ∧
        past ≠ [] ∧ e.Ready w ∧ e.applyDue = false := by
  obtain ⟨start, past, e, started, run, checked⟩ := exists_run {}
    (ChainLedger.ofGenesis (.genesis 0) 0 10) {} uncoveredByReply
    (fun r => !r.1.isEmpty && !r.2.applyDue &&
      (r.2.waiting[(Block.bare 2).id.hash]?).any fun w => r.2.anyPeer (heads w.block.id.hash))
    (by decide +kernel)
  simp only [Bool.and_eq_true, Bool.not_eq_true', Option.any_eq_true, List.isEmpty_eq_false_iff]
    at checked
  obtain ⟨⟨some, rests⟩, w, hw, front⟩ := checked
  exact ⟨start, e, past, w, started, run, some, ⟨.inr ⟨_, hw⟩, front⟩, rests⟩

/-- The reply of the last peer uncovers the waiting block. -/
theorem uncovered_by_reply :
    ∃ (start e : Engine ChainLedger) (past : List (Moment ChainLedger)),
      Engine.start {} (.ofGenesis (.genesis 0) 0 10) {} = .ok start ∧ Run start past e ∧
        ∃ m ∈ past, ∃ id, m.Uncovers id := by
  obtain ⟨start, e, past, w, started, run, some, ready, rests⟩ := exists_asleep
  refine ⟨start, e, past, started, run, ?_⟩
  by_contra none
  have awake := (awake_iff_no_uncover started run).1.2 fun m mem id uncovers =>
    none ⟨m, mem, id, uncovers⟩
  cases run with
  | start => exact some rfl
  | perform => exact Bool.false_ne_true (rests.symm.trans (awake _ (List.mem_cons_self ..) w ready))
  | meddle => exact Bool.false_ne_true (rests.symm.trans (awake _ (List.mem_cons_self ..) w ready))

/-- No pass may be due although a block in hand is in front of a queue. -/
theorem ready_while_asleep :
    ¬ ∀ (config : Config) (ledger : ChainLedger) (clock : Clock) (start e : Engine ChainLedger)
      (past : List (Moment ChainLedger)) (w : WaitingBlock),
      Engine.start config ledger clock = .ok start → Run start past e →
        e.InHand w → e.anyPeer (heads w.block.id.hash) = true → e.applyDue = true := by
  intro always
  obtain ⟨start, e, past, w, started, run, -, ⟨inHand, front⟩, rests⟩ := exists_asleep
  exact Bool.false_ne_true
    (rests.symm.trans (always _ _ _ start e past w started run inHand front))

end Engine

end BlockRelay
