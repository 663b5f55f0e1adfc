/-
# Replies that outrun the ledger

A summary names blocks that are stored and blocks that are still to be fetched, and a legal
reply starts at one of them.  So a reply continues the queue, or the chain.

The exception is a catch-up that begins anew while a summary is outstanding: the queue is given
up, and the summary still names its blocks.  A reply to it may start far above the head, and
this is the only way in which a gap opens (`gapless_iff_no_outrun`).
-/
import BlockRelay.Proofs.Gaps

namespace BlockRelay

namespace Engine

variable {e e' : Engine ChainLedger}

/-! ## What becomes of a summary -/

/-- What is known about the outstanding summary of a plan: it is not empty, and each of its blocks
is stored, or is still to be fetched, or has been lost, in which case nothing is to be
fetched. -/
def Accounts (lost : SummaryRequest → BlockId → Prop) (e : Engine ChainLedger)
    (plan : List BlockId × Option SummaryRequest) : Prop :=
  ∀ s, plan.2 = some s → s.ids ≠ [] ∧
    ∀ b ∈ s.ids, e.Stores b ∨ b.isIn plan.1 = true ∨ plan.1 = [] ∧ lost s b

/-- Nothing is to be known where no summary is outstanding. -/
theorem Accounts.of_none {lost : SummaryRequest → BlockId → Prop}
    {plan : List BlockId × Option SummaryRequest} (settled : plan.2 = none) :
    Accounts lost e plan := by
  intro s outstanding
  cases settled.symm.trans outstanding

/-- A change of a plan brings no block into the queue. -/
theorem Replan.isIn {plan plan' : List BlockId × Option SummaryRequest} (r : Replan e' plan plan')
    {b : BlockId} (queued : b.isIn plan'.1 = true) : b.isIn plan.1 = true := by
  cases r with
  | same | summarized | finished => exact queued
  | restarted => cases queued
  | @fetched front =>
    rw [BlockId.isIn, List.any_cons]
    exact Bool.or_eq_true_iff.2 (.inr queued)

/-- A change of a plan loses only blocks that were queued. -/
theorem Replan.accounts {plan plan' : List BlockId × Option SummaryRequest}
    {lost : SummaryRequest → BlockId → Prop} (r : Replan e' plan plan')
    (grows : e.ledger.Grows e'.ledger)
    (queued_lost : ∀ s b, b.isIn plan.1 = true → lost s b) (h : Accounts lost e plan) :
    Accounts lost e' plan' := by
  intro s outstanding
  have kept (b : BlockId) (stored : e.Stores b) : e'.Stores b := grows.stored _ stored
  cases r with
  | same =>
    obtain ⟨nonempty, all⟩ := h s outstanding
    exact ⟨nonempty, fun b mem => (all b mem).imp_left (kept b)⟩
  | restarted queue =>
    -- here the summary stays outstanding while the queue that it names is given up
    obtain ⟨nonempty, all⟩ := h s outstanding
    refine ⟨nonempty, fun b mem => ?_⟩
    rcases all b mem with stored | queued | ⟨-, lost⟩
    · exact .inl (kept b stored)
    · exact .inr (.inr ⟨rfl, queued_lost s b queued⟩)
    · exact .inr (.inr ⟨rfl, lost⟩)
  | summarized nonempty named =>
    cases outstanding
    refine ⟨nonempty, fun b mem => (named b mem).imp_right fun queued => ?_⟩
    exact .inl (BlockId.isIn_iff.2 ⟨b, queued, rfl⟩)
  | finished => cases outstanding
  | @fetched front queue _ stored =>
    obtain ⟨nonempty, all⟩ := h s outstanding
    refine ⟨nonempty, fun b mem => ?_⟩
    rcases all b mem with here | queued | ⟨nothing, -⟩
    · exact .inl (kept b here)
    · rw [BlockId.isIn, List.any_cons, Bool.or_eq_true, BlockId.same_iff] at queued
      rcases queued with same | queued
      · exact .inl (by rw [Stores, same]; exact stored)
      · exact .inr (.inl queued)
    · cases nothing

/-- Whether a block is still to be fetched from a registered peer. -/
def Queued (e : Engine ChainLedger) (id : PeerId) (b : BlockId) : Prop :=
  ∃ p, e.peers[id]? = some p ∧ b.isIn p.toFetch = true

/-- The blocks of the plan of a peer are queued. -/
theorem queued_of_planOf {id : PeerId} {plan : List BlockId × Option SummaryRequest}
    (hp : e.planOf id = some plan) {b : BlockId} (queued : b.isIn plan.1 = true) :
    e.Queued id b := by
  obtain ⟨p, known, rfl⟩ := Option.map_eq_some_iff.1 hp
  exact ⟨p, known, queued⟩

/-- **A course loses only what was queued.**  In a course in which no session with a peer begins
and no reply of it is joined, nothing comes into its queue, and its summary names no blocks but
those that are stored or queued, and those that were lost. -/
theorem Course.accounts {allowed : Deed → Prop} (c : Course allowed e e') (sound : e.Sound)
    (held : ∀ b, allowed (.queued (.block b)) → e.Stores b.id) {id : PeerId}
    (quiet : ∀ d, allowed d → d ≠ .opened id ∧ ∀ ids, d ≠ .joined id ids)
    {lost : SummaryRequest → BlockId → Prop} (queued_lost : ∀ s b, e.Queued id b → lost s b)
    (h : ∀ plan, e.planOf id = some plan → Accounts lost e plan)
    {plan' : List BlockId × Option SummaryRequest} (hp' : e'.planOf id = some plan') :
    (∀ b, b.isIn plan'.1 = true → e.Queued id b) ∧ Accounts lost e' plan' := by
  induction c generalizing plan' with
  | refl =>
    exact ⟨fun b => queued_of_planOf hp', h plan' hp'⟩
  | tail first last ih =>
    obtain ⟨d, allows, last⟩ := last
    obtain ⟨here, -⟩ := sound.course first held
    obtain ⟨plan, hp, change⟩ := last.replan here hp' (quiet d allows).1 (quiet d allows).2
    obtain ⟨queued, accounts⟩ := ih hp
    refine ⟨fun b mem => queued b (change.isIn mem), ?_⟩
    exact change.accounts (last.learns.ledger here.linear)
      (fun s b mem => queued_lost s b (queued b mem)) accounts

/-! ## Replies -/

/-- The identities of a reply with the answers whether they are stored. -/
theorem map_fst_answers {α : Type} (ids : List BlockId) (answer : BlockId → α) :
    (ids.map fun b => (b, answer b)).map (·.1) = ids := by
  simp [Function.comp_def]

/-- Skipping recent blocks matters for no gap. -/
theorem continues_continueCatchUp_iff {p : Peer} {ids : List (BlockId × Bool)} {elsewhere : Bool}
    (sound : e.Sound) (stretch : Consecutive (p.joinReply ids elsewhere).toFetch)
    (remaining : UInt64) :
    e.ledger.Continues (p.continueCatchUp ids remaining elsewhere e.recent).toFetch ↔
      e.ledger.Continues (p.joinReply ids elsewhere).toFetch :=
  ChainLedger.Continues.skipRecent_iff sound.linear _ stretch fun _ => sound.stores_of_contains

/-- A reply to a peer from which nothing is to be fetched opens a gap exactly if it starts beyond
one. -/
theorem continues_reply_iff {p : Peer} {ids : List BlockId} (sound : e.Sound)
    (nothing : p.toFetch = []) (reply : Consecutive ids) (remaining : UInt64) (elsewhere : Bool) :
    e.ledger.Continues (p.continueCatchUp (ids.map fun b => (b, Ledger.containsBlock e.ledger b))
        remaining elsewhere e.recent).toFetch ↔ e.ledger.Continues ids := by
  have list := map_fst_answers ids (Ledger.containsBlock e.ledger)
  have stretch := list.symm ▸ reply
  rw [continues_continueCatchUp_iff sound
    (p.consecutive_joinReply elsewhere (nothing ▸ .nil) stretch),
    p.toFetch_joinReply_of_nil nothing]
  cases elsewhere with
  | true => rw [if_pos rfl, list]
  | false =>
    rw [if_neg Bool.false_ne_true,
      ChainLedger.Continues.skipStored_iff sound.linear p.bothHave stretch, list]
    intro b mem
    obtain ⟨id, -, rfl⟩ := List.mem_map.1 mem
    rfl

/-- A reply that starts at a block that is stored or queued opens no gap in a queue. -/
theorem continues_reply {p : Peer} {ids : List BlockId} (sound : e.Sound)
    (queue : Consecutive p.toFetch) (queued : p.toFetch ≠ [])
    (h : e.ledger.Continues p.toFetch) (reply : Consecutive ids)
    (known : ∀ first ∈ ids.head?, e.Stores first ∨ first.isIn p.toFetch = true)
    (remaining : UInt64) (elsewhere : Bool) :
    e.ledger.Continues (p.continueCatchUp (ids.map fun b => (b, Ledger.containsBlock e.ledger b))
        remaining elsewhere e.recent).toFetch := by
  have list := map_fst_answers ids (Ledger.containsBlock e.ledger)
  rw [continues_continueCatchUp_iff sound
    (p.consecutive_joinReply elsewhere queue (list.symm ▸ reply))]
  cases ids with
  | nil =>
    unfold Peer.joinReply
    split
    · contradiction
    · exact h
    · contradiction
  | cons first rest =>
    rw [List.map_cons, p.toFetch_joinReply_cons queued, map_fst_answers]
    by_cases kept : (p.cutBehind first (Ledger.containsBlock e.ledger first)).toFetch = []
    · -- the reply begins nowhere in the queue, hence at a stored block
      rw [kept, List.nil_append]
      have stored : e.Stores first :=
        (known first rfl).resolve_right fun queued =>
          Peer.isIn_of_cutBehind_ne_nil queued kept
      exact .of_stored sound.linear reply stored
    · -- the front of the queue stays where it was
      obtain ⟨b, more, eq⟩ := List.exists_cons_of_ne_nil kept
      obtain ⟨dropped, whole⟩ :=
        p.toFetch_cutBehind_prefix first (Ledger.containsBlock e.ledger first)
      intro front mem
      rw [eq] at mem whole
      cases mem
      exact h b (whole ▸ rfl)

/-- The end of a catch-up replaces one record, and leaves the head alone. -/
theorem planOf_finishCatchUp {id : PeerId} {p : Peer} (done : e.finishCatchUp id p = .ok e') :
    e'.ledger.head = e.ledger.head ∧
      ∀ other, e'.planOf other = if other = id then some p.plan else e.planOf other := by
  obtain ⟨_, rfl | ⟨_, rfl⟩⟩ := finishCatchUp_cases done <;>
    exact ⟨rfl, view_of_insert (q := p.endCatchUp) rfl⟩

/-- Going on with a catch-up replaces one record, and leaves the head alone. -/
theorem planOf_takeUp {id : PeerId} {p : Peer} {enough : Bool}
    (done : e.takeUp id p enough = .ok e') :
    e'.ledger.head = e.ledger.head ∧
      ∀ other, e'.planOf other = if other = id then some p.plan else e.planOf other := by
  obtain ⟨_, _, rfl | ⟨_, rfl⟩⟩ := takeUp_cases done <;> exact ⟨rfl, view_of_insert rfl⟩

/-- The next summary leaves the ledger alone, and the queues. -/
theorem planOf_nextSummary (e : Engine ChainLedger) (id : PeerId) :
    (e.nextSummary id).ledger = e.ledger ∧
      (∀ other, other ≠ id → (e.nextSummary id).planOf other = e.planOf other) ∧
      ∀ plan', (e.nextSummary id).planOf id = some plan' →
        ∃ plan, e.planOf id = some plan ∧ plan'.1 = plan.1 := by
  have cases := nextSummary_cases e id
  generalize e.nextSummary id = e' at cases ⊢
  rcases cases with rfl | s | s
  · exact ⟨rfl, fun _ _ => rfl, fun plan' planned => ⟨plan', planned, rfl⟩⟩
  · cases s with
    | @sendSummary _ _ p ids hp =>
      have updated (other : PeerId) : (e.sendSummary id ids).planOf other =
          if other = id then some (p.await ids e.now).plan else e.planOf other :=
        view_of_modify (f := Peer.plan) (g := fun p => p.await ids e.now) hp rfl other
      refine ⟨rfl, fun other ne => (updated other).trans (if_neg ne), fun plan' planned => ?_⟩
      rw [updated, if_pos rfl] at planned
      cases planned
      exact ⟨p.plan, planOf_eq hp, rfl⟩
  · cases s with
    | remove r hp =>
      refine ⟨ledger_remove .., fun other ne => ?_, fun plan' planned => ?_⟩
      · rw [planOf_remove, if_neg ne]
      · rw [planOf_remove, if_pos rfl] at planned
        cases planned

/-- **What a reply does to the queues.**  It leaves the head of the ledger and the plans of other
peers alone.  If it does not end the session it is legal, and it is joined to the queue of the
peer unless it brings nothing new. -/
structure Replied (e e' : Engine ChainLedger) (id : PeerId) (p : Peer) (ids : List BlockId) :
    Prop where
  head : e'.ledger.head = e.ledger.head
  others : ∀ other, other ≠ id → e'.planOf other = e.planOf other
  accepted : ∀ plan', e'.planOf id = some plan' → ∃ s, p.summary = some s ∧ Consecutive ids ∧
    (∀ first ∈ ids.head?, startFault s.ids first = none) ∧
    (p.nothingNew (ids.map fun b => (b, Ledger.containsBlock e.ledger b)) = true ∧
        plan'.1 = p.toFetch ∨
      ∃ remaining elsewhere, plan'.1 = ({ p with summary := none }.continueCatchUp
        (ids.map fun b => (b, Ledger.containsBlock e.ledger b)) remaining elsewhere
        e.recent).toFetch)

/-- A received reply is a reply. -/
theorem replied {id : PeerId} {p : Peer} {ids : List BlockId} {remaining : UInt64}
    (hp : e.peers[id]? = some p) (done : e.receiveReply id ids remaining = .ok e') :
    Replied e e' id p ids := by
  rcases receiveReply_cases hp done with rfl | ⟨s, hs, legal, ⟨-, nothing, done⟩ | joined⟩
  · refine ⟨?_, fun other ne => ?_, fun plan' planned => ?_⟩
    · rw [disconnect, ledger_remove]
    · rw [disconnect, planOf_remove, if_neg ne]
    · rw [disconnect, planOf_remove, if_pos rfl] at planned
      cases planned
  · obtain ⟨stretch, start⟩ := ChainFacts.of_judge legal
    obtain ⟨head, plans⟩ := planOf_finishCatchUp done
    refine ⟨head, fun other ne => (plans other).trans (if_neg ne), fun plan' planned => ?_⟩
    rw [plans, if_pos rfl] at planned
    cases planned
    exact ⟨s, hs, stretch, start, .inl ⟨nothing, rfl⟩⟩
  · obtain ⟨stretch, start⟩ := ChainFacts.of_judge legal
    obtain ⟨elsewhere, enough, e₁, taken, followed⟩ := joined
    obtain ⟨head, plans⟩ := planOf_takeUp taken
    have before (plan' : List BlockId × Option SummaryRequest)
        (planned : e₁.planOf id = some plan') :
        plan'.1 = ({ p with summary := none }.continueCatchUp
          (ids.map fun b => (b, Ledger.containsBlock e.ledger b)) remaining elsewhere
          e.recent).toFetch := by
      rw [plans, if_pos rfl] at planned
      cases planned
      rfl
    have others (other : PeerId) (ne : other ≠ id) : e₁.planOf other = e.planOf other :=
      (plans other).trans (if_neg ne)
    rcases followed with rfl | rfl
    · exact ⟨head, others, fun plan' planned =>
        ⟨s, hs, stretch, start, .inr ⟨_, _, before plan' planned⟩⟩⟩
    · obtain ⟨ledger, kept, queue⟩ := planOf_nextSummary e₁ id
      refine ⟨by rw [ledger, head], fun other ne => (kept other ne).trans (others other ne), ?_⟩
      intro plan' planned
      obtain ⟨plan, planned, same⟩ := queue plan' planned
      exact ⟨s, hs, stretch, start, .inr ⟨_, _, same.trans (before plan planned)⟩⟩

end Engine

namespace Moment

/-- Whether a reply is accepted from a peer from which nothing is to be fetched, although it
starts above the block that comes next. -/
def Outruns (m : Moment ChainLedger) (id : PeerId) : Prop :=
  ∃ p p' first rest remaining,
    m.operation = some (.receive id (.summaryReply (first :: rest) remaining)) ∧
      m.before.peers[id]? = some p ∧ p.toFetch = [] ∧ m.after.peers[id]? = some p' ∧
      m.before.ledger.head.number.toNat + 1 < first.number.toNat

/-- Whether a block to be fetched from a peer is given up in a moment, although a summary that
is outstanding after the moment may name it. -/
def Abandons (m : Moment ChainLedger) (id : PeerId) (s : SummaryRequest) (b : BlockId) : Prop :=
  m.before.Queued id b ∧ m.after.planOf id = some ([], some s) ∧ ¬ m.after.Stores b

end Moment

namespace Engine

variable {e e' : Engine ChainLedger}

/-- A legal reply starts at a block that is stored or still to be fetched, or at one that has been
lost. -/
theorem Accounts.start {lost : SummaryRequest → BlockId → Prop}
    {plan : List BlockId × Option SummaryRequest} (h : Accounts lost e plan) {s : SummaryRequest}
    (outstanding : plan.2 = some s) {first : BlockId} (starts : startFault s.ids first = none) :
    e.Stores first ∨ first.isIn plan.1 = true ∨
      plan.1 = [] ∧ ∃ b ∈ s.ids, lost s b := by
  obtain ⟨nonempty, all⟩ := h s outstanding
  obtain ⟨b, mem, same⟩ := BlockId.isIn_iff.1 (isIn_of_startFault nonempty starts)
  rcases all b mem with stored | queued | ⟨nothing, lost⟩
  · exact .inl (by rw [Stores, same]; exact stored)
  · obtain ⟨c, queued, eq⟩ := BlockId.isIn_iff.1 queued
    exact .inr (.inl (BlockId.isIn_iff.2 ⟨c, queued, same.trans eq⟩))
  · exact .inr (.inr ⟨nothing, b, mem, lost⟩)

/-- A reply that brings nothing new starts at a stored block. -/
theorem stores_of_nothingNew {p : Peer} {first : BlockId} {rest : List BlockId}
    (known : p.nothingNew
      ((first :: rest).map fun b => (b, Ledger.containsBlock e.ledger b)) = true) :
    e.Stores first := by
  cases rest with
  | nil =>
    simp only [Peer.nothingNew, List.map_cons, List.map_nil, Bool.and_eq_true] at known
    exact known.1.1
  | cons => simp [Peer.nothingNew] at known

/-- A reply that outruns the ledger opens a gap. -/
theorem not_gapless_of_outruns {op : Operation} {answer : Outcome} (sound : e.Sound)
    (done : e.perform op = .ok (answer, e')) {id : PeerId}
    (outruns : (Moment.mk e (some op) e').Outruns id) : ¬ e'.Gapless := by
  obtain ⟨p, p', first, rest, remaining, eq, hp, nothing, hp', far⟩ := outruns
  cases eq
  have received := receive_of_perform done
  rw [receive, if_pos (isRegistered_iff.2 ⟨p, hp⟩)] at received
  have reply := replied hp received
  obtain ⟨s, -, stretch, -, ⟨known, -⟩ | ⟨_, _, queue⟩⟩ :=
    reply.accepted p'.plan (planOf_eq hp')
  · -- a reply that brings nothing new starts at a stored block, which is not above the head
    have height := sound.linear.height_le (stretch.faithful first (List.mem_cons_self ..))
      (stores_of_nothingNew known)
    exact absurd far (Nat.not_lt.2 (Nat.le_succ_of_le height))
  · intro gapless
    have continued := (ChainLedger.Continues.congr reply.head).1 (gapless id p' hp')
    change e.ledger.Continues p'.plan.1 at continued
    rw [queue, continues_reply_iff (p := { p with summary := none }) sound nothing stretch]
      at continued
    exact absurd far (Nat.not_lt.2 (continued first rfl))

/-- A reply that does not outrun the ledger opens no gap. -/
theorem gapless_reply {id : PeerId} {ids : List BlockId} {remaining : UInt64} {answer : Outcome}
    (sound : e.Sound) (h : e.Gapless)
    (accounts : ∀ plan, e.planOf id = some plan → ∃ lost, Accounts lost e plan)
    (done : e.perform (.receive id (.summaryReply ids remaining)) = .ok (answer, e'))
    (close : ¬ (Moment.mk e (some (.receive id (.summaryReply ids remaining))) e').Outruns id) :
    e'.Gapless := by
  have received := receive_of_perform done
  unfold receive at received
  split at received
  next known =>
    obtain ⟨p, hp⟩ := isRegistered_iff.1 known
    have reply := replied hp received
    have queue := sound.queues id p.plan (planOf_eq hp)
    have before := h id p hp
    intro other p' hp'
    have planned : e'.planOf other = some p'.plan := planOf_eq hp'
    rw [ChainLedger.Continues.congr reply.head]
    by_cases same : other = id
    · subst same
      obtain ⟨s, hs, stretch, start, ⟨-, unchanged⟩ | ⟨_, _, joined⟩⟩ := reply.accepted _ planned
      · show e.ledger.Continues p'.plan.1
        exact unchanged ▸ before
      · show e.ledger.Continues p'.plan.1
        rw [joined]
        by_cases nothing : p.toFetch = []
        · rw [continues_reply_iff (p := { p with summary := none }) sound nothing stretch]
          intro first mem
          obtain ⟨rest, rfl⟩ := List.head?_eq_some_iff.1 mem
          by_contra far
          exact close ⟨p, p', first, rest, remaining, rfl, hp, nothing, hp', Nat.not_le.1 far⟩
        · obtain ⟨lost, accounts⟩ := accounts p.plan (planOf_eq hp)
          refine continues_reply (p := { p with summary := none }) sound queue nothing before
            stretch (fun first mem => ?_) _ _
          rcases accounts.start hs (start first mem) with stored | queued | ⟨empty, -⟩
          · exact .inl stored
          · exact .inr queued
          · exact absurd empty nothing
    · rw [reply.others other same] at planned
      exact gapless_iff_planOf.1 h other _ planned
  next =>
    cases received
    exact h

/-! ## Runs -/

/-- What is lost may be anything that is lost in one way or another. -/
theorem Accounts.mono {lost lost' : SummaryRequest → BlockId → Prop}
    {plan : List BlockId × Option SummaryRequest} (h : Accounts lost e plan)
    (weaker : ∀ s b, plan.2 = some s → plan.1 = [] → lost s b → e.Stores b ∨ lost' s b) :
    Accounts lost' e plan := by
  intro s outstanding
  obtain ⟨nonempty, all⟩ := h s outstanding
  refine ⟨nonempty, fun b mem => ?_⟩
  rcases all b mem with stored | queued | ⟨nothing, lost⟩
  · exact .inl stored
  · exact .inr (.inl queued)
  · exact (weaker s b outstanding nothing lost).imp_right fun lost => .inr ⟨nothing, lost⟩

/-- A new session has no summary but one that names stored and queued blocks. -/
theorem accounts_register {id : PeerId} {height : UInt64} (sound : e.Sound)
    {plan : List BlockId × Option SummaryRequest}
    (hp : (e.register id height).planOf id = some plan) :
    Accounts (fun _ _ => False) (e.register id height) plan := by
  have unknown : (e.remove id none).peers[id]? = none := by simp [peers_remove]
  have removed : (e.remove id none).Sound :=
    (sound.course (course_remove e id none) fun b routine =>
      (Deed.isRoutine_iff.1 routine).elim).1
  have opened : ((e.remove id none).openSession id).Sound :=
    removed.step (.openSession unknown) (by simp)
  have fresh : ((e.remove id none).openSession id).peers[id]? =
      some (Peer.connected (e.remove id none).genesis (e.remove id none).now) := by
    rw [peers_openSession, if_pos rfl]
  have quiet (d : Deed) (routine : d.IsRoutine) :
      d ≠ .opened id ∧ ∀ ids, d ≠ .joined id ids := by
    constructor
    · rintro rfl
      exact Deed.isRoutine_iff.1 routine
    · rintro ids rfl
      exact Deed.isRoutine_iff.1 routine
  refine ((course_welcome e id height).accounts opened
    (fun b routine => (Deed.isRoutine_iff.1 routine).elim) quiet ?_ ?_ hp).2
  · rintro s b ⟨p, hp, queued⟩
    cases fresh.symm.trans hp
    cases queued
  · intro plan planned
    rw [planOf, view, fresh] at planned
    cases planned
    exact .of_none rfl

/-- A change of a plan without a summary leads to no summary but one that names stored and queued
blocks. -/
theorem Replan.accounts_of_settled {lost : SummaryRequest → BlockId → Prop}
    {plan plan' : List BlockId × Option SummaryRequest} (r : Replan e' plan plan')
    (settled : plan.2 = none) : Accounts lost e' plan' := by
  intro s outstanding
  cases r with
  | same | restarted | fetched => cases settled.symm.trans outstanding
  | finished => cases outstanding
  | summarized nonempty named =>
    cases outstanding
    refine ⟨nonempty, fun b mem => (named b mem).imp_right fun queued => ?_⟩
    exact .inl (BlockId.isIn_iff.2 ⟨b, queued, rfl⟩)

/-- After a reply no summary is outstanding but one that names stored and queued blocks. -/
theorem accounts_reply {lost : SummaryRequest → BlockId → Prop} {id : PeerId} {ids : List BlockId}
    {remaining : UInt64} {p : Peer} (sound : e.Sound) (hp : e.peers[id]? = some p)
    (done : e.receiveReply id ids remaining = .ok e')
    {plan' : List BlockId × Option SummaryRequest} (hp' : e'.planOf id = some plan') :
    Accounts lost e' plan' := by
  rcases receiveReply_cases hp done with rfl | ⟨s, hs, legal, ⟨-, nothing, done⟩ | joined⟩
  · rw [disconnect, planOf_remove, if_pos rfl] at hp'
    cases hp'
  · have ended := (planOf_finishCatchUp done).2 id
    rw [if_pos rfl] at ended
    cases ended.symm.trans hp'
    exact .of_none rfl
  · obtain ⟨elsewhere, enough, e₁, taken, followed⟩ := joined
    have sound₁ : e₁.Sound := sound.step (.takeUp hp hs legal taken) (by simp)
    obtain ⟨plan, planned, settled⟩ : ∃ plan, e₁.planOf id = some plan ∧ plan.2 = none := by
      refine ⟨_, ((planOf_takeUp taken).2 id).trans (if_pos rfl), ?_⟩
      exact Peer.summary_continueCatchUp _ _ remaining elsewhere e.recent
    -- the next summary is one step, or nothing changes
    have next {d : Deed} (step : Step d e₁ e') (old : d ≠ .opened id)
        (quiet : ∀ ids, d ≠ .joined id ids) : Accounts lost e' plan' := by
      obtain ⟨_, again, change⟩ := step.replan sound₁ hp' old quiet
      cases planned.symm.trans again
      exact change.accounts_of_settled settled
    have same (eq : e' = e₁) : Accounts lost e' plan' := by
      rw [eq] at hp'
      cases planned.symm.trans hp'
      exact .of_none settled
    rcases followed with eq | rfl
    · exact same eq
    · rcases nextSummary_cases e₁ id with eq | step | step
      · exact same eq
      · exact next step (by simp) (by simp)
      · exact next step (by simp) (by simp)

/-- A moment that neither begins a session with a peer nor handles a reply of it loses only the
blocks that it abandons. -/
theorem accounts_moment {op : Operation} {answer : Outcome} (sound : e.Sound)
    (done : e.perform op = .ok (answer, e')) (loc : (Moment.mk e (some op) e').Local)
    {id : PeerId} (old : ∀ height, op ≠ .register id height)
    (other : ∀ ids remaining, op ≠ .receive id (.summaryReply ids remaining))
    {lost : SummaryRequest → BlockId → Prop}
    (h : ∀ plan, e.planOf id = some plan → Accounts lost e plan)
    {plan' : List BlockId × Option SummaryRequest} (hp' : e'.planOf id = some plan') :
    Accounts (fun s b => lost s b ∨ (Moment.mk e (some op) e').Abandons id s b) e' plan' := by
  have quiet (d : Deed) (allows : op.Allows d) :
      d ≠ .opened id ∧ ∀ ids, d ≠ .joined id ids := by
    constructor
    · rintro rfl
      obtain ⟨height, eq⟩ := allows
      exact old height eq
    · rintro ids rfl
      obtain ⟨remaining, eq⟩ := allows
      exact other ids remaining eq
  have before (plan : List BlockId × Option SummaryRequest) (planned : e.planOf id = some plan) :
      Accounts (fun s b => lost s b ∨ e.Queued id b) e plan :=
    (h plan planned).mono fun s b _ _ gone => .inr (.inl gone)
  obtain ⟨-, after⟩ :=
    (course_perform done).accounts sound (held_of_local loc) quiet (fun s b => .inr) before hp'
  refine after.mono fun s b outstanding nothing gone => ?_
  rcases gone with gone | queued
  · exact .inr (.inl gone)
  · by_cases stored : e'.Stores b
    · exact .inl stored
    · refine .inr (.inr ⟨queued, hp'.trans (congrArg some ?_), stored⟩)
      exact Prod.ext nothing outstanding

/-- **What becomes of a summary.**  In a local run the blocks of an outstanding summary are stored,
or still to be fetched, unless they were abandoned since the peer was registered. -/
theorem Run.accounts {config : Config} {ledger : ChainLedger} {clock : Clock}
    {start : Engine ChainLedger} {past : List (Moment ChainLedger)} (run : Run start past e)
    (started : Engine.start config ledger clock = .ok start) (linear : ledger.Linear)
    (loc : ∀ m ∈ past, m.Local) {id : PeerId} {plan : List BlockId × Option SummaryRequest}
    (hp : e.planOf id = some plan) :
    Accounts (fun s b => ∃ d ∈ session id past, d.Abandons id s b) e plan := by
  induction run generalizing plan with
  | start =>
    simp [planOf, view, peers_of_start started id] at hp
  | @meddle past e ledger before ih =>
    obtain ⟨here, earlier⟩ := List.forall_mem_cons.1 loc
    have grows := (before.sound started linear earlier).linear.grows_calls here
    rw [session_meddle]
    intro s outstanding
    obtain ⟨nonempty, all⟩ := ih earlier hp s outstanding
    refine ⟨nonempty, fun b mem => ?_⟩
    rcases all b mem with stored | queued | ⟨nothing, d, since, abandons⟩
    · exact .inl (grows.stored _ stored)
    · exact .inr (.inl queued)
    · exact .inr (.inr ⟨nothing, d, List.mem_cons_of_mem _ since, abandons⟩)
  | @perform past e e' op answer before done ih =>
    obtain ⟨here, earlier⟩ := List.forall_mem_cons.1 loc
    have sound := before.sound started linear earlier
    rw [session_cons]
    split
    next opening =>
      obtain ⟨height, eq⟩ := Moment.opens_iff.1 opening
      cases eq
      cases done
      exact (accounts_register sound hp).mono fun _ _ _ _ gone => gone.elim
    next opening =>
      have old := Moment.ne_register_of_not_opens opening
      by_cases reply : ∃ ids remaining, op = .receive id (.summaryReply ids remaining)
      · obtain ⟨ids, remaining, rfl⟩ := reply
        have received := receive_of_perform done
        obtain ⟨p', hp', -⟩ := Option.map_eq_some_iff.1 hp
        have known := isRegistered_of_receive received (isRegistered_iff.2 ⟨p', hp'⟩)
        obtain ⟨p, registered⟩ := isRegistered_iff.1 known
        rw [receive, if_pos known] at received
        exact accounts_reply sound registered received hp
      · refine (accounts_moment sound done here old
          (fun ids remaining eq => reply ⟨ids, remaining, eq⟩) (fun plan => ih earlier) hp).mono ?_
        rintro s b - - (⟨d, since, abandons⟩ | abandons)
        · exact .inr ⟨d, List.mem_cons_of_mem _ since, abandons⟩
        · exact .inr ⟨_, List.mem_cons_self .., abandons⟩

/-- A gap opens in a moment exactly if a reply outruns the ledger in it. -/
theorem gapless_perform_iff {config : Config} {ledger : ChainLedger} {clock : Clock}
    {start : Engine ChainLedger} {past : List (Moment ChainLedger)} {op : Operation}
    {answer : Outcome} (started : Engine.start config ledger clock = .ok start)
    (linear : ledger.Linear) (run : Run start past e) (loc : ∀ m ∈ past, m.Local)
    (done : e.perform op = .ok (answer, e')) (here : (Moment.mk e (some op) e').Local)
    (h : e.Gapless) : e'.Gapless ↔ ∀ id, ¬ (Moment.mk e (some op) e').Outruns id := by
  have sound := run.sound started linear loc
  constructor
  · intro gapless id outruns
    exact not_gapless_of_outruns sound done outruns gapless
  · intro close
    by_cases reply : ∃ id ids remaining, op = .receive id (.summaryReply ids remaining)
    · obtain ⟨id, ids, remaining, rfl⟩ := reply
      exact gapless_reply sound h (fun plan hp => ⟨_, run.accounts started linear loc hp⟩) done
        (close id)
    · refine h.course (course_perform done) sound (held_of_local here) ?_
      rintro id ids ⟨remaining, eq⟩
      exact reply ⟨id, ids, remaining, eq⟩

/-- No gap is open at the end of a run if none was open after any moment of it. -/
theorem Run.gapless {config : Config} {ledger : ChainLedger} {clock : Clock}
    {start : Engine ChainLedger} {past : List (Moment ChainLedger)} (run : Run start past e)
    (started : Engine.start config ledger clock = .ok start)
    (all : ∀ m ∈ past, m.after.Gapless) : e.Gapless := by
  cases run with
  | start =>
    intro id p hp
    cases (peers_of_start started id).symm.trans hp
  | perform => exact all _ (List.mem_cons_self ..)
  | meddle => exact all _ (List.mem_cons_self ..)

/-- **No gap without a reply that outruns the ledger.** -/
theorem Run.gapless_iff {config : Config} {ledger : ChainLedger} {clock : Clock}
    {start : Engine ChainLedger} {past : List (Moment ChainLedger)} (run : Run start past e)
    (started : Engine.start config ledger clock = .ok start) (linear : ledger.Linear)
    (loc : ∀ m ∈ past, m.Local) :
    (∀ m ∈ past, m.after.Gapless) ↔ ∀ m ∈ past, ∀ id, ¬ m.Outruns id := by
  induction run with
  | start => exact iff_of_true (List.forall_mem_nil _) (List.forall_mem_nil _)
  | @meddle past e ledger before ih =>
    obtain ⟨here, earlier⟩ := List.forall_mem_cons.1 loc
    rw [List.forall_mem_cons, List.forall_mem_cons, ih earlier]
    refine and_congr_left fun close => iff_of_true ?_ ?_
    · have gapless := before.gapless started ((ih earlier).2 close)
      have grows := (before.sound started linear earlier).linear.grows_calls here
      exact fun id p hp => (gapless id p hp).mono grows
    · rintro id ⟨_, _, _, _, _, eq, -⟩
      cases eq
  | @perform past e e' op answer before done ih =>
    obtain ⟨here, earlier⟩ := List.forall_mem_cons.1 loc
    rw [List.forall_mem_cons, List.forall_mem_cons, ih earlier]
    refine and_congr_left fun close => ?_
    exact gapless_perform_iff started linear before earlier done here
      (before.gapless started ((ih earlier).2 close))

/-- A reply that outruns the ledger answers a summary that names an abandoned block. -/
theorem Run.abandoned_of_outruns {config : Config} {ledger : ChainLedger} {clock : Clock}
    {start : Engine ChainLedger} {m : Moment ChainLedger} {past : List (Moment ChainLedger)}
    (run : Run start (m :: past) e) (started : Engine.start config ledger clock = .ok start)
    (linear : ledger.Linear) (loc : ∀ m ∈ past, m.Local) {id : PeerId} (outruns : m.Outruns id) :
    ∃ s, m.before.planOf id = some ([], some s) ∧
      ∃ b ∈ s.ids, ∃ d ∈ session id past, d.Abandons id s b := by
  obtain ⟨p, p', first, rest, remaining, eq, hp, nothing, hp', far⟩ := outruns
  cases run with
  | meddle => cases eq
  | @perform _ e₀ _ op answer before done =>
    cases eq
    have sound := before.sound started linear loc
    have received := receive_of_perform done
    rw [receive, if_pos (isRegistered_iff.2 ⟨p, hp⟩)] at received
    obtain ⟨s, hs, stretch, start, -⟩ :=
      (replied hp received).accepted p'.plan (planOf_eq hp')
    have planned : e₀.planOf id = some ([], some s) := by
      rw [planOf_eq hp, Peer.plan, nothing, hs]
    refine ⟨s, planned, ?_⟩
    rcases (before.accounts started linear loc planned).start rfl (start first rfl) with
      stored | queued | ⟨-, abandoned⟩
    · have height := sound.linear.height_le (stretch.faithful first (List.mem_cons_self ..)) stored
      exact absurd far (Nat.not_lt.2 (Nat.le_succ_of_le height))
    · cases queued
    · exact abandoned

/-- **When gaps open.**  In a local run over a ledger in memory no gap is ever open exactly if no
reply outruns the ledger.  Such a reply answers a summary that was outstanding while the queue
of the peer was given up, and that names a block of this queue. -/
theorem gapless_iff_no_outrun {config : Config} {clock : Clock} {genesis : Block}
    {solidifyDepth batch : Nat} {ledger : ChainLedger} {start : Engine ChainLedger}
    {past : List (Moment ChainLedger)} (zero : genesis.number = 0)
    (calls : (ChainLedger.ofGenesis genesis solidifyDepth batch).Calls ledger)
    (started : Engine.start config ledger clock = .ok start) (run : Run start past e)
    (loc : ∀ m ∈ past, m.Local) :
    ((∀ m ∈ past, m.after.Gapless) ↔ ∀ m ∈ past, ∀ id, ¬ m.Outruns id) ∧
      ∀ m older id, m :: older <:+ past → m.Outruns id →
        ∃ s, m.before.planOf id = some ([], some s) ∧
          ∃ b ∈ s.ids, ∃ d ∈ session id older, d.Abandons id s b := by
  have linear := ((ChainLedger.Linear.ofGenesis zero solidifyDepth batch).grows_calls calls).linear
  refine ⟨run.gapless_iff started linear loc, fun m older id part outruns => ?_⟩
  obtain ⟨e₁, newest⟩ := run.suffix part
  have earlier : ∀ d ∈ older, d.Local := fun d mem =>
    loc d (part.subset (List.mem_cons_of_mem _ mem))
  exact newest.abandoned_of_outruns started linear earlier outruns

/-- A catch-up begins anew while a summary is outstanding that names blocks of the queue, and the
reply to this summary goes on where the queue ended. -/
def restartedCatchUp : List Operation :=
  [.register ⟨1⟩ 4,
    .receive ⟨1⟩ (.summaryReply [(Block.bare 0).id, (Block.bare 1).id, (Block.bare 2).id] 2),
    .startCatchUp ⟨1⟩,
    .receive ⟨1⟩ (.summaryReply [(Block.bare 2).id, (Block.bare 3).id, (Block.bare 4).id] 0)]

/-- Whether a moment carries out an operation that is always local. -/
def isOrdinary (m : Moment ChainLedger) : Bool :=
  match m.operation with
  | none | some (.broadcast _) => false
  | some _ => true

/-- Without calls by other hands and broadcasts a moment is local. -/
theorem local_of_isOrdinary {m : Moment ChainLedger} (h : isOrdinary m = true) : m.Local := by
  unfold Moment.Local
  split
  next eq => simp [isOrdinary, eq] at h
  next eq => simp [isOrdinary, eq] at h
  next => trivial

/-- The reply after a catch-up began anew outruns the ledger, because the queue was given up. -/
theorem outruns_after_restart :
    ∃ (start e : Engine ChainLedger) (past : List (Moment ChainLedger)),
      Engine.start {} (.ofGenesis (.genesis 0) 0 10) {} = .ok start ∧ Run start past e ∧
        (∀ m ∈ past, m.Local) ∧ (∃ m ∈ past, ∃ id, m.Outruns id) ∧
          ∃ d ∈ past, ∃ id s b, d.Abandons id s b := by
  obtain ⟨start, past, e, started, run, checked⟩ := exists_run {}
    (ChainLedger.ofGenesis (.genesis 0) 0 10) {} restartedCatchUp
    (fun (past, _) => past.all isOrdinary && past.any fun m =>
      (m.after.peers[PeerId.mk 1]?).any fun p => p.toFetch.head?.any fun front =>
        m.after.ledger.head.number.toNat + 1 < front.number.toNat) (by decide +kernel)
  simp only [Bool.and_eq_true, List.all_eq_true, List.any_eq_true, Option.any_eq_true,
    decide_eq_true_eq] at checked
  obtain ⟨ordinary, m, mem, p, hp, front, head, far⟩ := checked
  have loc (m : Moment ChainLedger) (mem : m ∈ past) : m.Local :=
    local_of_isOrdinary (ordinary m mem)
  obtain ⟨opened, abandoned⟩ := gapless_iff_no_outrun rfl .refl started run loc
  have gap : ∃ m ∈ past, ∃ id, m.Outruns id := by
    by_contra none
    have gapless := opened.2 fun m mem id outruns => none ⟨m, mem, id, outruns⟩
    exact absurd far (Nat.not_lt.2 (gapless m mem ⟨1⟩ p hp front head))
  refine ⟨start, e, past, started, run, loc, gap, ?_⟩
  obtain ⟨m, mem, id, outruns⟩ := gap
  obtain ⟨newer, older, rfl⟩ := List.append_of_mem mem
  obtain ⟨s, -, b, -, d, since, abandons⟩ :=
    abandoned m older id (List.suffix_append newer _) outruns
  have earlier := (List.takeWhile_sublist _).subset since
  exact ⟨d, List.mem_append_right _ (List.mem_cons_of_mem _ earlier), id, s, b, abandons⟩

/-- A gap is open after a catch-up began anew. -/
theorem gap_after_restart :
    ¬ ∀ (start e : Engine ChainLedger) (past : List (Moment ChainLedger)),
      Engine.start {} (.ofGenesis (.genesis 0) 0 10) {} = .ok start → Run start past e →
        (∀ m ∈ past, m.Local) → e.Gapless := by
  intro never
  obtain ⟨start, past, e, started, run, checked⟩ := exists_run {}
    (ChainLedger.ofGenesis (.genesis 0) 0 10) {} restartedCatchUp
    (fun (past, e) => past.all isOrdinary && (e.peers[PeerId.mk 1]?).any fun p =>
      p.toFetch.head?.any fun front =>
        e.ledger.head.number.toNat + 1 < front.number.toNat) (by decide +kernel)
  simp only [Bool.and_eq_true, List.all_eq_true, Option.any_eq_true, decide_eq_true_eq] at checked
  obtain ⟨ordinary, p, hp, front, head, far⟩ := checked
  have gapless := never start e past started run fun m mem => local_of_isOrdinary (ordinary m mem)
  exact absurd far (Nat.not_lt.2 (gapless ⟨1⟩ p hp front head))

end Engine

end BlockRelay
