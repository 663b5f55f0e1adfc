/-
# What an engine knows of its ledger

Over a ledger in memory no step loses a block, and what is recent is stored, unless a block
that the ledger lacks is queued for announcement (`Step.learns`).  Together with the facts
about queues and about waiting blocks this makes up `Engine.Sound`, which holds in every run
whose moments are local (`Run.sound`).
-/
import BlockRelay.Proofs.Arrivals
import BlockRelay.Proofs.LinearLedger
import BlockRelay.Proofs.Queues
import BlockRelay.Proofs.Supplies

namespace BlockRelay

namespace Engine

variable {e e' : Engine ChainLedger}

/-- Whether the ledger of an engine stores a block. -/
def Stores (e : Engine ChainLedger) (id : BlockId) : Prop :=
  e.ledger.blocks.contains id.hash = true

/-- Whether an identity names a stored block, and repeats its height. -/
def Knows (e : Engine ChainLedger) (id : BlockId) : Prop := id.Faithful ∧ e.Stores id

/-! ## One step -/

/-- Telling a ledger of progress or of a transaction is a call. -/
theorem Told.calls {l l' : ChainLedger} (told : Told l l') : l.Calls l' := by
  cases told with
  | nothing => exact .refl
  | progress n => exact .single (.noteProgress n)
  | transaction t => exact .single (.applyTransaction t)

/-- What a step means for the ledger, and for the blocks that are recent or cached. -/
structure Learns (d : Deed) (e e' : Engine ChainLedger) : Prop where
  calls : e.ledger.Calls e'.ledger
  genesis : e'.genesis = e.genesis
  recent : ∀ id ∈ e'.recent.ids, id ∈ e.recent.ids ∨ e'.Knows id ∨
    ∃ b, d = .queued (.block b) ∧ b.id = id
  cached : ∀ entry ∈ e'.blockCache.entries, entry ∈ e.blockCache.entries ∨
    e'.Stores entry.value.id ∨ d = .queued (.block entry.value)

namespace Learns

variable {d : Deed}

/-- A linear ledger grows in a step. -/
theorem ledger (h : Learns d e e') (linear : e.ledger.Linear) : e.ledger.Grows e'.ledger :=
  linear.grows_calls h.calls

/-- Nothing is lost if no block becomes recent, and no block is cached that was not. -/
theorem same (calls : e.ledger.Calls e'.ledger) (stock : SameStock e e') : Learns d e e' :=
  ⟨calls, stock.genesis, fun _ mem => .inl (stock.recent ▸ mem),
    fun _ mem => .inl (stock.cached mem)⟩

/-- A block becomes recent and may be cached, if it is stored or queued for announcement. -/
theorem restocked {b : Block} (calls : e.ledger.Calls e'.ledger) (stock : Restocked b e e')
    (known : e'.Stores b.id ∨ d = .queued (.block b)) : Learns d e e' := by
  refine ⟨calls, stock.genesis, fun id mem => ?_, fun entry mem => ?_⟩
  · rw [stock.recent] at mem
    rcases RecentBlocks.mem_of_mem_push mem with old | rfl
    · exact .inl old
    · exact .inr (known.imp (fun stored => ⟨b.faithful_id, stored⟩) fun queued => ⟨b, queued, rfl⟩)
  · rcases stock.cached entry mem with old | ⟨-, rfl⟩
    · exact .inl old
    · exact .inr known

end Learns

/-- **No step loses a block.**  What becomes recent or is cached is stored, unless it is queued for
announcement by other hands. -/
theorem Step.learns {d : Deed} (s : Step d e e') : Learns d e e' := by
  cases s.supply with
  | quiet told stock => exact .same told.calls stock
  | refused _ applied stock => exact .same (.single (.applyBlock applied)) stock
  | accepted _ applied stock =>
    have stored := ChainLedger.contains_of_applyBlock applied
    exact .restocked (.single (.applyBlock applied)) stock (.inl stored)
  | queued ledger stock => exact .restocked (ledger ▸ .refl) stock (.inr rfl)

/-- A course changes the ledger by calls. -/
theorem Course.calls {allowed : Deed → Prop} (c : Course allowed e e') :
    e.ledger.Calls e'.ledger := by
  induction c with
  | refl => exact .refl
  | tail _ last ih =>
    obtain ⟨d, -, last⟩ := last
    exact ih.trans last.learns.calls

/-! ## Sound engines -/

/-- What an engine relies on: its ledger is linear, what is recent is stored, blocks wait under
their own hashes, and queues are stretches. -/
structure Sound (e : Engine ChainLedger) : Prop where
  linear : e.ledger.Linear
  recent : ∀ id ∈ e.recent.ids, e.Stores id
  keyed : ∀ (hash : Hash) (w : WaitingBlock), e.waiting[hash]? = some w → w.block.id.hash = hash
  queues : e.QueuesConsecutive

/-- A recent block of a sound engine is stored. -/
theorem Sound.stores_of_contains (h : e.Sound) {id : BlockId}
    (recent : e.recent.contains id = true) : e.Stores id := by
  obtain ⟨other, mem, same⟩ := BlockId.isIn_iff.1 recent
  rw [Stores, same]
  exact h.recent other mem

/-- The block that is next in line is stored when it is settled. -/
theorem Sound.stores_of_settled (h : e.Sound) {hash : Hash} {b : Block}
    (done : (e.takeNext hash).submitFetched b = .ok (none, e')) : e'.Stores b.id := by
  rcases submitFetched_cases done with ⟨recent, -, rfl⟩ | ⟨result, ledger, applied, result_eq⟩
  · exact h.stores_of_contains recent
  · cases result with
    | ok =>
      obtain ⟨-, rfl⟩ := result_eq
      exact ChainLedger.contains_of_applyBlock applied
    | error =>
      obtain ⟨eq, -⟩ := result_eq
      cases eq

/-- Every step leaves an engine sound, if no block is queued for announcement but a stored
one. -/
theorem Sound.step {d : Deed} (s : Step d e e')
    (held : ∀ b, d = .queued (.block b) → e.Stores b.id) (h : e.Sound) : e'.Sound := by
  have grows := s.learns.ledger h.linear
  refine ⟨grows.linear, fun id mem => ?_, Keyed.step s h.keyed, .step s h.queues⟩
  rcases s.learns.recent id mem with old | known | ⟨b, queued, rfl⟩
  · exact grows.stored _ (h.recent id old)
  · exact known.2
  · exact grows.stored _ (held b queued)

/-- Every course leaves an engine sound and loses no block. -/
theorem Sound.course {allowed : Deed → Prop} (c : Course allowed e e')
    (held : ∀ b, allowed (.queued (.block b)) → e.Stores b.id) (h : e.Sound) :
    e'.Sound ∧ e.ledger.Grows e'.ledger := by
  induction c with
  | refl => exact ⟨h, h.linear.grows_of_same rfl rfl⟩
  | tail _ last ih =>
    obtain ⟨d, allows, last⟩ := last
    obtain ⟨here, grows⟩ := ih
    refine ⟨here.step last fun b queued => ?_, grows.trans (last.learns.ledger here.linear)⟩
    exact grows.stored _ (held b (queued ▸ allows))

end Engine

/-- A moment is local if other hands change the ledger by calls only, and queue no block for
announcement but a stored one. -/
def Moment.Local (m : Moment ChainLedger) : Prop :=
  match m.operation with
  | none => m.before.ledger.Calls m.after.ledger
  | some (.broadcast (.block b)) => m.before.Stores b.id
  | some _ => True

namespace Engine

variable {e e' : Engine ChainLedger}

/-- What an operation of a local moment queues for announcement is stored. -/
theorem held_of_local {op : Operation} (loc : (Moment.mk e (some op) e').Local) (b : Block)
    (queued : op.Allows (.queued (.block b))) : e.Stores b.id := by
  cases queued
  exact loc

/-- **Local runs are sound.** -/
theorem Run.sound {config : Config} {ledger : ChainLedger} {clock : Clock}
    {start : Engine ChainLedger} {past : List (Moment ChainLedger)} (run : Run start past e)
    (started : Engine.start config ledger clock = .ok start) (linear : ledger.Linear)
    (loc : ∀ m ∈ past, m.Local) : e.Sound := by
  induction run with
  | start =>
    have queues := QueuesConsecutive.start started
    obtain ⟨_, -, eq⟩ := Checked.bind_eq_ok_iff.1 started
    cases eq
    exact ⟨linear, nofun, fun hash w hw => by simp at hw, queues⟩
  | meddle ledger _ ih =>
    obtain ⟨here, before⟩ := List.forall_mem_cons.1 loc
    have sound := ih before
    have grows := sound.linear.grows_calls here
    exact ⟨grows.linear, fun id mem => grows.stored _ (sound.recent id mem), sound.keyed,
      sound.queues⟩
  | perform _ done ih =>
    obtain ⟨here, before⟩ := List.forall_mem_cons.1 loc
    exact ((ih before).course (course_perform done) (held_of_local here)).1

end Engine

end BlockRelay
