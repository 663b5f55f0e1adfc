/-
# What an engine keeps of blocks

An engine keeps blocks in its ledger and in its cache, and the identities of those that it accepted
recently.  Few steps change any of these: a block that was delivered, or that waits, is submitted to
the ledger, or a block is queued for announcement (`Engine.Supply`).  Apart from this the ledger is
only told of progress and of transactions, and the cache only loses blocks (`Step.supply`).
-/
import BlockRelay.Proofs.Served
import BlockRelay.Proofs.Step

namespace BlockRelay.Engine

variable {σ : Type}

/-! ## Blocks that are kept -/

/-- No block becomes recent, and none is cached that was not. -/
structure SameStock (e e' : Engine σ) : Prop where
  genesis : e'.genesis = e.genesis
  recent : e'.recent = e.recent
  cached : e'.blockCache.entries ⊆ e.blockCache.entries

/-- One block becomes recent, and no other block is cached that was not.  It is cached under its
own hash. -/
structure Restocked (b : Block) (e e' : Engine σ) : Prop where
  genesis : e'.genesis = e.genesis
  recent : e'.recent = e.recent.push b.id
  cached : ∀ entry ∈ e'.blockCache.entries,
    entry ∈ e.blockCache.entries ∨ entry.key = b.id.hash ∧ entry.value = b

/-- With the same cache the same blocks are kept. -/
theorem SameStock.of_eq {e e' : Engine σ} (genesis : e'.genesis = e.genesis)
    (recent : e'.recent = e.recent) (cached : e'.blockCache = e.blockCache) : SameStock e e' :=
  ⟨genesis, recent, cached ▸ List.Subset.refl _⟩

/-- Queueing a block for announcement makes it recent, and caches it. -/
theorem Restocked.broadcastBlock (e : Engine σ) (b : Block) :
    Restocked b e (e.broadcastBlock b) := by
  refine ⟨rfl, rfl, fun entry mem => ?_⟩
  rcases AgingCache.mem_entries_insert mem with rfl | old
  · exact .inr ⟨rfl, rfl⟩
  · exact .inl old

/-- Whether a step may submit a block: the block is delivered in it, or waits. -/
def Submits (d : Deed) (e : Engine σ) (b : Block) : Prop :=
  (∃ id, d = .tookBlock id b) ∨
    ∃ (hash : Hash) (w : WaitingBlock), e.waiting[hash]? = some w ∧ w.block = b

variable [Ledger σ]

/-! ## One step -/

/-- What becomes of a ledger to which no block is submitted. -/
inductive Told (l : σ) : σ → Prop where
  /-- The ledger is left alone. -/
  | nothing : Told l l
  /-- Progress is reported. -/
  | progress (remaining : Nat) : Told l (Ledger.noteProgress l remaining)
  /-- A transaction is submitted. -/
  | transaction (t : Transaction) : Told l (Ledger.applyTransaction l t).2

/-- What a step does to the ledger and to the blocks that are kept. -/
inductive Supply : Deed → Engine σ → Engine σ → Prop where
  /-- No block is submitted. -/
  | quiet {d : Deed} {e e' : Engine σ} (told : Told e.ledger e'.ledger)
      (stock : SameStock e e') : Supply d e e'
  /-- A block is submitted and refused. -/
  | refused {d : Deed} {e e' : Engine σ} {b : Block} {sync : Bool} {error : Refusal}
      (submits : Submits d e b)
      (applied : Ledger.applyBlock e.ledger b sync = .ok (.error error, e'.ledger))
      (stock : SameStock e e') : Supply d e e'
  /-- A block is submitted and accepted. -/
  | accepted {d : Deed} {e e' : Engine σ} {b : Block} {sync : Bool} {transactions : List Hash}
      (submits : Submits d e b)
      (applied : Ledger.applyBlock e.ledger b sync = .ok (.ok transactions, e'.ledger))
      (stock : Restocked b e e') : Supply d e e'
  /-- A block is queued for announcement. -/
  | queued {e e' : Engine σ} {b : Block} (ledger : e'.ledger = e.ledger)
      (stock : Restocked b e e') : Supply (.queued (.block b)) e e'

namespace Supply

variable {d : Deed} {e e₁ e' : Engine σ}

/-- Nothing is submitted, and the same is kept. -/
theorem same (ledger : e'.ledger = e.ledger) (stock : SameStock e e') : Supply d e e' :=
  .quiet (ledger ▸ .nothing) stock

/-- The block that is next in line is taken up, and some peers are left. -/
theorem takeUp {hash : Hash} {w : WaitingBlock} {r : Option Refusal}
    (hw : e.waiting[hash]? = some w)
    (done : (e.takeNext hash).submitFetched w.block = .ok (r, e₁))
    (leaving : List (PeerId × Reason)) : Supply d e (e₁.disconnectAll leaving) := by
  obtain ⟨_, _, _, _, _, _, eq⟩ := disconnectAll_eq e₁ leaving
  rw [eq]
  have submits : Submits d e w.block := .inr ⟨hash, w, hw, rfl⟩
  rcases submitFetched_cases done with ⟨-, -, rfl⟩ | ⟨result, ledger, applied, result_eq⟩
  · exact .same rfl (.of_eq rfl rfl rfl)
  · cases result with
    | ok =>
      obtain ⟨-, rfl⟩ := result_eq
      exact .accepted submits applied ⟨rfl, rfl, fun _ => .inl⟩
    | error =>
      obtain ⟨-, quarantine, rfl⟩ := result_eq
      exact .refused submits applied (.of_eq rfl rfl rfl)

/-- An announced block that was delivered is submitted. -/
theorem submitAnnounced {id : PeerId} {q : Peer} {b : Block} {r : Option Refusal}
    (done : { e with peers := e.peers.insert id q }.submitAnnounced b = .ok (r, e')) :
    Supply (.tookBlock id b) e e' := by
  have submits : Submits (.tookBlock id b) e b := .inl ⟨id, rfl⟩
  rcases submitAnnounced_cases done with ⟨-, -, rfl⟩ | ⟨result, ledger, applied, result_eq⟩
  · exact .same rfl (.of_eq rfl rfl rfl)
  · cases result with
    | ok transactions =>
      obtain ⟨-, rfl⟩ := result_eq
      refine .accepted submits applied ⟨rfl, ?_, (Restocked.broadcastBlock _ b).cached⟩
      -- the block is pushed once as applied and once as queued for announcement
      show (e.recent.push b.id).push b.id = e.recent.push b.id
      rw [RecentBlocks.push, if_pos (RecentBlocks.contains_push_self ..)]
    | error error =>
      obtain ⟨-, quarantine, rfl⟩ := result_eq
      exact .refused submits applied (.of_eq rfl rfl rfl)

end Supply

/-- **Most steps submit no block**, and the others are those of `Supply`. -/
theorem Step.supply {d : Deed} {e e' : Engine σ} (s : Step d e e') : Supply d e e' := by
  cases s with
  | remove r hp =>
    obtain ⟨_, _, _, eq⟩ := remove_eq hp r
    rw [eq]
    exact .same rfl (.of_eq rfl rfl rfl)
  | finishCatchUp _ _ _ _ done =>
    obtain ⟨_, rfl | ⟨n, rfl⟩⟩ := finishCatchUp_cases done
    · exact .same rfl (.of_eq rfl rfl rfl)
    · exact .quiet (.progress n) (.of_eq rfl rfl rfl)
  | takeUp _ _ _ done =>
    obtain ⟨_, _, rfl | ⟨n, rfl⟩⟩ := takeUp_cases done
    · exact .same rfl (.of_eq rfl rfl rfl)
    · exact .quiet (.progress n) (.of_eq rfl rfl rfl)
  | @takeIn _ id _ i =>
    rcases takeIn_cases e id i with eq | ⟨_, _, eq, -⟩ <;> rw [eq] <;>
      exact .same rfl (.of_eq rfl rfl rfl)
  | announceSpread =>
    obtain ⟨_, eq⟩ := announceSpread_eq e
    rw [eq]
    exact .same rfl (.of_eq rfl rfl rfl)
  | reserve =>
    obtain ⟨_, _, eq⟩ := reserveAll_eq e
    rw [requestReserved_eq, eq]
    exact .same rfl (.of_eq rfl rfl rfl)
  | @serve _ id p items =>
    obtain ⟨cached, -⟩ := serve_hands e id items
    obtain ⟨_, _, _, _, -, eq | eq⟩ := serve_eq e id items <;> rw [eq] at cached ⊢ <;>
      exact .same rfl ⟨rfl, rfl, cached⟩
  | submitAnnounced _ _ _ done => exact .submitAnnounced done
  | @submitTransaction _ id p t =>
    rcases submitTransaction_cases (e.modifyPeer id fun p =>
        { p with reserved := p.reserved.erase t.item }) t with eq | ⟨_, _, _, _, eq⟩ <;> rw [eq]
    · exact .same rfl (.of_eq rfl rfl rfl)
    · exact .quiet (.transaction t) (.of_eq rfl rfl rfl)
  | @requestBlocks _ id p batch =>
    obtain ⟨_, _, eq⟩ := requestBlocks_eq e id batch
    rw [eq]
    exact .same rfl (.of_eq rfl rfl rfl)
  | settle hw _ done => exact .takeUp hw done []
  | refuse hw _ done => exact .takeUp hw done _
  | forgetOutdated done =>
    obtain ⟨_, -, done⟩ := Checked.bind_eq_ok_iff.1 done
    cases done
    exact .same rfl ⟨rfl, rfl, fun _ mem => (List.mem_filter.1 mem).1⟩
  | broadcast e m =>
    cases m with
    | block b => exact .queued rfl (.broadcastBlock e b)
    | _ => exact .same rfl (.of_eq rfl rfl rfl)
  | openSession | welcome | restart | sendSummary | sendAnswer | measure | dropStale | arrive | due
  | rest | absorb | suspend | dropOrphan | advanceFlood | advanceClock =>
    exact .same rfl (.of_eq rfl rfl rfl)

end BlockRelay.Engine
