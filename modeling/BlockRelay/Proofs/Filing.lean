/-
# Objects under their own hashes

What a request is served with is found under the hash that the request names: in one of two caches,
or in the ledger.  All of them hold every object under its own hash (`Engine.Filed`).  The caches do
because nothing is put into them under another hash, in whatever state the ledger is
(`Run.cachesFiled`).  A ledger in memory does as long as it is changed by its own calls, be it by
the engine or by other hands (`Run.calls`).
-/
import BlockRelay.Proofs.Stored

namespace BlockRelay

namespace Engine

variable {σ : Type}

/-! ## Caches -/

/-- Whether the caches hold every object under its own hash. -/
structure CachesFiled (e : Engine σ) : Prop where
  blocks : ∀ entry ∈ e.blockCache.entries, entry.value.id.hash = entry.key
  transactions : ∀ entry ∈ e.transactionCache.entries, entry.value.hash = entry.key

/-- Caches that hold no more than before hold every object under its own hash. -/
theorem CachesFiled.of_subset {e e' : Engine σ} (h : e.CachesFiled)
    (blocks : e'.blockCache.entries ⊆ e.blockCache.entries)
    (transactions : e'.transactionCache.entries ⊆ e.transactionCache.entries) : e'.CachesFiled :=
  ⟨fun entry mem => h.blocks entry (blocks mem),
    fun entry mem => h.transactions entry (transactions mem)⟩

variable [Ledger σ] {e e' : Engine σ}

/-- Collecting an answer puts no transaction into the cache. -/
theorem transactionCache_collect_subset (limits : Config.Cache) (items : List Item) (a : Answer)
    (e : Engine σ) :
    (collect limits items a e).2.2.transactionCache.entries ⊆ e.transactionCache.entries := by
  have same {hash : Hash} {found : Option Block} {e e' : Engine σ}
      (done : e.findBlock hash = (found, e')) : e'.transactionCache = e.transactionCache := by
    rw [findBlock_eq done]
  have looked {hash : Hash} {found : Option Transaction} {e e' : Engine σ}
      (done : e.findTransaction hash = (found, e')) :
      e'.transactionCache.entries ⊆ e.transactionCache.entries := by
    obtain ⟨-, rfl⟩ := Prod.mk.inj done
    exact AgingCache.entries_get_subset
  fun_induction collect limits items a e with
  | case1 => exact List.Subset.refl _
  | case2 _ _ _ _ _ _ _ found ih => rwa [same found] at ih
  | case3 _ _ _ _ _ _ found => exact same found ▸ List.Subset.refl _
  | case4 _ _ _ _ _ _ _ found ih => exact List.Subset.trans ih (looked found)
  | case5 _ _ _ _ _ _ found => exact looked found

/-- Serving a request puts no transaction into the cache. -/
theorem transactionCache_serve_subset (e : Engine σ) (id : PeerId) (items : List Item) :
    (e.serve id items).transactionCache.entries ⊆ e.transactionCache.entries := by
  have collected := transactionCache_collect_subset e.config.cache items {} e
  unfold serve
  dsimp only
  split
  · rw [foldl_send (fun _ => id) (fun m => m)]
    exact collected
  · exact collected

/-- A transaction that is submitted may be cached, under its own hash. -/
theorem mem_transactionCache_submitTransaction {t : Transaction}
    {entry : CacheEntry Hash Transaction}
    (mem : entry ∈ (e.submitTransaction t).2.transactionCache.entries) :
    entry ∈ e.transactionCache.entries ∨ entry.value.hash = entry.key := by
  have stored {c : AgingCache Hash Transaction} {now : Nat}
      (mem : entry ∈ (c.insert t.hash t now).entries) :
      entry ∈ c.entries ∨ entry.value.hash = entry.key := by
    rcases AgingCache.mem_entries_insert mem with rfl | old
    · exact .inr rfl
    · exact .inl old
  unfold submitTransaction at mem
  split at mem
  · exact .inl mem
  · simp only [applyTransaction, record] at mem
    split at mem
    next eq =>
      obtain ⟨-, rfl⟩ := Prod.mk.inj eq
      exact stored mem
    next eq =>
      obtain ⟨-, rfl⟩ := Prod.mk.inj eq
      exact stored mem
    next eq =>
      obtain ⟨-, rfl⟩ := Prod.mk.inj eq
      obtain ⟨_, same⟩ := quarantineFor_eq (σ := σ) _ _ _
      rw [same] at mem
      exact .inl mem

/-- Taking up a waiting block caches no transaction. -/
theorem transactionCache_submitFetched {hash : Hash} {b : Block} {r : Option Refusal}
    (done : (e.takeNext hash).submitFetched b = .ok (r, e')) :
    e'.transactionCache = e.transactionCache := by
  obtain ⟨_, _, _, _, _, _, _, _, rfl⟩ := submitFetched_eq done
  rfl

/-- **No step caches a transaction under another hash than its own.** -/
theorem Step.transactionCache {d : Deed} (s : Step d e e') :
    ∀ entry ∈ e'.transactionCache.entries,
      entry ∈ e.transactionCache.entries ∨ entry.value.hash = entry.key := by
  intro entry mem
  cases s with
  | remove r hp =>
    obtain ⟨_, _, _, eq⟩ := remove_eq hp r
    rw [eq] at mem
    exact .inl mem
  | finishCatchUp _ _ _ _ done =>
    obtain ⟨_, rfl | ⟨_, rfl⟩⟩ := finishCatchUp_cases done <;> exact .inl mem
  | takeUp _ _ _ done =>
    obtain ⟨_, _, rfl | ⟨_, rfl⟩⟩ := takeUp_cases done <;> exact .inl mem
  | @takeIn _ id _ i =>
    rcases takeIn_cases e id i with eq | ⟨_, _, eq, -⟩ <;> rw [eq] at mem <;> exact .inl mem
  | announceSpread =>
    obtain ⟨_, eq⟩ := announceSpread_eq e
    rw [eq] at mem
    exact .inl mem
  | reserve =>
    obtain ⟨_, _, eq⟩ := reserveAll_eq e
    rw [requestReserved_eq, eq] at mem
    exact .inl mem
  | @serve _ id p items => exact .inl (transactionCache_serve_subset e id items mem)
  | submitAnnounced _ _ _ done =>
    obtain ⟨_, _, _, _, _, _, _, _, _, rfl⟩ := submitAnnounced_eq done
    exact .inl mem
  | @submitTransaction _ id p t =>
    exact mem_transactionCache_submitTransaction (e := e.modifyPeer id _) mem
  | @requestBlocks _ id p batch =>
    obtain ⟨_, _, eq⟩ := requestBlocks_eq e id batch
    rw [eq] at mem
    exact .inl mem
  | settle _ _ done => exact .inl (transactionCache_submitFetched done ▸ mem)
  | refuse _ _ done =>
    rw [leaveOffenders] at mem
    obtain ⟨_, _, _, _, _, _, eq⟩ := disconnectAll_eq (σ := σ) _ _
    rw [eq] at mem
    exact .inl (transactionCache_submitFetched done ▸ mem)
  | forgetOutdated done =>
    obtain ⟨_, -, done⟩ := Checked.bind_eq_ok_iff.1 done
    cases done
    exact .inl (List.mem_filter.1 mem).1
  | broadcast e m =>
    cases m with
    | transaction t =>
      rcases AgingCache.mem_entries_insert mem with rfl | old
      · exact .inr rfl
      · exact .inl old
    | _ => exact .inl mem
  | openSession | welcome | restart | sendSummary | sendAnswer | measure | dropStale | arrive | due
  | rest | absorb | suspend | dropOrphan | advanceFlood | advanceClock =>
    exact .inl mem

/-- **Every step leaves the caches filed.** -/
theorem CachesFiled.step {d : Deed} (s : Step d e e') (h : e.CachesFiled) : e'.CachesFiled where
  blocks entry mem := by
    have restocked {b : Block} (stock : Restocked b e e') : entry.value.id.hash = entry.key := by
      rcases stock.cached entry mem with old | ⟨key, value⟩
      · exact h.blocks entry old
      · rw [key, value]
    cases s.supply with
    | quiet _ stock | refused _ _ stock => exact h.blocks entry (stock.cached mem)
    | accepted _ _ stock | queued _ stock => exact restocked stock
  transactions entry mem := (s.transactionCache entry mem).elim (h.transactions entry) id

/-- **The caches are filed in every run.** -/
theorem Run.cachesFiled {config : Config} {ledger : σ} {clock : Clock} {start : Engine σ}
    {past : List (Moment σ)} (run : Run start past e)
    (started : Engine.start config ledger clock = .ok start) : e.CachesFiled := by
  refine run.invariant ?_ (fun s h => h.step s) fun e ledger h => ⟨h.blocks, h.transactions⟩
  obtain ⟨_, -, eq⟩ := Checked.bind_eq_ok_iff.1 started
  cases eq
  exact ⟨nofun, nofun⟩

/-! ## Caches and ledger -/

/-- Whether the caches and the ledger hold every object under its own hash. -/
structure Filed (e : Engine σ) : Prop extends e.CachesFiled where
  storedBlocks : ∀ hash b, Ledger.block? e.ledger hash = some b → b.id.hash = hash
  storedTransactions : ∀ hash t, Ledger.transaction? e.ledger hash = some t → t.hash = hash

end Engine

/-- Whether other hands change the ledger of a moment by its own calls only. -/
def Moment.ByCalls (m : Moment ChainLedger) : Prop :=
  m.operation = none → m.before.ledger.Calls m.after.ledger

namespace Engine

variable {config : Config} {clock : Clock} {ledger : ChainLedger} {start e : Engine ChainLedger}
  {past : List (Moment ChainLedger)}

/-- A run changes the ledger by calls, if other hands do. -/
theorem Run.calls (run : Run start past e) (byCalls : ∀ m ∈ past, m.ByCalls) :
    start.ledger.Calls e.ledger := by
  induction run with
  | start => exact .refl
  | meddle ledger _ ih =>
    obtain ⟨here, before⟩ := List.forall_mem_cons.1 byCalls
    exact (ih before).trans (here rfl)
  | perform _ done ih =>
    obtain ⟨-, before⟩ := List.forall_mem_cons.1 byCalls
    exact (ih before).trans (course_perform done).calls

/-- **Everything is filed in every run** over a ledger that grew from its genesis block. -/
theorem Run.filed {genesis : Block} {solidifyDepth batch : Nat} (run : Run start past e)
    (calls : (ChainLedger.ofGenesis genesis solidifyDepth batch).Calls ledger)
    (started : Engine.start config ledger clock = .ok start)
    (byCalls : ∀ m ∈ past, m.ByCalls) : e.Filed := by
  have initial : start.ledger = ledger := by
    obtain ⟨_, -, eq⟩ := Checked.bind_eq_ok_iff.1 started
    cases eq
    rfl
  have grown : (ChainLedger.ofGenesis genesis solidifyDepth batch).Calls e.ledger :=
    calls.trans (initial ▸ run.calls byCalls)
  exact ⟨run.cachesFiled started, (ChainLedger.Filed.ofGenesis genesis _ _).calls grown,
    (ChainLedger.FilesTransactions.ofGenesis genesis _ _).calls grown⟩

end Engine

end BlockRelay
