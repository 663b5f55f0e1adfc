/-
# Valid chains

A ledger in memory that was started from a block of height zero is whole, whatever is called
(`ChainLedger.whole_of_calls`): it stores the blocks of its main chain and no others, each under its
own hash and each on top of the one before it.  It also has the transactions of its blocks
(`ChainLedger.Recorded`).  A call that fails, or that applies a block that is held, changes nothing
(`ChainLedger.eq_of_fruitless`).
-/
import BlockRelay.Proofs.Prefixes

namespace BlockRelay.ChainLedger

variable {c : ChainLedger} {i : Nat}

/-- A ledger whose blocks are those of its main chain, each under its own hash and each on top of
the one before it, and that answers with one more block at least. -/
structure Whole (c : ChainLedger) : Prop where
  within : c.Within c
  filed : c.Filed
  linked : ∀ {i : Nat} {parent : BlockId} {b : Block}, c.main[i]? = some parent →
    c.main[i + 1]? = some b.id → c.Has b → b.parent = parent.hash
  batch : 1 ≤ c.batch

/-- A ledger that was started from a block of height zero is whole. -/
theorem whole_of_calls {genesis : Block} {solidifyDepth batch : Nat} (zero : genesis.number = 0)
    (calls : (ofGenesis genesis solidifyDepth batch).Calls c) : c.Whole := by
  refine ⟨?_, (Filed.ofGenesis genesis solidifyDepth batch).calls calls, ?_, batch_pos calls⟩
  · induction calls with
    | refl => exact .ofGenesis zero solidifyDepth batch
    | tail _ call ih =>
      rcases call_cases call with same | ⟨b, rfl, fresh, next, -⟩
      · exact (ih.congr same.main same.blocks).mono (.of_main same.main) fun b has =>
          has.congr same.main same.blocks
      · exact ih.grow fresh next
  · induction calls with
    | refl =>
      intro i parent b _ above
      cases above
    | @tail l _ before call ih =>
      have linear := ((Linear.ofGenesis zero solidifyDepth batch).grows_calls before).linear
      intro i parent b found above has
      rcases call_cases call with same | ⟨new, rfl, fresh, -, link⟩
      · rw [same.main] at found above
        exact ih found above (has.congr same.main.symm same.blocks.symm)
      have size := l.size_main
      change (l.main.push new.id)[i]? = some parent at found
      change (l.main.push new.id)[i + 1]? = some b.id at above
      rw [Array.getElem?_push] at found above
      have held : b = new ∨ l.blocks[b.id.hash]? = some b := getElem?_extend has.2
      split at above
      next last =>
        -- the new block is on top of the head
        rw [if_neg (by omega), show i = l.headIndex by omega, l.getElem?_headIndex] at found
        cases found
        rcases held with rfl | old
        · exact link
        · rw [Option.some.inj above, Std.TreeMap.contains_eq_isSome_getElem?, old] at fresh
          cases fresh
      next =>
        have lt := (Array.getElem?_eq_some_iff.1 above).1
        rw [if_neg (by omega)] at found
        refine ih found above ⟨Array.mem_of_getElem? above, ?_⟩
        rcases held with rfl | old
        · have stored := (linear.stored b.id.hash).2 ⟨b.id, Array.mem_of_getElem? above, rfl⟩
          cases fresh.symm.trans stored
        · exact old

/-- Any number of calls leaves on the main chain what is there. -/
theorem Has.calls {l l' : ChainLedger} {b : Block} (h : l.Has b) (calls : l.Calls l') :
    l'.Has b := by
  induction calls with
  | refl => exact h
  | tail _ call ih =>
    rcases call_cases call with same | ⟨new, rfl, fresh, -⟩
    · exact ih.congr same.main same.blocks
    · exact ih.extend fresh

/-- A ledger of a block of height zero is within what it becomes. -/
theorem within_of_calls {genesis : Block} {solidifyDepth batch : Nat} (zero : genesis.number = 0)
    (calls : (ofGenesis genesis solidifyDepth batch).Calls c) :
    (ofGenesis genesis solidifyDepth batch).Within c :=
  (Within.ofGenesis zero solidifyDepth batch).mono (below_calls calls) fun _ has => has.calls calls

/-- The block that an identity on the main chain names is stored. -/
theorem Whole.exists_block (h : c.Whole) {id : BlockId} (on : id ∈ c.main) :
    ∃ b, c.blocks[id.hash]? = some b ∧ b.id = id := by
  have stored := (h.within.linear.stored id.hash).2 ⟨id, on, rfl⟩
  obtain ⟨b, found⟩ := contains_iff_exists.1 stored
  obtain ⟨i, here⟩ := Array.getElem?_of_mem on
  refine ⟨b, found, ?_⟩
  rw [b.faithful_id.eq_ofHash, h.filed _ b found, ← (h.within.linear.height here).2.eq_ofHash]

/-- A block of a chain is at its height. -/
theorem Linear.getElem?_of_has (h : c.Linear) {b : Block} (has : c.Has b) :
    c.main[b.number.toNat]? = some b.id := by
  obtain ⟨i, found⟩ := Array.getElem?_of_mem has.1
  obtain ⟨height, -⟩ := h.height found
  rwa [← b.number_id, height]

/-- A chain has one block at each height. -/
theorem Linear.has_inj (h : c.Linear) {b b' : Block} (has : c.Has b) (has' : c.Has b')
    (same : b.number.toNat = b'.number.toNat) : b = b' := by
  have here := h.getElem?_of_has has
  rw [same, h.getElem?_of_has has'] at here
  have found := has.2
  rw [← Option.some.inj here, has'.2] at found
  exact (Option.some.inj found).symm

/-- A whole chain has a block at each height up to its head. -/
theorem Whole.exists_has (h : c.Whole) (le : i ≤ c.headIndex) :
    ∃ b, c.Has b ∧ b.number.toNat = i ∧ c.main[i]? = some b.id := by
  have size := c.size_main
  have here : c.main[i]? = some c.main[i] := Array.getElem?_eq_getElem (by omega)
  obtain ⟨b, found, same⟩ := h.exists_block (Array.mem_of_getElem? here)
  have has := h.within.held found
  refine ⟨b, has, ?_, by rw [same]; exact here⟩
  have height := (h.within.linear.height here).1
  rwa [← same, b.number_id] at height

/-! ## Transactions -/

/-- A ledger that stores each transaction under its own hash, and has the transactions of every
block above the first one. -/
structure Recorded (l : ChainLedger) : Prop where
  keyed : l.FilesTransactions
  carried : ∀ {b : Block} {t : Transaction}, l.Has b → 0 < b.number.toNat → t ∈ b.transactions →
    l.transactions.contains t.hash = true

namespace Recorded

variable {l l' : ChainLedger}

/-- At the start there is no block above the first one. -/
theorem ofGenesis {genesis : Block} (zero : genesis.number = 0) (solidifyDepth batch : Nat) :
    (ofGenesis genesis solidifyDepth batch).Recorded := by
  refine ⟨.ofGenesis genesis solidifyDepth batch, ?_⟩
  intro b t has above
  have first : b.id = genesis.id := by simpa [ChainLedger.ofGenesis] using has.1
  have number : b.number = 0 := by rw [← b.number_id, first, genesis.number_id, zero]
  rw [number] at above
  exact absurd above (Nat.lt_irrefl 0)

/-- A block on top comes with its transactions. -/
theorem extend (h : l.Recorded) (within : l.Within l) (b : Block) : (l.extend b).Recorded := by
  have stored : (l.extend b).transactions =
      b.transactions.foldl (fun m t => m.insert t.hash t) l.transactions := rfl
  refine ⟨h.keyed.extend b, ?_⟩
  intro b' t has above mem
  rw [stored, contains_foldl_insert]
  rcases getElem?_extend has.2 with rfl | old
  · exact .inl ⟨t, mem, rfl⟩
  · exact .inr (h.carried (within.held old) above mem)

/-- A transaction that is applied is stored under its own hash, and displaces none. -/
theorem applyTransaction (h : l.Recorded) (t : Transaction) :
    (l.applyTransaction t).2.Recorded := by
  refine ⟨h.keyed.applyTransaction t, ?_⟩
  unfold ChainLedger.applyTransaction
  dsimp only
  split
  next => exact h.carried
  next =>
    split
    next => exact h.carried
    next =>
      intro b t' has above mem
      have old : l.transactions.contains t'.hash = true := h.carried has above mem
      show (l.transactions.insert t.hash t).contains t'.hash = true
      rw [Std.TreeMap.contains_insert, old, Bool.or_true]

/-- **Every call leaves the transactions of the blocks stored.** -/
theorem call (h : l.Recorded) (within : l.Within l) (call : l.Call l') : l'.Recorded := by
  cases call with
  | applyBlock done =>
    rcases applyBlock_cases done with ⟨rfl, -⟩ | ⟨-, rfl, -⟩
    · exact h
    · exact h.extend within _
  | produce done =>
    rcases within.linear.produce_cases done with ⟨-, -, rfl⟩ | ⟨b, -, rfl, -⟩
    · exact h
    · exact h.extend within b
  | applyTransaction t => exact h.applyTransaction t
  | forbid hash => exact ⟨h.keyed, h.carried⟩
  | noteProgress remaining => exact ⟨h.keyed, h.carried⟩

/-- Any number of calls does. -/
theorem ofCalls {genesis : Block} {solidifyDepth batch : Nat} (zero : genesis.number = 0)
    (calls : (ChainLedger.ofGenesis genesis solidifyDepth batch).Calls l) : l.Recorded := by
  induction calls with
  | refl => exact ofGenesis zero solidifyDepth batch
  | tail before call ih => exact ih.call (whole_of_calls zero before).within call

end Recorded

/-! ## Calls without effect -/

/-- One call that returns an error, or applies a block that is held. -/
inductive Fruitless (l : ChainLedger) : ChainLedger → Prop where
  /-- A block is refused. -/
  | refusedBlock {l' : ChainLedger} {b : Block} {error : Refusal} :
    l.applyBlock b = .ok (.error error, l') → Fruitless l l'
  /-- A block is applied that is held. -/
  | heldBlock {l' : ChainLedger} {b : Block} {r : Except Refusal (List Hash)} :
    l.blocks.contains b.id.hash = true → l.applyBlock b = .ok (r, l') → Fruitless l l'
  /-- A block is produced and refused. -/
  | refusedProduce {l' : ChainLedger} {timestamp witness : UInt64}
    {transactions : List Transaction} {error : Refusal} :
    l.produce timestamp witness transactions = .ok (.error error, l') → Fruitless l l'
  /-- A block is produced that is held. -/
  | heldProduce {l' : ChainLedger} {timestamp witness : UInt64} {transactions : List Transaction}
    {b : Block} : l.blocks.contains b.id.hash = true →
    l.produce timestamp witness transactions = .ok (.ok b, l') → Fruitless l l'
  /-- A transaction is refused. -/
  | refusedTransaction {l' : ChainLedger} {t : Transaction} {error : Refusal} :
    l.applyTransaction t = (.error error, l') → Fruitless l l'

/-- Applying a block that is refused or held changes nothing. -/
theorem eq_of_applyBlock {l l' : ChainLedger} {b : Block} {r : Except Refusal (List Hash)}
    (done : l.applyBlock b = .ok (r, l'))
    (idle : (∃ error, r = .error error) ∨ l.blocks.contains b.id.hash = true) : l' = l := by
  rcases applyBlock_cases done with ⟨same, -⟩ | ⟨accepted, -, fresh, -⟩
  · exact same
  · rcases idle with ⟨error, refused⟩ | held
    · cases accepted.symm.trans refused
    · cases fresh.symm.trans held

/-- **A call without effect.**  A call that fails, or that applies a block that is held, leaves a
linear ledger as it is. -/
theorem eq_of_fruitless {l l' : ChainLedger} (linear : l.Linear) (call : l.Fruitless l') :
    l' = l := by
  cases call with
  | refusedBlock done => exact eq_of_applyBlock done (.inl ⟨_, rfl⟩)
  | heldBlock held done => exact eq_of_applyBlock done (.inr held)
  | refusedProduce done =>
    rcases linear.produce_cases done with ⟨-, -, same⟩ | ⟨b, accepted, -⟩
    · exact same
    · cases accepted
  | heldProduce held done =>
    rcases linear.produce_cases done with ⟨error, refused, -⟩ | ⟨b, accepted, -, fresh, -⟩
    · cases refused
    · cases accepted
      cases fresh.symm.trans held
  | refusedTransaction done =>
    unfold applyTransaction at done
    dsimp only at done
    split at done
    next =>
      cases done
      rfl
    next => split at done <;> cases done

/-! ## Valid chains -/

/-- **A valid linear chain.**  It starts with the genesis block, is numbered by position, and names
no block twice.  Each block names the one before it as its parent.  Exactly the blocks of the chain
are stored, each under its own hash, and so are the transactions of all but the first one. -/
structure ValidChain (l : ChainLedger) : Prop where
  first : l.main[0]? = some l.genesis.id
  height : ∀ {i : Nat} {id : BlockId}, l.main[i]? = some id →
    id.number.toNat = i ∧ id.hash.height = id.number
  distinct : (l.main.toList.map BlockId.hash).Nodup
  linked : ∀ {i : Nat} {parent id : BlockId} {b : Block}, l.main[i]? = some parent →
    l.main[i + 1]? = some id → l.blocks[id.hash]? = some b → b.parent = parent.hash
  stored : ∀ id ∈ l.main, ∃ b, l.blocks[id.hash]? = some b ∧ b.id = id
  onMain : ∀ {hash : Hash} {b : Block}, l.blocks[hash]? = some b →
    b.id ∈ l.main ∧ b.id.hash = hash
  recorded : ∀ {i : Nat} {id : BlockId} {b : Block} {t : Transaction}, l.main[i + 1]? = some id →
    l.blocks[id.hash]? = some b → t ∈ b.transactions →
    ∃ t', Ledger.transaction? l t.hash = some t' ∧ t'.hash = t.hash

/-- The blocks of a linear chain have different hashes. -/
theorem Linear.distinct {l : ChainLedger} (h : l.Linear) :
    (l.main.toList.map BlockId.hash).Nodup := by
  rw [List.Nodup, List.pairwise_map, List.pairwise_iff_getElem]
  intro i j hi hj lt same
  have lower := h.height (by rw [← Array.getElem?_toList, List.getElem?_eq_getElem hi])
  have upper := h.height (by rw [← Array.getElem?_toList, List.getElem?_eq_getElem hj])
  -- equal hashes carry equal heights
  have number : l.main.toList[i].number = l.main.toList[j].number := by
    rw [← lower.2, ← upper.2, same]
  have height : i = j := by rw [← lower.1, ← upper.1, number]
  omega

/-- A ledger that was started from a genesis block has this block as its first one. -/
theorem first_of_calls {genesis : Block} {solidifyDepth batch : Nat} {l : ChainLedger}
    (calls : (ofGenesis genesis solidifyDepth batch).Calls l) : l.first = genesis.id := by
  have here : (ofGenesis genesis solidifyDepth batch).main[0]? = some genesis.id := rfl
  obtain ⟨lt, eq⟩ := Array.getElem?_eq_some_iff.1 ((below_calls calls).getElem? here)
  exact eq

/-- A whole ledger that has the transactions of its blocks keeps a valid chain. -/
theorem Whole.validChain {l : ChainLedger} (h : l.Whole) (recorded : l.Recorded)
    (first : l.first = l.genesis.id) : l.ValidChain where
  first := (Array.getElem?_eq_getElem l.main_pos).trans (congrArg some first)
  height found := h.within.linear.height found
  distinct := h.within.linear.distinct
  linked := by
    intro i parent id b below above found
    obtain ⟨b', found', same⟩ := h.exists_block (Array.mem_of_getElem? above)
    cases found.symm.trans found'
    exact h.linked below (same ▸ above) (h.within.held found)
  stored _ on := h.exists_block on
  onMain found := ⟨(h.within.held found).1, h.filed _ _ found⟩
  recorded := by
    intro i id b t above found mem
    have number : b.number.toNat = i + 1 := by
      rw [← b.height_id, h.filed _ _ found, (h.within.linear.height above).2]
      exact (h.within.linear.height above).1
    have held := recorded.carried (h.within.held found) (by omega) mem
    obtain ⟨t', found'⟩ := contains_iff_exists.1 held
    exact ⟨t', found', recorded.keyed _ _ found'⟩

/-- **A ledger in memory keeps a valid linear chain.**  Whatever is called on a ledger whose genesis
block has height zero, the chain is valid afterwards; and a call that returns an error, or applies a
block that is held, changes neither the main chain nor the blocks nor the transactions. -/
theorem validChain_of_calls {genesis : Block} {solidifyDepth batch : Nat} {l : ChainLedger}
    (zero : genesis.number = 0) (calls : (ofGenesis genesis solidifyDepth batch).Calls l) :
    l.ValidChain ∧ ∀ l' : ChainLedger, l.Fruitless l' → l' = l := by
  have whole : l.Whole := whole_of_calls zero calls
  constructor
  · apply whole.validChain (.ofCalls zero calls)
    rw [first_of_calls calls, (fixed_calls calls).1]
    rfl
  · intro l' call
    exact eq_of_fruitless whole.within.linear call

/-- A transaction is forbidden and a block produced that carries another one. -/
theorem validChain_of_one_block :
    (Block.genesis 0).number = 0 ∧ ∃ l : ChainLedger,
      (ofGenesis (Block.genesis 0) 0 2).Calls l ∧ l.main.size = 2 ∧ l.transactions.size = 1 ∧
        l.ValidChain ∧ ∀ l' : ChainLedger, l.Fruitless l' → l' = l := by
  have checked : (((ofGenesis (Block.genesis 0) 0 2).forbid Hash.zero).produce 3000 1
      [⟨[7], 2000⟩]).toOption.any (fun r => r.2.main.size = 2 && r.2.transactions.size = 1) =
        true := by decide +kernel
  simp only [Option.any_eq_true, Checked.toOption_eq_some_iff, Bool.and_eq_true,
    decide_eq_true_eq] at checked
  obtain ⟨⟨r, l⟩, produced, main, transactions⟩ := checked
  have calls : (ofGenesis (Block.genesis 0) 0 2).Calls l :=
    (Relation.ReflTransGen.single (.forbid Hash.zero)).tail (.produce produced)
  exact ⟨rfl, l, calls, main, transactions, validChain_of_calls rfl calls⟩

end BlockRelay.ChainLedger
