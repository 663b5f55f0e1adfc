/-
# Linear ledgers

A call leaves the chain of a ledger in memory alone, or puts a new block on top of the head
(`ChainLedger.call_cases`).  So a ledger whose genesis block has height zero stays linear, whatever
is called: the block at a position of the main chain has this position as its height, and exactly
the blocks of the main chain are stored (`ChainLedger.Linear`).  It only grows
(`ChainLedger.Grows`), and each block is stored under its own hash (`ChainLedger.Filed`).

A summary names no blocks but those of the main chain and those that are pending, and is never
empty.
-/
import Mathlib.Logic.Relation
import BlockRelay.Ledger.Chain

namespace BlockRelay.ChainLedger

/-! ## The head -/

/-- The position of the head is the last one. -/
theorem size_main (l : ChainLedger) : l.main.size = l.headIndex + 1 := by
  have pos := l.main_pos
  unfold headIndex
  omega

/-- The head is at its position. -/
theorem getElem?_headIndex (l : ChainLedger) : l.main[l.headIndex]? = some l.head := by
  have last : l.headIndex < l.main.size := by
    have size := l.size_main
    omega
  rw [Array.getElem?_eq_getElem last]
  rfl

/-! ## Linearity -/

/-- The main chain is numbered by position, and its blocks are those that are stored. -/
structure Linear (l : ChainLedger) : Prop where
  height : ∀ {i : Nat} {id : BlockId}, l.main[i]? = some id → id.number.toNat = i ∧ id.Faithful
  stored : ∀ hash : Hash, l.blocks.contains hash = true ↔ ∃ id ∈ l.main, id.hash = hash

/-- A ledger becomes another one that is linear, and loses nothing. -/
structure Grows (l l' : ChainLedger) : Prop where
  linear : l'.Linear
  stored : ∀ hash : Hash, l.blocks.contains hash = true → l'.blocks.contains hash = true
  head : l.head.number.toNat ≤ l'.head.number.toNat

/-- What is stored after the chain is extended. -/
theorem contains_extend {l : ChainLedger} {b : Block} {hash : Hash} :
    (l.extend b).blocks.contains hash = true ↔
      b.id.hash = hash ∨ l.blocks.contains hash = true := by
  simp [extend, Std.TreeMap.contains_insert]

/-- A block that is applied and not refused is stored. -/
theorem contains_of_applyBlock {l l' : ChainLedger} {b : Block} {transactions : List Hash}
    (done : l.applyBlock b = .ok (.ok transactions, l')) :
    l'.blocks.contains b.id.hash = true := by
  rcases applyBlock_cases done with ⟨rfl, held⟩ | ⟨-, rfl, -⟩
  · exact held transactions rfl
  · exact contains_extend.2 (.inl rfl)

namespace Linear

variable {l : ChainLedger}

/-- The height of the head is the last position. -/
theorem head_height (h : l.Linear) : l.head.number.toNat = l.main.size - 1 :=
  (h.height l.getElem?_headIndex).1

/-- The main chain holds a stored block at its height. -/
theorem exists_at_height (h : l.Linear) {id : BlockId} (faithful : id.Faithful)
    (stored : l.blocks.contains id.hash = true) :
    ∃ other, l.main[id.number.toNat]? = some other ∧ other.hash = id.hash := by
  obtain ⟨other, mem, same⟩ := (h.stored id.hash).1 stored
  obtain ⟨i, found⟩ := Array.getElem?_of_mem mem
  obtain ⟨height, faithful'⟩ := h.height found
  -- equal hashes carry equal heights
  have number : id.number = other.number := by rw [← faithful, ← faithful', same]
  rw [number, height]
  exact ⟨other, found, same⟩

/-- Stored blocks are not above the head. -/
theorem height_le (h : l.Linear) {id : BlockId} (faithful : id.Faithful)
    (stored : l.blocks.contains id.hash = true) : id.number.toNat ≤ l.head.number.toNat := by
  obtain ⟨other, found, -⟩ := h.exists_at_height faithful stored
  obtain ⟨lt, -⟩ := Array.getElem?_eq_some_iff.1 found
  rw [h.head_height]
  omega

/-- A ledger with the same blocks is linear, and has lost nothing. -/
theorem grows_of_same {l' : ChainLedger} (h : l.Linear) (main : l'.main = l.main)
    (blocks : l'.blocks = l.blocks) : l.Grows l' where
  linear := ⟨by rw [main]; exact h.height, by rw [main, blocks]; exact h.stored⟩
  stored := by rw [blocks]; exact fun _ stored => stored
  head := by simp only [head, main, Nat.le_refl]

/-- The block on top of the head extends a linear ledger. -/
theorem grows_extend {b : Block} (h : l.Linear)
    (next : b.number.toNat = l.head.number.toNat + 1) : l.Grows (l.extend b) := by
  have pos := l.main_pos
  have top := h.head_height
  have main : (l.extend b).main = l.main.push b.id := rfl
  have linear : (l.extend b).Linear := by
    constructor
    · intro i id eq
      rw [main, Array.getElem?_push] at eq
      split at eq
      next last =>
        cases eq
        refine ⟨?_, b.faithful_id⟩
        rw [b.number_id, last]
        omega
      next => exact h.height eq
    · intro hash
      rw [contains_extend, h.stored, main]
      constructor
      · rintro (same | ⟨id, mem, same⟩)
        · exact ⟨b.id, Array.mem_push_self, same⟩
        · exact ⟨id, Array.mem_push_of_mem _ mem, same⟩
      · rintro ⟨id, mem, same⟩
        rcases Array.mem_push.1 mem with mem | rfl
        · exact .inr ⟨id, mem, same⟩
        · exact .inl same
  refine ⟨linear, fun hash stored => contains_extend.2 (.inr stored), ?_⟩
  rw [linear.head_height, top, main, Array.size_push]
  omega

/-- The ledger that holds only a block of height zero is linear. -/
theorem ofGenesis {genesis : Block} (zero : genesis.number = 0) (solidifyDepth batch : Nat) :
    (ChainLedger.ofGenesis genesis solidifyDepth batch).Linear := by
  constructor
  · intro i id eq
    have first : i = 0 ∧ genesis.id = id := by
      simpa [ChainLedger.ofGenesis, List.getElem?_cons] using eq
    obtain ⟨rfl, rfl⟩ := first
    exact ⟨by rw [genesis.number_id, zero]; rfl, genesis.faithful_id⟩
  · intro hash
    simp [ChainLedger.ofGenesis]

end Linear

/-! ## Calls by other hands -/

/-- One call that may change a ledger. -/
inductive Call (l : ChainLedger) : ChainLedger → Prop where
  /-- A block is applied. -/
  | applyBlock {l' : ChainLedger} {b : Block} {r : Except Refusal (List Hash)} :
    l.applyBlock b = .ok (r, l') → Call l l'
  /-- A block is produced. -/
  | produce {l' : ChainLedger} {timestamp witness : UInt64} {transactions : List Transaction}
    {r : Except Refusal Block} :
    l.produce timestamp witness transactions = .ok (r, l') → Call l l'
  /-- A transaction is applied. -/
  | applyTransaction (t : Transaction) : Call l (l.applyTransaction t).2
  /-- A hash is forbidden. -/
  | forbid (hash : Hash) : Call l (l.forbid hash)
  /-- Progress is reported. -/
  | noteProgress (remaining : Nat) : Call l (l.noteProgress remaining)

/-- What is reached by calls, one after the other. -/
def Calls : ChainLedger → ChainLedger → Prop := Relation.ReflTransGen Call

/-- The main chain and the blocks stay the same, and what never changes. -/
structure SameChain (l l' : ChainLedger) : Prop where
  genesis : l'.genesis = l.genesis
  main : l'.main = l.main
  blocks : l'.blocks = l.blocks
  batch : l'.batch = l.batch

/-- Applying a transaction leaves the blocks alone. -/
theorem sameChain_applyTransaction (l : ChainLedger) (t : Transaction) :
    l.SameChain (l.applyTransaction t).2 := by
  unfold applyTransaction
  dsimp only
  split
  · exact ⟨rfl, rfl, rfl, rfl⟩
  · split <;> exact ⟨rfl, rfl, rfl, rfl⟩

/-- **What a call does to the chain.**  Nothing, or a new block is put on top of the head. -/
theorem call_cases {l l' : ChainLedger} (call : l.Call l') :
    l.SameChain l' ∨ ∃ b, l' = l.extend b ∧ l.blocks.contains b.id.hash = false ∧
      b.number.toNat = l.head.number.toNat + 1 ∧ b.parent = l.head.hash := by
  have apply {l' : ChainLedger} {b : Block} {r : Except Refusal (List Hash)}
      (done : l.applyBlock b = .ok (r, l')) :
      l.SameChain l' ∨ ∃ b, l' = l.extend b ∧ l.blocks.contains b.id.hash = false ∧
        b.number.toNat = l.head.number.toNat + 1 ∧ b.parent = l.head.hash := by
    rcases applyBlock_cases done with ⟨rfl, -⟩ | ⟨-, extended, new, parent, next⟩
    · exact .inl ⟨rfl, rfl, rfl, rfl⟩
    · exact .inr ⟨b, extended, new, next, parent⟩
  cases call with
  | applyBlock done => exact apply done
  | produce done =>
    obtain ⟨b, -, done⟩ := Checked.bind_eq_ok_iff.1 done
    obtain ⟨⟨r, l₁⟩, applied, done⟩ := Checked.bind_eq_ok_iff.1 done
    cases done
    exact apply applied
  | applyTransaction t => exact .inl (l.sameChain_applyTransaction t)
  | forbid => exact .inl ⟨rfl, rfl, rfl, rfl⟩
  | noteProgress => exact .inl ⟨rfl, rfl, rfl, rfl⟩

/-- Growing first and growing later is growing. -/
theorem Grows.trans {l l₁ l₂ : ChainLedger} (h : l.Grows l₁) (h' : l₁.Grows l₂) : l.Grows l₂ :=
  ⟨h'.linear, fun hash stored => h'.stored hash (h.stored hash stored),
    Nat.le_trans h.head h'.head⟩

/-- **Every call makes a linear ledger grow.** -/
theorem Linear.grows_call {l l' : ChainLedger} (h : l.Linear) (call : l.Call l') :
    l.Grows l' := by
  rcases call_cases call with same | ⟨b, rfl, -, next, -⟩
  · exact h.grows_of_same same.main same.blocks
  · exact h.grows_extend next

/-- Any number of calls makes a linear ledger grow. -/
theorem Linear.grows_calls {l l' : ChainLedger} (h : l.Linear) (calls : l.Calls l') :
    l.Grows l' := by
  induction calls with
  | refl => exact h.grows_of_same rfl rfl
  | tail _ call ih => exact ih.trans (ih.linear.grows_call call)

/-! ## What calls leave alone -/

/-- Whether every block is stored under its own hash. -/
def Filed (l : ChainLedger) : Prop := ∀ (hash : Hash) (b : Block), l.blocks[hash]? = some b →
  b.id.hash = hash

/-- A block that is stored under its own hash leaves all blocks under their own hashes. -/
theorem Filed.insert {l l' : ChainLedger} {b : Block} (h : l.Filed)
    (blocks : l'.blocks = l.blocks.insert b.id.hash b) : l'.Filed := by
  intro hash found eq
  rw [blocks, Std.TreeMap.getElem?_insert] at eq
  split at eq
  next same =>
    cases eq
    exact Std.LawfulEqCmp.eq_of_compare same
  next => exact h hash found eq

/-- The ledger that holds only one block stores it under its hash. -/
theorem Filed.ofGenesis (genesis : Block) (solidifyDepth batch : Nat) :
    (ChainLedger.ofGenesis genesis solidifyDepth batch).Filed := by
  intro hash b eq
  change ((∅ : Std.TreeMap Hash Block).insert genesis.id.hash genesis)[hash]? = some b at eq
  rw [Std.TreeMap.getElem?_insert] at eq
  split at eq
  next same =>
    cases eq
    exact Std.LawfulEqCmp.eq_of_compare same
  next => simp at eq

/-- Any number of calls leaves all blocks under their own hashes. -/
theorem Filed.calls {l l' : ChainLedger} (h : l.Filed) (calls : l.Calls l') : l'.Filed := by
  induction calls with
  | refl => exact h
  | tail _ call ih =>
    rcases call_cases call with same | ⟨b, rfl, -⟩
    · unfold Filed
      rw [same.blocks]
      exact ih
    · exact ih.insert rfl

/-- Whether every transaction is stored under its own hash. -/
def FilesTransactions (l : ChainLedger) : Prop :=
  ∀ (hash : Hash) (t : Transaction), l.transactions[hash]? = some t → t.hash = hash

namespace FilesTransactions

variable {l l' : ChainLedger}

/-- The ledger that holds only one block stores no transaction. -/
theorem ofGenesis (genesis : Block) (solidifyDepth batch : Nat) :
    (ChainLedger.ofGenesis genesis solidifyDepth batch).FilesTransactions := by
  intro hash t found
  change (∅ : Std.TreeMap Hash Transaction)[hash]? = some t at found
  simp at found

/-- A block on top stores its transactions under their own hashes. -/
theorem extend (h : l.FilesTransactions) (b : Block) : (l.extend b).FilesTransactions := by
  intro hash t found
  change (b.transactions.foldl (fun m t => m.insert t.hash t) l.transactions)[hash]? = some t
    at found
  rcases getElem?_foldl_insert found with old | ⟨-, same⟩
  · exact h hash t old
  · exact same

/-- A transaction that is applied is stored under its own hash. -/
theorem applyTransaction (h : l.FilesTransactions) (t : Transaction) :
    (l.applyTransaction t).2.FilesTransactions := by
  unfold ChainLedger.applyTransaction
  dsimp only
  split
  next => exact h
  next =>
    split
    next => exact h
    next =>
      intro hash t' found
      dsimp only at found
      rw [Std.TreeMap.getElem?_insert] at found
      split at found
      next same =>
        cases found
        exact Std.LawfulEqCmp.eq_of_compare same
      next => exact h hash t' found

/-- Every call leaves the transactions under their own hashes. -/
theorem call (h : l.FilesTransactions) (call : l.Call l') : l'.FilesTransactions := by
  cases call with
  | applyBlock done =>
    rcases applyBlock_cases done with ⟨rfl, -⟩ | ⟨-, rfl, -⟩
    · exact h
    · exact h.extend _
  | produce done =>
    obtain ⟨b, -, done⟩ := Checked.bind_eq_ok_iff.1 done
    obtain ⟨⟨r, l₁⟩, applied, done⟩ := Checked.bind_eq_ok_iff.1 done
    cases done
    rcases applyBlock_cases applied with ⟨rfl, -⟩ | ⟨-, rfl, -⟩
    · exact h
    · exact h.extend b
  | applyTransaction t => exact h.applyTransaction t
  | forbid => exact h
  | noteProgress => exact h

/-- Any number of calls does. -/
theorem calls (h : l.FilesTransactions) (calls : l.Calls l') : l'.FilesTransactions := by
  induction calls with
  | refl => exact h
  | tail _ call ih => exact ih.call call

end FilesTransactions

/-- No call changes the genesis block, or the limit of an answer. -/
theorem fixed_calls {l l' : ChainLedger} (calls : l.Calls l') :
    l'.genesis = l.genesis ∧ l'.batch = l.batch := by
  induction calls with
  | refl => exact ⟨rfl, rfl⟩
  | tail _ call ih =>
    rcases call_cases call with same | ⟨b, rfl, -⟩
    · exact ⟨same.genesis.trans ih.1, same.batch.trans ih.2⟩
    · exact ih

/-! ## Summaries -/

/-- What is known at a position is on the main chain or pending. -/
theorem mem_of_knownAt? {l : ChainLedger} {high position : Nat} {pending : List BlockId}
    {id : BlockId} (h : l.knownAt? high pending position = some id) :
    id ∈ l.main ∨ id ∈ pending := by
  unfold knownAt? at h
  split at h
  · exact .inl (Array.mem_of_getElem? h)
  · exact .inr (List.mem_of_getElem? h)

/-- The last position of a chain and what is pending is known. -/
theorem isSome_knownAt?_last {l : ChainLedger} {high : Nat} (pending : List BlockId)
    (known : high < l.main.size) :
    (l.knownAt? high pending (high + pending.length)).isSome = true := by
  unfold knownAt?
  split
  · rw [Array.getElem?_eq_getElem (by omega)]
    rfl
  · rw [List.getElem?_eq_getElem (by omega)]
    rfl

/-- A summary goes over a list of distances down to zero. -/
theorem sampleChain_cases {l : ChainLedger} {shared : BlockId} {pending ids : List BlockId}
    (done : l.sampleChain shared pending = .ok ids) :
    ∃ high, high < l.main.size ∧
      ids = (summaryDistances (high + pending.length - min l.solidified.number.toNat high)).filterMap
        fun d => l.knownAt? high pending (high + pending.length - d) := by
  have size := l.size_main
  unfold sampleChain at done
  dsimp only at done
  split at done
  next =>
    cases done
    exact ⟨l.headIndex, by omega, rfl⟩
  next =>
    split at done
    next onMain =>
      cases done
      obtain ⟨id, eq, -⟩ := (Option.any_eq_true _ _).1 onMain
      exact ⟨_, (Array.getElem?_eq_some_iff.1 eq).1, rfl⟩
    next => cases done

/-- **What a summary names.**  A summary is not empty, and names blocks of the main chain and
pending ones. -/
theorem sampleChain_eq_ok {l : ChainLedger} {shared : BlockId} {pending ids : List BlockId}
    (done : l.sampleChain shared pending = .ok ids) :
    ids ≠ [] ∧ ∀ id ∈ ids, id ∈ l.main ∨ id ∈ pending := by
  obtain ⟨high, known, rfl⟩ := sampleChain_cases done
  constructor
  · obtain ⟨id, last⟩ := Option.isSome_iff_exists.1 (isSome_knownAt?_last pending known)
    have zero := List.mem_of_getLast? (getLast_summaryDistances
      (high + pending.length - min l.solidified.number.toNat high))
    exact List.ne_nil_of_mem (List.mem_filterMap.2 ⟨0, zero, last⟩)
  · intro id mem
    obtain ⟨d, -, found⟩ := List.mem_filterMap.1 mem
    exact mem_of_knownAt? found

/-- A summary starts with a block of the main chain. -/
theorem head?_sampleChain {l : ChainLedger} {shared : BlockId} {pending ids : List BlockId}
    (done : l.sampleChain shared pending = .ok ids) :
    ∃ first, ids.head? = some first ∧ first ∈ l.main := by
  obtain ⟨high, known, rfl⟩ := sampleChain_cases done
  have first : min l.solidified.number.toNat high < l.main.size := by omega
  obtain ⟨rest, eq⟩ := List.head?_eq_some_iff.1 (head_summaryDistances
    (high + pending.length - min l.solidified.number.toNat high))
  refine ⟨l.main[min l.solidified.number.toNat high], ?_, Array.getElem_mem first⟩
  -- the greatest distance leads to the solidified block, or to the shared one
  have start : high + pending.length - (high + pending.length - min l.solidified.number.toNat high) =
      min l.solidified.number.toNat high := by omega
  have found : l.knownAt? high pending (min l.solidified.number.toNat high) =
      some l.main[min l.solidified.number.toNat high] := by
    rw [knownAt?, if_pos (Nat.min_le_right ..), Array.getElem?_eq_getElem first]
  rw [eq, List.filterMap_cons, start, found]
  rfl

end BlockRelay.ChainLedger
