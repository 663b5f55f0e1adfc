/-
# A ledger in memory

A linear main chain that grows at its head.  A block that does not extend the head
is refused: as a fork when its parent is stored, as unlinked when it is not.

The summary of a chain takes its entries at distances from the end that shrink by
half at every step (`summaryDistances`), and always reaches the end.
-/
import BlockRelay.Ledger

namespace BlockRelay

/-- A ledger that holds one chain in memory. -/
structure ChainLedger where
  genesis : Block
  /-- The identities of the main chain, lowest first. -/
  main : Array BlockId
  main_pos : 0 < main.size
  blocks : Std.TreeMap Hash Block
  transactions : Std.TreeMap Hash Transaction
  /-- Blocks and transactions that fail validation. -/
  invalid : Std.TreeSet Hash
  /-- How far the solidified block trails the head. -/
  solidifyDepth : Nat
  /-- How many blocks a reply to a summary may add. -/
  batch : Nat
  /-- The progress that was reported last. -/
  lastProgress : Option Nat
  /-- How often progress was reported. -/
  progressReports : Nat

namespace ChainLedger

/-- How many blocks a reply to a summary may add, unless a ledger is told otherwise. -/
def defaultBatch : Nat := 2000

/-- The ledger that holds only a genesis block. -/
def ofGenesis (genesis : Block) (solidifyDepth batch : Nat) : ChainLedger where
  genesis := genesis
  main := #[genesis.id]
  main_pos := Nat.one_pos
  blocks := (∅ : Std.TreeMap Hash Block).insert genesis.id.hash genesis
  transactions := ∅
  invalid := ∅
  solidifyDepth := solidifyDepth
  batch := max batch 1
  lastProgress := none
  progressReports := 0

/-! ## The main chain -/

/-- The position of the head in the main chain. -/
def headIndex (l : ChainLedger) : Nat := l.main.size - 1

/-- The newest block. -/
def head (l : ChainLedger) : BlockId := l.main.back l.main_pos

/-- The oldest block. -/
def first (l : ChainLedger) : BlockId :=
  have := l.main_pos
  l.main[0]

/-- The newest block that is at least `solidifyDepth` below the head, or the first one. -/
def solidified (l : ChainLedger) : BlockId :=
  have : l.headIndex - l.solidifyDepth < l.main.size := by
    have := l.main_pos
    unfold headIndex
    omega
  l.main[l.headIndex - l.solidifyDepth]

/-- The block at a position of the main chain. -/
def blockAt? (l : ChainLedger) (position : Nat) : Option Block :=
  (l.main[position]?).bind fun id => l.blocks[id.hash]?

/-- Whether an identity names the block that the main chain has at its height. -/
def onMain (l : ChainLedger) (id : BlockId) : Bool :=
  (l.main[id.number.toNat]?).any id.same

/-! ## Applying -/

/-- Make every later application of a hash fail. -/
def forbid (l : ChainLedger) (hash : Hash) : ChainLedger :=
  { l with invalid := l.invalid.insert hash }

/-- Store a block on top of the main chain. -/
def extend (l : ChainLedger) (b : Block) : ChainLedger :=
  { l with
    main := l.main.push b.id
    main_pos := by simp
    blocks := l.blocks.insert b.id.hash b
    transactions := b.transactions.foldl (fun m t => m.insert t.hash t) l.transactions }

/-- Apply a block.  It must extend the head, by parent and by height. -/
def applyBlock (l : ChainLedger) (b : Block) :
    Checked (Except Refusal (List Hash) × ChainLedger) :=
  let id := b.id
  if l.invalid.contains id.hash then
    .ok (.error (.badBlock (id.text ++ " rejected by validation")), l)
  else
    match b.transactionHashes.find? l.invalid.contains with
    | some t => .ok (.error (.badBlock (id.text ++ " carries invalid tx " ++ t.text)), l)
    | none =>
      if l.blocks.contains id.hash then .ok (.ok [], l)
      else if b.parent ≠ l.head.hash then
        if l.blocks.contains b.parent then
          .ok (.error (.nonCommonAncestor (id.text ++ " forks below head " ++ l.head.text)), l)
        else
          .ok (.error (.unlinkedBlock (id.text ++ " parent unknown, head " ++ l.head.text)), l)
      else do
        let next ← Checked.succ l.head.number
        if b.number ≠ next then
          let detail := id.text ++ " height does not follow parent " ++ l.head.text
          return (.error (.badBlock detail), l)
        else return (.ok b.transactionHashes, l.extend b)

/-- Apply a transaction; one that is stored already is not new. -/
def applyTransaction (l : ChainLedger) (t : Transaction) : Except Refusal Bool × ChainLedger :=
  let hash := t.hash
  if l.invalid.contains hash then
    (.error (.badTransaction (hash.text ++ " rejected by validation")), l)
  else if l.transactions.contains hash then (.ok false, l)
  else (.ok true, { l with transactions := l.transactions.insert hash t })

/-- Build a block on top of the head and apply it. -/
def produce (l : ChainLedger) (timestamp witness : UInt64) (transactions : List Transaction) :
    Checked (Except Refusal Block × ChainLedger) := do
  let b ← Block.following l.head timestamp witness transactions
  let (result, l) ← l.applyBlock b
  return (result.map fun _ => b, l)

/-! ## Summaries -/

/-- The distances from the end at which a summary samples a chain, from `d` down to zero:
each one is half of what the step before left. -/
def summaryDistances : Nat → List Nat
  | 0 => [0]
  | d + 1 => (d + 1) :: summaryDistances (d / 2)

/-- The identity at a position of the main chain up to `high` followed by `pending`. -/
def knownAt? (l : ChainLedger) (high : Nat) (pending : List BlockId) (position : Nat) :
    Option BlockId :=
  if position ≤ high then l.main[position]? else pending[position - high - 1]?

/-- A sample of the main chain up to a shared block, followed by the pending blocks.  It
starts at the solidified block, or at the shared block if that is lower. -/
def sampleChain (l : ChainLedger) (shared : BlockId) (pending : List BlockId) :
    Except Refusal (List BlockId) :=
  let sample (high : Nat) : List BlockId :=
    let last := high + pending.length
    let distances := summaryDistances (last - min l.solidified.number.toNat high)
    distances.filterMap fun d => l.knownAt? high pending (last - d)
  if shared.same l.first then .ok (sample l.headIndex)
  else if l.onMain shared then .ok (sample shared.number.toNat)
  else .error (.store (shared.text ++ " is not on the main chain"))

/-- The main chain from the newest entry of a summary that is on it, `batch` blocks at most
beyond that entry.  Nothing to go by means from the first block after genesis. -/
def idsBeyond (l : ChainLedger) (summary : List BlockId) : Checked (List BlockId) :=
  if l.headIndex = 0 then .ok []
  else
    let start? := if summary.isEmpty then some 1
      else (summary.reverse.find? l.onMain).map fun id => id.number.toNat
    match start? with
    | none => .ok []
    | some start => do
      let limit ← Checked.add start l.batch
      return (l.main.extract start (min l.headIndex limit + 1)).toList

/-- Whether the chain can still be rewound to a height. -/
def canRewindTo (l : ChainLedger) (number : UInt64) : Bool := l.solidified.number ≤ number

/-- Record a report of progress.  The largest word stands for no report. -/
def noteProgress (l : ChainLedger) (remaining : Nat) : ChainLedger :=
  { l with
    lastProgress := if remaining = maxWord then none else some remaining
    progressReports := l.progressReports + 1 }

instance : Ledger ChainLedger where
  applyBlock l b _ := l.applyBlock b
  applyTransaction := applyTransaction
  containsBlock l id := l.blocks.contains id.hash
  block? l hash := l.blocks[hash]?
  transaction? l hash := l.transactions[hash]?
  head := head
  genesis := genesis
  solidified := solidified
  timestamp? l id := (l.blocks[id.hash]?).map Block.timestamp
  sampleChain := sampleChain
  idsBeyond l summary := (l.idsBeyond summary).map .ok
  canRewindTo := canRewindTo
  noteProgress := noteProgress

/-! ## First facts -/

/-- A summary ends at the end of the chain. -/
theorem getLast_summaryDistances (d : Nat) : (summaryDistances d).getLast? = some 0 := by
  induction d using Nat.strongRecOn with
  | ind d ih =>
    cases d with
    | zero => simp [summaryDistances]
    | succ d =>
      rw [summaryDistances]
      have h := ih (d / 2) (by omega)
      rw [List.getLast?_cons, h]
      rfl

/-- A summary starts at the distance that it is asked to cover. -/
theorem head_summaryDistances (d : Nat) : (summaryDistances d).head? = some d := by
  cases d <;> simp [summaryDistances]

/-- A block that a ledger holds is not applied again. -/
theorem applyBlock_of_contains {l : ChainLedger} {b : Block}
    (valid : l.invalid.contains b.id.hash = false)
    (carried : b.transactionHashes.find? l.invalid.contains = none)
    (held : l.blocks.contains b.id.hash = true) : l.applyBlock b = .ok (.ok [], l) := by
  simp [applyBlock, valid, carried, held]

/-- **Applying a block.**  The ledger stays as it is, and then it does not accept the block unless
it holds it; or the block, which it does not hold, is put on top of the head. -/
theorem applyBlock_cases {l l' : ChainLedger} {b : Block} {r : Except Refusal (List Hash)}
    (done : l.applyBlock b = .ok (r, l')) :
    (l' = l ∧ ∀ transactions, r = .ok transactions → l.blocks.contains b.id.hash = true) ∨
      (r = .ok b.transactionHashes ∧ l' = l.extend b ∧ l.blocks.contains b.id.hash = false ∧
        b.parent = l.head.hash ∧ b.number.toNat = l.head.number.toNat + 1) := by
  unfold applyBlock at done
  dsimp only at done
  split at done
  next =>
    cases done
    exact .inl ⟨rfl, nofun⟩
  next =>
    split at done
    next =>
      cases done
      exact .inl ⟨rfl, nofun⟩
    next =>
      split at done
      next held =>
        cases done
        exact .inl ⟨rfl, fun _ _ => held⟩
      next new =>
        split at done
        next => split at done <;> cases done <;> exact .inl ⟨rfl, nofun⟩
        next parent =>
          obtain ⟨next, succ, done⟩ := Checked.bind_eq_ok_iff.1 done
          obtain ⟨rfl, small⟩ := Checked.succ_eq_ok_iff.1 succ
          split at done
          next =>
            cases done
            exact .inl ⟨rfl, nofun⟩
          next fits =>
            cases done
            refine .inr ⟨rfl, rfl, Bool.eq_false_iff.2 new, Decidable.of_not_not parent, ?_⟩
            -- the height of the head was checked not to overflow
            have bound : l.head.number.toNat + 1 < 2 ^ 64 := by
              unfold maxWord wordBound at small
              omega
            rw [Decidable.of_not_not fits, UInt64.toNat_add]
            exact Nat.mod_eq_of_lt bound

end ChainLedger

end BlockRelay
