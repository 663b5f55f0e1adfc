/-
# Ledgers

The contract between the engine and the chain that it feeds.  A ledger is any type
of states with these operations; the engine neither knows nor cares how blocks are
stored and judged.

An operation that changes the ledger returns the new state, also when it refuses
the object.  The outer `Checked` of an operation is an abort, the inner `Except`
a refusal.
-/
import BlockRelay.Refusal

namespace BlockRelay

/-- A type of ledger states. -/
class Ledger (σ : Type) where
  /-- Apply a block, received during catch-up or not; the answer lists its transactions. -/
  applyBlock : σ → Block → Bool → Checked (Except Refusal (List Hash) × σ)
  /-- Apply a transaction; the answer says whether it is new and worth relaying. -/
  applyTransaction : σ → Transaction → Except Refusal Bool × σ
  /-- Whether a block is stored. -/
  containsBlock : σ → BlockId → Bool
  /-- The stored block with a hash. -/
  block? : σ → Hash → Option Block
  /-- The stored transaction with a hash. -/
  transaction? : σ → Hash → Option Transaction
  /-- The newest block of the main chain. -/
  head : σ → BlockId
  /-- The first block of the main chain. -/
  genesis : σ → Block
  /-- The newest block that will never be revoked. -/
  solidified : σ → BlockId
  /-- The timestamp of a stored block. -/
  timestamp? : σ → BlockId → Option UInt64
  /-- A sparse sample of the chain from the solidified block to a shared block, and on
  through the blocks that are pending after it. -/
  sampleChain : σ → BlockId → List BlockId → Except Refusal (List BlockId)
  /-- The blocks that follow the newest entry of a summary that is on the main chain. -/
  idsBeyond : σ → List BlockId → Checked (Except Refusal (List BlockId))
  /-- Whether the chain can still be rewound to a height. -/
  canRewindTo : σ → UInt64 → Bool
  /-- Take note of how many blocks are still to be fetched. -/
  noteProgress : σ → Nat → σ

end BlockRelay
