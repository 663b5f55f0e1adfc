/-
# Transactions, block identities and blocks

A transaction is an opaque payload with a timestamp.  A block names its parent by
hash and carries transactions; its identity, `BlockId`, pairs its hash with its
height.  The hash of a block is the digest of its encoding with the height stamped
into the leading word.

The height appears twice in a `BlockId`, as a field and inside the hash.  Two
identities are the same block when the hashes agree, whatever the fields say.
-/
import BlockRelay.Checked
import BlockRelay.Item

namespace BlockRelay

/-- A transaction: an opaque payload and the time of its creation in milliseconds. -/
structure Transaction where
  payload : List UInt8
  timestamp : UInt64
  deriving DecidableEq, Repr, Inhabited

namespace Transaction

/-- The byte string whose digest identifies a transaction. -/
def encoding (t : Transaction) : List UInt8 := Hex.wordBytes t.timestamp ++ t.payload

/-- The hash of a transaction. -/
def hash (t : Transaction) : Hash := Hash.digest t.encoding

/-- The item that names a transaction. -/
def item (t : Transaction) : Item := Item.transaction t.hash

/-- The size of a transaction on the wire: the payload with its length, and the timestamp. -/
def wireSize (t : Transaction) : Nat := 16 + t.payload.length

end Transaction

/-- The identity of a block: its hash and its height. -/
structure BlockId where
  hash : Hash
  number : UInt64
  deriving DecidableEq, Repr, Inhabited

namespace BlockId

/-- The identity of the block with the given digest at the given height. -/
def ofDigest (digest : Hash) (number : UInt64) : BlockId := ⟨digest.stamp number, number⟩

/-- The identity that a bare block hash stands for. -/
def ofHash (hash : Hash) : BlockId := ⟨hash, hash.height⟩

/-- The item that names the block. -/
def item (id : BlockId) : Item := Item.block id.hash

/-- Whether two identities name the same block: the heights that they claim do not matter. -/
def same (a b : BlockId) : Bool := a.hash = b.hash

/-- Whether a list names the same block as an identity. -/
def isIn (id : BlockId) (ids : List BlockId) : Bool := ids.any id.same

/-- An identity is faithful when its field repeats the height in its hash. -/
def Faithful (id : BlockId) : Prop := id.hash.height = id.number

instance (id : BlockId) : Decidable id.Faithful :=
  inferInstanceAs (Decidable (_ = _))

/-- Two identities are the same block exactly when their hashes agree. -/
@[simp] theorem same_iff {a b : BlockId} : a.same b = true ↔ a.hash = b.hash := by
  simp [same]

/-- A list names a block exactly when one of its members has the hash of the block. -/
@[simp] theorem isIn_iff {id : BlockId} {ids : List BlockId} :
    id.isIn ids = true ↔ ∃ other ∈ ids, id.hash = other.hash := by
  simp [isIn]

/-- An identity built from a digest is faithful. -/
theorem faithful_ofDigest (d : Hash) (n : UInt64) : (ofDigest d n).Faithful := rfl

/-- An identity built from a hash is faithful. -/
theorem faithful_ofHash (h : Hash) : (ofHash h).Faithful := rfl

/-- A faithful identity is determined by its hash. -/
theorem Faithful.eq_ofHash {id : BlockId} (h : id.Faithful) : id = ofHash id.hash := by
  cases id; simp_all [Faithful, ofHash]

/-- The text of an identity: the height, and the second word of the hash. -/
def text (id : BlockId) : String :=
  "#" ++ toString id.number.toNat ++ ":" ++ String.ofList (Hex.word id.hash.second)

/-- The text of an identity, marked as one. -/
def label (id : BlockId) : String := "BlockId(" ++ id.text ++ ")"

end BlockId

/-- A block of transactions.  The witness is the identity of its producer. -/
structure Block where
  number : UInt64
  parent : Hash
  timestamp : UInt64
  witness : UInt64
  transactions : List Transaction
  deriving DecidableEq, Repr, Inhabited

namespace Block

/-- The first block of a chain. -/
def genesis (timestamp : UInt64) : Block := ⟨0, Hash.zero, timestamp, 0, []⟩

/-- The block on top of `parent`; it aborts when the parent has the largest height. -/
def following (parent : BlockId) (timestamp witness : UInt64) (transactions : List Transaction) :
    Checked Block := do
  let number ← Checked.succ parent.number
  return ⟨number, parent.hash, timestamp, witness, transactions⟩

/-- The hashes of the transactions that a block carries. -/
def transactionHashes (b : Block) : List Hash := b.transactions.map Transaction.hash

/-- The byte string whose digest identifies a block. -/
def encoding (b : Block) : List UInt8 :=
  Hex.wordBytes b.number ++ b.parent.bytes ++ Hex.wordBytes b.timestamp ++
    Hex.wordBytes b.witness ++ b.transactionHashes.flatMap Hash.bytes

/-- The identity of a block: the digest of its encoding, stamped with its height. -/
def id (b : Block) : BlockId := BlockId.ofDigest (Hash.digest b.encoding) b.number

/-- The block at a height of a chain that carries no transactions. -/
def bare : Nat → Block
  | 0 => genesis 0
  | n + 1 =>
    let parent := bare n
    ⟨parent.number + 1, parent.id.hash, parent.timestamp + 3000, 1, []⟩

/-- The identity of the parent. -/
def parentId (b : Block) : BlockId := BlockId.ofHash b.parent

/-- A block has the height that its identity says. -/
@[simp] theorem number_id (b : Block) : b.id.number = b.number := rfl

/-- The hash of a block carries its height. -/
@[simp] theorem height_id (b : Block) : b.id.hash.height = b.number := rfl

/-- The identity of a block is faithful. -/
theorem faithful_id (b : Block) : b.id.Faithful := rfl

/-- A child names its parent by hash and stands one above it. -/
theorem following_eq_ok_iff {parent : BlockId} {t w : UInt64} {txs : List Transaction} {b : Block} :
    following parent t w txs = .ok b ↔
      b = ⟨parent.number + 1, parent.hash, t, w, txs⟩ ∧ parent.number.toNat < maxWord := by
  unfold following Checked.succ
  split <;> simp_all [bind, Except.bind, pure, Except.pure, eq_comm]

end Block

end BlockRelay
