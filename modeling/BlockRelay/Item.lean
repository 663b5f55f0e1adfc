/-
# Announced items

Peers announce and request objects by `Item`: a hash together with the kind of
object it names.  A batch of items travels blocks first, in ascending order of
the height that the hash carries, and transactions after every block in the order
in which they were listed (`Item.inDeliveryOrder`).
-/
import BlockRelay.Hash

namespace BlockRelay

/-- The kinds of objects that peers exchange, in order of fetch priority. -/
inductive ItemKind where
  | block
  | transaction
  deriving DecidableEq, Repr, Inhabited

namespace ItemKind

/-- The fetch priority of a kind: the lower the rank, the sooner it is fetched. -/
def rank : ItemKind → Nat
  | .block => 0
  | .transaction => 1

/-- Different kinds have different ranks. -/
theorem rank_inj {j k : ItemKind} : j.rank = k.rank ↔ j = k := by
  cases j <;> cases k <;> simp [rank]

/-- The name of a kind. -/
def label : ItemKind → String
  | .block => "block"
  | .transaction => "transaction"

instance : Ord ItemKind where
  compare := compareOn rank

instance : Std.TransOrd ItemKind := inferInstanceAs (Std.TransCmp (compareOn rank))

instance : Std.LawfulEqOrd ItemKind where
  compare_self := Std.ReflCmp.compare_self
  eq_of_compare {j k} h :=
    have h : compare j.rank k.rank = .eq := h
    rank_inj.1 (Std.LawfulEqCmp.eq_of_compare h)

end ItemKind

/-- An object as peers name it: its hash and its kind. -/
structure Item where
  hash : Hash
  kind : ItemKind
  deriving DecidableEq, Repr, Inhabited

namespace Item

/-- The block with the given hash. -/
def block (hash : Hash) : Item := ⟨hash, .block⟩

/-- The transaction with the given hash. -/
def transaction (hash : Hash) : Item := ⟨hash, .transaction⟩

/-- The item of a block carries the hash of the block. -/
@[simp] theorem hash_block (h : Hash) : (block h).hash = h := rfl

/-- The item of a block is a block. -/
@[simp] theorem kind_block (h : Hash) : (block h).kind = .block := rfl

/-- The item of a transaction carries the hash of the transaction. -/
@[simp] theorem hash_transaction (h : Hash) : (transaction h).hash = h := rfl

/-- The item of a transaction is a transaction. -/
@[simp] theorem kind_transaction (h : Hash) : (transaction h).kind = .transaction := rfl

/-- An item of a block is the one that carries its hash. -/
theorem block_hash {i : Item} (h : i.kind = .block) : block i.hash = i := by
  rw [block, ← h]

/-- An item of a transaction is the one that carries its hash. -/
theorem transaction_hash {i : Item} (h : i.kind = .transaction) : transaction i.hash = i := by
  rw [transaction, ← h]

/-- Items are ordered by kind, and by hash within a kind. -/
instance : Ord Item where
  compare := compareLex (compareOn kind) (compareOn hash)

instance : Std.TransOrd Item :=
  inferInstanceAs (Std.TransCmp (compareLex (compareOn kind) (compareOn hash)))

instance : Std.LawfulEqOrd Item where
  compare_self := Std.ReflCmp.compare_self
  eq_of_compare {a b} h := by
    have h : compareLex (compareOn kind) (compareOn hash) a b = .eq := h
    simp only [compareLex_eq_eq, compareOn, Std.LawfulEqCmp.compare_eq_iff_eq] at h
    obtain ⟨hk, hh⟩ := h
    cases a; cases b
    rw [mk.injEq]
    exact ⟨hh, hk⟩

/-! ## Delivery order -/

/-- The place of an item in a delivery: blocks by height, and every transaction at one
place after every possible height. -/
def deliveryRank (i : Item) : Nat :=
  match i.kind with
  | .block => i.hash.height.toNat
  | .transaction => 0x10000000000000000

/-- A block precedes every transaction. -/
theorem deliveryRank_block_lt (g h : Hash) :
    (block g).deliveryRank < (transaction h).deliveryRank :=
  g.height.toNat_lt

/-- The items of a batch in the order in which they are delivered; items of one rank
keep the order in which they were listed. -/
def inDeliveryOrder (items : List Item) : List Item :=
  items.mergeSort fun i j => i.deliveryRank ≤ j.deliveryRank

/-- Ordering a batch neither adds nor loses an item. -/
theorem inDeliveryOrder_perm (items : List Item) : (inDeliveryOrder items).Perm items :=
  List.mergeSort_perm items _

/-- In delivery order the ranks ascend. -/
theorem pairwise_inDeliveryOrder (items : List Item) :
    (inDeliveryOrder items).Pairwise fun i j => i.deliveryRank ≤ j.deliveryRank := by
  let le (i j : Item) : Bool := i.deliveryRank ≤ j.deliveryRank
  have le_trans (a b c : Item) (hab : le a b) (hbc : le b c) : le a c := by
    simp_all [le]
    omega
  have le_total (a b : Item) : le a b || le b a := by
    simp [le]
    omega
  simpa [inDeliveryOrder, le] using List.pairwise_mergeSort le_trans le_total items

/-- Whether one item may stand before another one in a delivery: nothing but a block of at most
the same height stands before a block. -/
def MayPrecede (i j : Item) : Prop :=
  j.kind = .block → i.kind = .block ∧ i.hash.height ≤ j.hash.height

/-- The ranks ascend exactly where one item may stand before the other. -/
theorem deliveryRank_le_iff {i j : Item} : i.deliveryRank ≤ j.deliveryRank ↔ i.MayPrecede j := by
  obtain ⟨g, kind⟩ := i
  obtain ⟨h, kind'⟩ := j
  have gBound := g.height.toNat_lt
  have hBound := h.height.toNat_lt
  cases kind <;> cases kind' <;>
    simp [deliveryRank, MayPrecede, UInt64.le_iff_toNat_le] <;> omega

/-- In delivery order every item may stand before the later ones. -/
theorem mayPrecede_inDeliveryOrder (items : List Item) :
    (inDeliveryOrder items).Pairwise MayPrecede :=
  (pairwise_inDeliveryOrder items).imp deliveryRank_le_iff.1

/-- The transactions of a batch stay in the order in which they were listed. -/
theorem filter_transaction_inDeliveryOrder (items : List Item) :
    (inDeliveryOrder items).filter (·.kind = .transaction) =
      items.filter (·.kind = .transaction) := by
  have kept : (items.filter (·.kind = .transaction)).Sublist (inDeliveryOrder items) := by
    -- all transactions have one rank, so that the sort, which is stable, does not move them
    refine List.sublist_mergeSort ?_ ?_ ?_ List.filter_sublist
    · intro a b c hab hbc
      simp only [decide_eq_true_eq] at hab hbc ⊢
      exact Nat.le_trans hab hbc
    · intro a b
      simpa using Nat.le_total ..
    · rw [List.pairwise_filter]
      refine List.pairwise_of_forall fun i j => ?_
      intro hi hj
      simp_all [deliveryRank]
  have same := ((inDeliveryOrder_perm items).filter (·.kind = .transaction)).length_eq
  refine (List.Sublist.eq_of_length ?_ same.symm).symm
  simpa using kept.filter (·.kind = .transaction)

end Item

end BlockRelay
