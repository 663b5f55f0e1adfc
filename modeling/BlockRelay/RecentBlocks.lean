/-
# Recently accepted blocks

The identities of the blocks that were accepted last, oldest first.  When there is
no room for another one, the oldest is forgotten.
-/
import BlockRelay.Block

namespace BlockRelay

/-- A bounded record of accepted blocks. -/
structure RecentBlocks where
  capacity : Nat
  ids : List BlockId
  deriving DecidableEq, Repr, Inhabited

namespace RecentBlocks

/-- An empty record; its capacity is at least one. -/
def empty (capacity : Nat) : RecentBlocks := ⟨max capacity 1, []⟩

/-- The number of recorded blocks. -/
def size (r : RecentBlocks) : Nat := r.ids.length

/-- Whether a block is recorded. -/
def contains (r : RecentBlocks) (id : BlockId) : Bool := id.isIn r.ids

/-- Record a block, unless it is recorded already. -/
def push (r : RecentBlocks) (id : BlockId) : RecentBlocks :=
  if r.contains id then r
  else
    let kept := if r.ids.length < r.capacity then r.ids else r.ids.tail
    { r with ids := kept ++ [id] }

/-- A block that was just recorded is recorded. -/
theorem contains_push_self (r : RecentBlocks) (id : BlockId) : (r.push id).contains id = true := by
  unfold push
  split
  · assumption
  · simp [contains]

/-- Recording brings in no other block. -/
theorem mem_of_mem_push {r : RecentBlocks} {id other : BlockId} (h : other ∈ (r.push id).ids) :
    other ∈ r.ids ∨ other = id := by
  unfold push at h
  split at h
  · exact .inl h
  · simp only [List.mem_append, List.mem_singleton] at h
    rcases h with h | h
    · split at h
      · exact .inl h
      · exact .inl (List.mem_of_mem_tail h)
    · exact .inr h

end RecentBlocks

end BlockRelay
