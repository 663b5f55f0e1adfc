/-
# Fetch candidates

Objects that peers announced and that nobody has been asked for yet.  An object is
a candidate at most once, under its hash.  Candidates are numbered in the order of
their first sighting, and they are fetched blocks first, by number within a kind.

The entries are kept in ascending order of their numbers.
-/
import BlockRelay.Item

namespace BlockRelay

/-- An announced object, its number, and when it was last announced. -/
structure Candidate where
  item : Item
  sequence : Nat
  lastSeen : Nat
  deriving DecidableEq, Repr, Inhabited

namespace Candidate

/-- The order of fetching: blocks before transactions, and by number within a kind.
The hash plays no part. -/
def order (a b : Candidate) : Ordering :=
  (compare a.item.kind b.item.kind).then (compare a.sequence b.sequence)

/-- Whether a candidate was not announced within `maxAge`. -/
def isStale (c : Candidate) (now maxAge : Nat) : Bool := maxAge < now - c.lastSeen

end Candidate

/-- The candidates in order of their numbers, and the last number that was given out. -/
structure CandidateQueue where
  entries : List Candidate := []
  lastSequence : Nat := 0
  deriving DecidableEq, Repr, Inhabited

namespace CandidateQueue

/-- The queue without candidates. -/
def empty : CandidateQueue := {}

/-- The number of candidates. -/
def size (q : CandidateQueue) : Nat := q.entries.length

/-- Whether there is no candidate. -/
def isEmpty (q : CandidateQueue) : Bool := q.entries.isEmpty

/-- The candidate with a given hash. -/
def get? (q : CandidateQueue) (hash : Hash) : Option Candidate :=
  q.entries.find? (·.item.hash = hash)

/-- Whether a hash is a candidate. -/
def contains (q : CandidateQueue) (hash : Hash) : Bool := (q.get? hash).isSome

/-- Forget a hash. -/
def erase (q : CandidateQueue) (hash : Hash) : CandidateQueue :=
  { q with entries := q.entries.filter (·.item.hash ≠ hash) }

/-- Give an item the next number and put it last, in place of any candidate with its hash. -/
def requeue (q : CandidateQueue) (item : Item) (now : Nat) : CandidateQueue :=
  let next := q.lastSequence + 1
  { entries := (q.erase item.hash).entries ++ [⟨item, next, now⟩], lastSequence := next }

/-- Note that a candidate was announced again. -/
def refresh (q : CandidateQueue) (hash : Hash) (now : Nat) : CandidateQueue :=
  { q with
    entries := q.entries.map fun c => if c.item.hash = hash then { c with lastSeen := now } else c }

/-- Note an announcement.  A hash that is no candidate yet becomes one; otherwise only the
time of the last announcement changes.  The answer says whether it is new. -/
def offer (q : CandidateQueue) (item : Item) (now : Nat) : Bool × CandidateQueue :=
  if q.contains item.hash then (false, q.refresh item.hash now)
  else (true, q.requeue item now)

/-- Take the candidate with a given hash out of the queue. -/
def remove (q : CandidateQueue) (hash : Hash) : Option Candidate × CandidateQueue :=
  (q.get? hash, q.erase hash)

/-- The candidates in the order of fetching. -/
def inFetchOrder (q : CandidateQueue) : List Candidate :=
  q.entries.filter (·.item.kind = .block) ++ q.entries.filter (·.item.kind = .transaction)

/-- Take out every candidate that was not announced within `maxAge`. -/
def dropStale (q : CandidateQueue) (now maxAge : Nat) : List Candidate × CandidateQueue :=
  (q.entries.filter (·.isStale now maxAge),
    { q with entries := q.entries.filter fun c => !c.isStale now maxAge })

/-- A hash is a candidate exactly when some entry carries it. -/
theorem contains_iff {q : CandidateQueue} {h : Hash} :
    q.contains h = true ↔ ∃ c ∈ q.entries, c.item.hash = h := by
  simp [contains, get?, List.find?_isSome]

/-- A hash that was put in last is a candidate. -/
theorem contains_requeue_self (q : CandidateQueue) (i : Item) (now : Nat) :
    (q.requeue i now).contains i.hash = true := by
  simp [contains_iff, requeue]

/-- A hash that was forgotten is no candidate. -/
theorem not_contains_erase_self (q : CandidateQueue) (h : Hash) :
    (q.erase h).contains h = false := by
  rw [Bool.eq_false_iff, ne_eq, contains_iff]
  simp [erase]

/-- Forgetting a hash leaves the candidates with other hashes. -/
theorem get?_erase (q : CandidateQueue) (h other : Hash) :
    (q.erase h).get? other = if other = h then none else q.get? other := by
  unfold get? erase
  rw [List.find?_filter]
  split
  next same =>
    rw [List.find?_eq_none]
    intro c _
    simp [same]
  next ne =>
    congr 1
    funext c
    by_cases same : c.item.hash = other <;> simp [same, ne]

/-- Putting an item in last leaves the candidates with other hashes. -/
theorem get?_requeue (q : CandidateQueue) (i : Item) (now : Nat) (h : Hash) :
    (q.requeue i now).get? h =
      if h = i.hash then some ⟨i, q.lastSequence + 1, now⟩ else q.get? h := by
  have erased := q.get?_erase i.hash h
  unfold get? at erased ⊢
  simp only [requeue, List.find?_append, erased]
  split
  next same => simp [same]
  next ne => simp [Ne.symm ne]

/-- The hashes that are candidates after an item was put in last. -/
theorem contains_requeue {q : CandidateQueue} {i : Item} {now : Nat} {h : Hash} :
    (q.requeue i now).contains h = true ↔ i.hash = h ∨ q.contains h = true := by
  rw [contains, get?_requeue]
  split
  next same => simp [same]
  next ne => simp [Ne.symm ne, contains]

/-- The order of fetching lists every candidate once. -/
theorem inFetchOrder_perm (q : CandidateQueue) : q.inFetchOrder.Perm q.entries := by
  have h : (fun c : Candidate => decide (c.item.kind = .transaction)) =
      fun c => !decide (c.item.kind = .block) := by
    funext c
    cases c.item.kind <;> decide
  unfold inFetchOrder
  rw [h]
  exact List.filter_append_perm _ q.entries

/-! ## The items of a queue -/

/-- The items that are candidates, in the order of their numbers. -/
def items (q : CandidateQueue) : List Item := q.entries.map (·.item)

/-- A hash is a candidate exactly when an item carries it. -/
theorem contains_iff_mem_items {q : CandidateQueue} {h : Hash} :
    q.contains h = true ↔ ∃ i ∈ q.items, i.hash = h := by
  rw [contains_iff]
  constructor
  · rintro ⟨c, mem, same⟩
    exact ⟨c.item, List.mem_map_of_mem mem, same⟩
  · rintro ⟨i, mem, same⟩
    obtain ⟨c, entry, rfl⟩ := List.mem_map.1 mem
    exact ⟨c, entry, same⟩

/-- No two candidates have one hash. -/
def Distinct (q : CandidateQueue) : Prop := (q.items.map (·.hash)).Nodup

/-- There is no candidate at first. -/
theorem distinct_empty : Distinct {} := List.nodup_nil

/-- Forgetting a hash leaves the items with another hash. -/
theorem mem_items_erase {q : CandidateQueue} {h : Hash} {i : Item} :
    i ∈ (q.erase h).items ↔ i ∈ q.items ∧ i.hash ≠ h := by
  simp only [items, erase, List.mem_map, List.mem_filter, decide_eq_true_eq]
  constructor
  · rintro ⟨c, ⟨hc, ne⟩, rfl⟩
    exact ⟨⟨c, hc, rfl⟩, ne⟩
  · rintro ⟨⟨c, hc, rfl⟩, ne⟩
    exact ⟨c, ⟨hc, ne⟩, rfl⟩

/-- Forgetting a hash keeps the order of the other items. -/
theorem items_erase_sublist (q : CandidateQueue) (h : Hash) : (q.erase h).items.Sublist q.items :=
  List.filter_sublist.map _

/-- Forgetting several hashes keeps the order of the other items. -/
theorem items_foldl_erase_sublist (hashes : List Hash) (q : CandidateQueue) :
    (hashes.foldl (fun q h => q.erase h) q).items.Sublist q.items := by
  induction hashes generalizing q with
  | nil => exact .refl _
  | cons h rest ih => exact (ih (q.erase h)).trans (q.items_erase_sublist h)

/-- Fewer candidates are distinct as well. -/
theorem Distinct.of_sublist {q r : CandidateQueue} (d : q.Distinct)
    (h : r.items.Sublist q.items) : r.Distinct :=
  d.sublist (h.map _)

/-- Forgetting a hash keeps the candidates distinct. -/
theorem Distinct.erase {q : CandidateQueue} (d : q.Distinct) (h : Hash) : (q.erase h).Distinct :=
  d.of_sublist (q.items_erase_sublist h)

/-- Dropping stale candidates keeps the others. -/
theorem items_dropStale_sublist (q : CandidateQueue) (now maxAge : Nat) :
    (q.dropStale now maxAge).2.items.Sublist q.items :=
  List.filter_sublist.map _

/-- An item that is put in last comes after the items with another hash. -/
theorem items_requeue (q : CandidateQueue) (i : Item) (now : Nat) :
    (q.requeue i now).items = (q.erase i.hash).items ++ [i] := by
  simp [items, requeue]

/-- Putting an item in keeps the candidates distinct. -/
theorem Distinct.requeue {q : CandidateQueue} (d : q.Distinct) (i : Item) (now : Nat) :
    (q.requeue i now).Distinct := by
  rw [Distinct, items_requeue, List.map_append, List.nodup_append]
  refine ⟨d.erase i.hash, by simp, ?_⟩
  intro a ha b hb
  obtain ⟨j, hj, rfl⟩ := List.mem_map.1 ha
  rw [List.map_singleton, List.mem_singleton] at hb
  exact hb ▸ (mem_items_erase.1 hj).2

/-- A repeated announcement changes no item. -/
theorem items_refresh (q : CandidateQueue) (h : Hash) (now : Nat) :
    (q.refresh h now).items = q.items := by
  simp only [items, refresh, List.map_map]
  refine List.map_congr_left fun c _ => ?_
  simp only [Function.comp_apply]
  split <;> rfl

/-- An announcement brings in at most the announced item. -/
theorem mem_of_mem_items_offer {q : CandidateQueue} {i j : Item} {now : Nat}
    (h : j ∈ (q.offer i now).2.items) : j ∈ q.items ∨ j = i := by
  unfold offer at h
  split at h
  · rw [items_refresh] at h
    exact .inl h
  · rw [items_requeue, List.mem_append, List.mem_singleton] at h
    exact h.imp_left fun h => (mem_items_erase.1 h).1

/-- An announcement keeps the candidates distinct. -/
theorem Distinct.offer {q : CandidateQueue} (d : q.Distinct) (i : Item) (now : Nat) :
    (q.offer i now).2.Distinct := by
  unfold CandidateQueue.offer
  split
  · rw [Distinct, items_refresh]
    exact d
  · exact d.requeue i now

end CandidateQueue

end BlockRelay
