/-
# Caches of bounded size whose entries expire

An `AgingCache` forgets in two ways.  An entry older than the lifetime of the
cache is expired: it answers no question, although it keeps its place until it is
looked up or purged.  And when a new key finds the cache full, the entry that was
used least recently gives way.

The entries are a list with the most recently used one first.
-/

namespace BlockRelay

/-- A cached value with the time at which it was stored. -/
structure CacheEntry (κ ν : Type) where
  key : κ
  value : ν
  storedAt : Nat
  deriving Repr, Inhabited

/-- A cache: its capacity, the lifetime of its entries, and the entries, most recently used
first. -/
structure AgingCache (κ ν : Type) where
  capacity : Nat
  lifetime : Nat
  entries : List (CacheEntry κ ν)
  deriving Repr, Inhabited

namespace AgingCache

variable {κ ν : Type} [DecidableEq κ]

/-- An empty cache; its capacity is at least one. -/
def empty (capacity lifetime : Nat) : AgingCache κ ν := ⟨max capacity 1, lifetime, []⟩

/-- The number of entries, expired ones included. -/
def size (c : AgingCache κ ν) : Nat := c.entries.length

/-- Whether an entry is within its lifetime. -/
def isLive (c : AgingCache κ ν) (now : Nat) (e : CacheEntry κ ν) : Bool :=
  now - e.storedAt ≤ c.lifetime

/-- The entry of a key, live or not. -/
def lookup? (c : AgingCache κ ν) (key : κ) : Option (CacheEntry κ ν) :=
  c.entries.find? (·.key = key)

/-- The entries of all other keys. -/
def others (c : AgingCache κ ν) (key : κ) : List (CacheEntry κ ν) :=
  c.entries.filter (·.key ≠ key)

/-- Forget a key. -/
def erase (c : AgingCache κ ν) (key : κ) : AgingCache κ ν :=
  { c with entries := c.others key }

/-- Store a value.  A new key in a full cache displaces the least recently used entry. -/
def insert (c : AgingCache κ ν) (key : κ) (value : ν) (now : Nat) : AgingCache κ ν :=
  { c with entries := (⟨key, value, now⟩ :: c.others key).take c.capacity }

/-- Whether a key has a live entry.  Asking does not count as a use. -/
def contains (c : AgingCache κ ν) (key : κ) (now : Nat) : Bool :=
  (c.lookup? key).any (c.isLive now)

/-- Look up the live value of a key, which becomes the most recently used one; an
expired entry is forgotten. -/
def get (c : AgingCache κ ν) (key : κ) (now : Nat) : Option ν × AgingCache κ ν :=
  match c.lookup? key with
  | none => (none, c)
  | some e =>
    if c.isLive now e then (some e.value, { c with entries := e :: c.others key })
    else (none, c.erase key)

/-- Forget a key and return its value, live or not. -/
def remove (c : AgingCache κ ν) (key : κ) : Option ν × AgingCache κ ν :=
  ((c.lookup? key).map (·.value), c.erase key)

/-- Forget every expired entry and return how many there were. -/
def purge (c : AgingCache κ ν) (now : Nat) : Nat × AgingCache κ ν :=
  let live := c.entries.filter (c.isLive now)
  (c.entries.length - live.length, { c with entries := live })

/-- Storing keeps the number of entries within the capacity. -/
theorem size_insert_le (c : AgingCache κ ν) (key : κ) (value : ν) (now : Nat) :
    (c.insert key value now).size ≤ c.capacity :=
  List.length_take_le ..

/-- A lookup finds a value exactly when the key has a live entry. -/
theorem isSome_get (c : AgingCache κ ν) (key : κ) (now : Nat) :
    (c.get key now).1.isSome = c.contains key now := by
  unfold get contains
  cases c.lookup? key with
  | none => rfl
  | some e => by_cases h : c.isLive now e <;> simp [h]

/-- A forgotten key has no entry. -/
@[simp] theorem lookup?_erase_self (c : AgingCache κ ν) (key : κ) :
    (c.erase key).lookup? key = none := by
  simp [erase, lookup?, others]

/-- Forgetting one key leaves every other key alone. -/
theorem lookup?_erase_of_ne (c : AgingCache κ ν) {key other : κ} (h : other ≠ key) :
    (c.erase key).lookup? other = c.lookup? other := by
  simp only [erase, lookup?, others]
  rw [List.find?_filter]
  congr 1
  funext e
  by_cases he : e.key = other <;> simp_all

end AgingCache

end BlockRelay
