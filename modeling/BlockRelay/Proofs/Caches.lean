/-
# How long a cache remembers

A key has an entry from when it is stored until the entry is erased, purged or displaced
(`AgingCache.Holds`), but an entry that has expired is not found any more.

With room for the keys that have no entry, storing keys displaces nothing: they are found, and
everything else that was found before (`contains_foldl_insert`).

A cache forgets a key when the key is erased, when its entry expires, and when other keys displace
it.  `AgingCache.Kept` follows one key through the changes of a cache, with the time at which it
was stored and with the number of keys that were stored since.  A kept key is found unless it is
older than the lifetime of the cache, or more keys were stored than the cache holds
(`Kept.of_not_contains`).
-/
import BlockRelay.AgingCache

namespace BlockRelay.AgingCache

variable {κ ν : Type} [DecidableEq κ] {c : AgingCache κ ν} {key other : κ} {storedAt now n m : Nat}

/-! ## Limits -/

/-- What a cache holds, and for how long. -/
def limits (c : AgingCache κ ν) : Nat × Nat := (c.capacity, c.lifetime)

/-- Erasing keys leaves the limits alone. -/
theorem limits_foldl_erase (keys : List κ) (c : AgingCache κ ν) :
    (keys.foldl (fun c k => c.erase k) c).limits = c.limits := by
  induction keys generalizing c with
  | nil => rfl
  | cons k rest ih => exact ih (c.erase k)

/-- Storing keys leaves the limits alone. -/
theorem limits_foldl_insert (value : ν) (now : Nat) (keys : List κ) (c : AgingCache κ ν) :
    (keys.foldl (fun c k => c.insert k value now) c).limits = c.limits := by
  induction keys generalizing c with
  | nil => rfl
  | cons k rest ih => exact ih (c.insert k value now)

/-! ## Entries -/

/-- Whether a key has an entry, be it live or expired. -/
def Holds (c : AgingCache κ ν) (key : κ) : Prop := ∃ e ∈ c.entries, e.key = key

/-- Erasing a key erases its entry and no other one. -/
theorem holds_erase : (c.erase other).Holds key ↔ c.Holds key ∧ key ≠ other := by
  constructor
  · rintro ⟨e, mem, rfl⟩
    obtain ⟨mem, ne⟩ := List.mem_filter.1 mem
    exact ⟨⟨e, mem, rfl⟩, of_decide_eq_true ne⟩
  · rintro ⟨⟨e, mem, rfl⟩, ne⟩
    exact ⟨e, List.mem_filter.2 ⟨mem, decide_eq_true ne⟩, rfl⟩

/-- Erasing keys erases their entries and no other ones. -/
theorem holds_foldl_erase {keys : List κ} :
    (keys.foldl (fun c k => c.erase k) c).Holds key ↔ c.Holds key ∧ key ∉ keys := by
  induction keys generalizing c with
  | nil => simp
  | cons k rest ih => rw [List.foldl_cons, ih, holds_erase, List.mem_cons, not_or, and_assoc]

/-- Erasing keys leaves the entries of the other ones as they are. -/
theorem foldl_erase_eq (keys : List κ) (c : AgingCache κ ν) :
    keys.foldl (fun c k => c.erase k) c =
      { c with entries := c.entries.filter fun entry => entry.key ∉ keys } := by
  induction keys generalizing c with
  | nil =>
    have all : c.entries.filter (fun entry => entry.key ∉ []) = c.entries := by simp
    rw [all]
    rfl
  | cons k rest ih =>
    rw [List.foldl_cons, ih]
    show AgingCache.mk _ _ (List.filter _ (c.entries.filter fun entry => entry.key ≠ k)) = _
    rw [List.filter_filter]
    congr 1
    apply List.filter_congr
    intro entry _
    simp [Bool.and_comm]

/-- A cache holds what was stored in it last, and nothing else that it did not hold before. -/
theorem mem_entries_insert {value : ν} {entry : CacheEntry κ ν}
    (mem : entry ∈ (c.insert key value now).entries) :
    entry = ⟨key, value, now⟩ ∨ entry ∈ c.entries :=
  (List.mem_cons.1 (List.mem_of_mem_take mem)).imp_right fun old => (List.mem_filter.1 old).1

/-- Storing a key makes no entry for another one. -/
theorem Holds.of_insert {value : ν} (h : (c.insert other value now).Holds key) :
    key = other ∨ c.Holds key := by
  obtain ⟨e, mem, rfl⟩ := h
  rcases mem_entries_insert mem with rfl | mem
  · exact .inl rfl
  · exact .inr ⟨e, mem, rfl⟩

/-- Storing keys makes no entries for other ones. -/
theorem Holds.of_foldl_insert {value : ν} {keys : List κ}
    (h : (keys.foldl (fun c k => c.insert k value now) c).Holds key) :
    key ∈ keys ∨ c.Holds key := by
  induction keys generalizing c with
  | nil => exact .inr h
  | cons k rest ih =>
    rcases ih h with mem | h
    · exact .inl (List.mem_cons_of_mem _ mem)
    · exact h.of_insert.imp_left fun same => List.mem_cons.2 (.inl same)

omit [DecidableEq κ] in
/-- Forgetting what is expired makes no entries. -/
theorem Holds.of_purge (h : (c.purge now).2.Holds key) : c.Holds key := by
  obtain ⟨e, mem, rfl⟩ := h
  exact ⟨e, (List.mem_filter.1 mem).1, rfl⟩

/-- A cache holds no value after a lookup that it did not hold before. -/
theorem entries_get_subset : (c.get key now).2.entries ⊆ c.entries := by
  have others : c.others key ⊆ c.entries := fun _ mem => (List.mem_filter.1 mem).1
  unfold get
  cases found : c.lookup? key with
  | none => exact List.Subset.refl _
  | some entry =>
    have mem : entry ∈ c.entries := List.mem_of_find?_eq_some found
    dsimp only
    split
    · exact List.cons_subset.2 ⟨mem, others⟩
    · exact others

/-- What a lookup finds is in the cache, under the key that is looked up. -/
theorem mem_entries_of_get {value : ν} (found : (c.get key now).1 = some value) :
    ∃ entry ∈ c.entries, entry.key = key ∧ entry.value = value := by
  unfold get at found
  cases present : c.lookup? key with
  | none =>
    rw [present] at found
    cases found
  | some entry =>
    rw [present] at found
    dsimp only at found
    have same := List.find?_some (p := fun e : CacheEntry κ ν => decide (e.key = key)) present
    split at found
    · cases found
      exact ⟨entry, List.mem_of_find?_eq_some present, of_decide_eq_true same, rfl⟩
    · cases found

/-- What a lookup finds is the value of a live entry. -/
theorem get_eq_lookup? (c : AgingCache κ ν) (key : κ) (now : Nat) :
    (c.get key now).1 = ((c.lookup? key).filter (c.isLive now)).map (·.value) := by
  unfold get
  cases c.lookup? key with
  | none => rfl
  | some entry => by_cases live : c.isLive now entry <;> simp [live, Option.filter]

/-- A lookup keeps all live entries. -/
theorem lookup?_get (c : AgingCache κ ν) (key other : κ) (now : Nat) :
    ((c.get key now).2.lookup? other).filter (c.isLive now) =
      (c.lookup? other).filter (c.isLive now) := by
  unfold get
  cases found : c.lookup? key with
  | none => rfl
  | some entry =>
    have same : entry.key = key := by
      simpa using List.find?_some (p := fun e : CacheEntry κ ν => decide (e.key = key)) found
    dsimp only
    by_cases live : c.isLive now entry = true
    · rw [if_pos live]
      by_cases eq : other = key
      · -- the entry is now in front of all others
        have front : (entry :: c.others key).find? (·.key = key) = some entry :=
          List.find?_cons_of_pos (decide_eq_true same)
        rw [eq, found]
        exact congrArg (Option.filter _) front
      · have behind : (c.erase key).lookup? other = c.lookup? other := c.lookup?_erase_of_ne eq
        have passed : (entry :: c.others key).find? (·.key = other) =
            (c.others key).find? (·.key = other) :=
          List.find?_cons_of_neg (by simpa [same] using Ne.symm eq)
        rw [← behind]
        exact congrArg (Option.filter _) passed
    · rw [if_neg live]
      by_cases eq : other = key
      · rw [eq, found, lookup?_erase_self]
        simp [Option.filter, live]
      · rw [c.lookup?_erase_of_ne eq]

/-- A lookup does not change what is found at the time. -/
@[simp] theorem get_get (c : AgingCache κ ν) (key other : κ) (now : Nat) :
    ((c.get key now).2.get other now).1 = (c.get other now).1 := by
  have lifetime : (c.get key now).2.isLive now = c.isLive now := by
    unfold get
    cases c.lookup? key with
    | none => rfl
    | some entry =>
      dsimp only
      split <;> rfl
  rw [get_eq_lookup?, get_eq_lookup?, lifetime, lookup?_get]

/-- A lookup leaves found at the time what was found. -/
@[simp] theorem contains_get (c : AgingCache κ ν) (key other : κ) (now : Nat) :
    (c.get key now).2.contains other now = c.contains other now := by
  rw [← isSome_get, get_get, isSome_get]

/-- What is cached is found, and otherwise what is stored elsewhere. -/
theorem isSome_get_orElse (c : AgingCache κ ν) (key : κ) (now : Nat) (stored : Option ν) :
    ((c.get key now).1 <|> stored).isSome = (c.contains key now || stored.isSome) := by
  rw [← isSome_get, ← Option.isSome_or]
  exact congrArg Option.isSome (Option.orElse_eq_or ..)

/-- What is found has the key that is looked up, if whatever is cached and stored has its own. -/
theorem key_of_get_orElse {f : ν → κ} {stored : Option ν} {value : ν}
    (cached : ∀ entry ∈ c.entries, f entry.value = entry.key)
    (elsewhere : ∀ v, stored = some v → f v = key)
    (found : ((c.get key now).1 <|> stored) = some value) : f value = key := by
  rcases Option.or_eq_some_iff.1 ((Option.orElse_eq_or ..).symm.trans found) with hit | ⟨-, held⟩
  · obtain ⟨entry, mem, rfl, rfl⟩ := mem_entries_of_get hit
    exact cached entry mem
  · exact elsewhere value held

/-! ## New keys -/

/-- With room for one more entry, a new key is put in front of all others. -/
theorem entries_insert_of_fresh {value : ν} (fresh : ¬ c.Holds key)
    (room : c.entries.length < c.capacity) :
    (c.insert key value now).entries = ⟨key, value, now⟩ :: c.entries := by
  have others : c.others key = c.entries :=
    List.filter_eq_self.2 fun e mem => decide_eq_true fun same => fresh ⟨e, mem, same⟩
  rw [insert, others, List.take_of_length_le (by rw [List.length_cons]; omega)]

/-- With room for several more entries, new keys are put in front of all others. -/
theorem entries_foldl_insert_of_fresh {value : ν} {keys : List κ} (distinct : keys.Nodup)
    (fresh : ∀ k ∈ keys, ¬ c.Holds k) (room : c.entries.length + keys.length ≤ c.capacity) :
    (keys.foldl (fun c k => c.insert k value now) c).entries =
      (keys.map fun k => ⟨k, value, now⟩).reverse ++ c.entries := by
  induction keys generalizing c with
  | nil => rfl
  | cons k rest ih =>
    rw [List.nodup_cons] at distinct
    rw [List.length_cons] at room
    have first : (c.insert k value now).entries = ⟨k, value, now⟩ :: c.entries :=
      entries_insert_of_fresh (fresh k (List.mem_cons_self ..)) (by omega)
    rw [List.foldl_cons, ih distinct.2, first, List.map_cons, List.reverse_cons, List.append_assoc,
      List.singleton_append]
    · intro other mem held
      rcases held.of_insert with rfl | held
      · exact distinct.1 mem
      · exact fresh other (List.mem_cons_of_mem _ mem) held
    · rw [first, List.length_cons]
      have same : (c.insert k value now).capacity = c.capacity := rfl
      omega

/-! ## What is found -/

/-- What is found after a key was stored is this key, or was found before. -/
theorem contains_of_insert {value : ν}
    (found : (c.insert other value now).contains key now = true) :
    key = other ∨ c.contains key now = true := by
  refine Decidable.or_iff_not_imp_left.2 fun ne => ?_
  obtain ⟨e, looked, live⟩ := (Option.any_eq_true ..).1 found
  have before : c.lookup? key = some e := by
    rw [← lookup?_erase_of_ne c ne]
    have front := (List.take_prefix ..).find?_eq_some looked
    rwa [List.find?_cons_of_neg (by simpa using Ne.symm ne)] at front
  rw [contains, before]
  exact live

/-- What is found after several keys were stored is one of them, or was found before. -/
theorem contains_of_foldl_insert {value : ν} {keys : List κ}
    (found : (keys.foldl (fun c k => c.insert k value now) c).contains key now = true) :
    key ∈ keys ∨ c.contains key now = true := by
  induction keys generalizing c with
  | nil => exact .inr found
  | cons k rest ih =>
    rcases ih found with later | found
    · exact .inl (List.mem_cons_of_mem _ later)
    · exact (contains_of_insert found).imp_left fun same => List.mem_cons.2 (.inl same)

/-- How many of several keys have no entry. -/
def missing (c : AgingCache κ ν) (keys : List κ) : Nat := keys.countP fun k => (c.lookup? k).isNone

/-- Each key that has no entry counts. -/
theorem missing_cons (c : AgingCache κ ν) (key : κ) (keys : List κ) :
    c.missing (key :: keys) = c.missing keys + if (c.lookup? key).isNone then 1 else 0 :=
  List.countP_cons

/-- No fewer keys are missing of a longer list. -/
theorem missing_le_append (c : AgingCache κ ν) (keys more : List κ) :
    c.missing keys ≤ c.missing (keys ++ more) := by
  unfold missing
  rw [List.countP_append]
  omega

/-- A key takes up room only if it has no entry. -/
theorem length_others_succ_le (c : AgingCache κ ν) (key : κ) :
    (c.others key).length + 1 ≤ c.size + if (c.lookup? key).isNone then 1 else 0 := by
  unfold size
  have le : (c.others key).length ≤ c.entries.length := List.length_filter_le ..
  split
  next => omega
  next held =>
    have ne : (c.others key).length ≠ c.entries.length := by
      intro eq
      have others := List.length_filter_eq_length_iff.1 eq
      apply held
      rw [lookup?, Option.isNone_iff_eq_none, List.find?_eq_none]
      intro e mem
      simpa using others e mem
    omega

/-- With room for it, a key is put in front of all others. -/
theorem entries_insert {value : ν}
    (room : (c.size + if (c.lookup? key).isNone then 1 else 0) ≤ c.capacity) :
    (c.insert key value now).entries = ⟨key, value, now⟩ :: c.others key := by
  have fits := c.length_others_succ_le key
  rw [insert, List.take_of_length_le (by rw [List.length_cons]; omega)]

/-- With room for it, a key that is stored displaces no other one. -/
theorem lookup?_insert {value : ν}
    (room : (c.size + if (c.lookup? key).isNone then 1 else 0) ≤ c.capacity) :
    (c.insert key value now).lookup? other =
      if other = key then some ⟨key, value, now⟩ else c.lookup? other := by
  rw [lookup?, entries_insert room]
  split
  next same => simp [same]
  next ne =>
    rw [List.find?_cons_of_neg (by simpa using Ne.symm ne), ← lookup?_erase_of_ne c ne]
    rfl

/-- **What a cache with room finds.**  With room for those of several keys that have no entry, the
keys are found after they were stored, and everything that was found before. -/
theorem contains_foldl_insert {value : ν} {keys : List κ} (distinct : keys.Nodup)
    (room : c.size + c.missing keys ≤ c.capacity) :
    (keys.foldl (fun c k => c.insert k value now) c).contains key now = true ↔
      key ∈ keys ∨ c.contains key now = true := by
  refine ⟨contains_of_foldl_insert, ?_⟩
  induction keys generalizing c with
  | nil => exact fun known => known.resolve_left List.not_mem_nil
  | cons k rest ih =>
    intro known
    obtain ⟨out, distinct⟩ := List.nodup_cons.1 distinct
    rw [missing_cons] at room
    have space : (c.size + if (c.lookup? k).isNone then 1 else 0) ≤ c.capacity := by omega
    have same : (c.insert k value now).missing rest = c.missing rest := by
      refine List.countP_congr fun other mem => ?_
      have ne : other ≠ k := fun eq => out (eq ▸ mem)
      rw [lookup?_insert space, if_neg ne]
    refine ih distinct ?_ ?_
    · have fits := c.length_others_succ_le k
      rw [same, size, entries_insert space, List.length_cons]
      show _ ≤ c.capacity
      omega
    · rcases known with mem | before
      · rcases List.mem_cons.1 mem with rfl | later
        · right
          rw [contains, lookup?_insert space, if_pos rfl]
          simp [isLive]
        · exact .inl later
      · right
        rw [contains, lookup?_insert space]
        split
        · simp [isLive]
        · exact before

/-! ## Kept keys -/

/-- Whether a key has an entry of a given time with fewer than `n` entries in front of it, unless
the cache has no room for `n` entries. -/
def Kept (c : AgingCache κ ν) (key : κ) (storedAt n : Nat) : Prop :=
  c.capacity < n ∨ ∃ front value back, c.entries = front ++ ⟨key, value, storedAt⟩ :: back ∧
    (∀ e ∈ front, e.key ≠ key) ∧ front.length < n

/-- Storing a key keeps it. -/
theorem kept_insert_self (c : AgingCache κ ν) (key : κ) (value : ν) (now : Nat) :
    (c.insert key value now).Kept key now 1 := by
  cases room : c.capacity with
  | zero => exact .inl (room ▸ Nat.one_pos)
  | succ m =>
    refine .inr ⟨[], value, (c.others key).take m, ?_, nofun, Nat.one_pos⟩
    rw [insert, room, List.take_succ_cons, List.nil_append]

omit [DecidableEq κ] in
/-- A larger bound on the entries in front may be given. -/
theorem Kept.mono (h : c.Kept key storedAt n) (le : n ≤ m) : c.Kept key storedAt m := by
  rcases h with full | ⟨front, value, back, eq, first, few⟩
  · exact .inl (Nat.lt_of_lt_of_le full le)
  · exact .inr ⟨front, value, back, eq, first, Nat.lt_of_lt_of_le few le⟩

/-- Storing another key leaves a kept key with one more entry in front of it. -/
theorem Kept.insert (h : c.Kept key storedAt n) (ne : key ≠ other) (value : ν) (now : Nat) :
    (c.insert other value now).Kept key storedAt (n + 1) := by
  rcases h with full | ⟨front, old, back, eq, first, few⟩
  · exact .inl (Nat.lt_succ_of_lt full)
  by_cases room : c.capacity < n + 1
  · exact .inl room
  have kept := List.length_filter_le (·.key ≠ other) front
  -- the kept entry has a place among those that are not cut off
  obtain ⟨r, space⟩ : ∃ r, c.capacity = (front.filter (·.key ≠ other)).length + 1 + (r + 1) :=
    ⟨c.capacity - (front.filter (·.key ≠ other)).length - 2, by omega⟩
  refine .inr ⟨⟨other, value, now⟩ :: front.filter (·.key ≠ other), old,
    (back.filter (·.key ≠ other)).take r, ?_, ?_, ?_⟩
  · have others_eq : c.others other = front.filter (·.key ≠ other) ++
        ⟨key, old, storedAt⟩ :: back.filter (·.key ≠ other) := by
      simp [others, eq, ne]
    rw [AgingCache.insert, others_eq, space, ← List.cons_append, ← List.length_cons,
      List.take_length_add_append, List.take_succ_cons]
  · exact List.forall_mem_cons.2 ⟨ne.symm, fun e mem => first e (List.mem_filter.1 mem).1⟩
  · rw [List.length_cons]
    omega

/-- Erasing another key leaves a kept key alone. -/
theorem Kept.erase (h : c.Kept key storedAt n) (ne : key ≠ other) :
    (c.erase other).Kept key storedAt n := by
  rcases h with full | ⟨front, value, back, eq, first, few⟩
  · exact .inl full
  · refine .inr ⟨front.filter (·.key ≠ other), value, back.filter (·.key ≠ other), ?_,
      fun e mem => first e (List.mem_filter.1 mem).1,
      Nat.lt_of_le_of_lt (List.length_filter_le ..) few⟩
    simp [AgingCache.erase, others, eq, ne]

omit [DecidableEq κ] in
/-- Forgetting what is expired leaves a kept key alone, unless it is expired. -/
theorem Kept.purge (h : c.Kept key storedAt n) (now : Nat) :
    (c.purge now).2.Kept key storedAt n ∨ c.lifetime < now - storedAt := by
  rcases h with full | ⟨front, value, back, eq, first, few⟩
  · exact .inl (.inl full)
  · by_cases live : now - storedAt ≤ c.lifetime
    · refine .inl (.inr ⟨front.filter (c.isLive now), value, back.filter (c.isLive now), ?_,
        fun e mem => first e (List.mem_filter.1 mem).1,
        Nat.lt_of_le_of_lt (List.length_filter_le ..) few⟩)
      simp [AgingCache.purge, eq, isLive, live]
    · exact .inr (Nat.not_le.1 live)

/-- A kept key that is not found is displaced or expired. -/
theorem Kept.of_not_contains (h : c.Kept key storedAt n) (absent : c.contains key now = false) :
    c.capacity < n ∨ c.lifetime < now - storedAt := by
  rcases h with full | ⟨front, value, back, eq, first, -⟩
  · exact .inl full
  · have found : c.lookup? key = some ⟨key, value, storedAt⟩ := by
      have none : front.find? (·.key = key) = none := by simpa using first
      simp [lookup?, eq, List.find?_append, none]
    refine .inr (Nat.not_le.1 fun live => ?_)
    simp [contains, found, isLive, live] at absent

/-- Erasing other keys leaves a kept key alone. -/
theorem Kept.foldl_erase (h : c.Kept key storedAt n) {keys : List κ} (absent : key ∉ keys) :
    (keys.foldl (fun c k => c.erase k) c).Kept key storedAt n := by
  induction keys generalizing c with
  | nil => exact h
  | cons k rest ih =>
    rw [List.mem_cons, not_or] at absent
    exact ih (h.erase absent.1) absent.2

/-- Storing other keys leaves a kept key with as many more entries in front of it. -/
theorem Kept.foldl_insert (h : c.Kept key storedAt n) (value : ν) (now : Nat) {keys : List κ}
    (absent : key ∉ keys) :
    (keys.foldl (fun c k => c.insert k value now) c).Kept key storedAt (n + keys.length) := by
  induction keys generalizing c n with
  | nil => exact h
  | cons k rest ih =>
    rw [List.mem_cons, not_or] at absent
    rw [List.length_cons, Nat.add_comm rest.length, ← Nat.add_assoc]
    exact ih (h.insert absent.1 value now) absent.2

/-- Storing several keys keeps each of them. -/
theorem kept_foldl_insert (c : AgingCache κ ν) (value : ν) (now : Nat) {keys : List κ}
    (mem : key ∈ keys) :
    (keys.foldl (fun c k => c.insert k value now) c).Kept key now keys.length := by
  induction keys generalizing c with
  | nil => cases mem
  | cons k rest ih =>
    by_cases later : key ∈ rest
    · exact (ih (c.insert k value now) later).mono (Nat.le_succ _)
    · obtain rfl : key = k := (List.mem_cons.1 mem).resolve_right later
      rw [List.length_cons, Nat.add_comm]
      exact (kept_insert_self c key value now).foldl_insert value now later

end BlockRelay.AgingCache
