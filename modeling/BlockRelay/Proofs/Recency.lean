/-
# What a cache remembers of its history

The entries of a cache stand in the order of their last use, and each of them ages from when it was
stored.  A lookup renews the first and not the second, so neither order is found in the entries
alone; a run of a cache (`CacheRun`) therefore keeps the calls with their answers.  Of this record
`lastStored` reads what is stored under a key, and `usedSince` which other keys were used after it.

A call either uses one key, which comes to stand in front of all others, or lets some entries go
that are expired or removed (`CacheRun.Change`).  By both the entries agree with the record
(`CacheRun.Agrees`): each holds what was stored last, those in front of it were used after it, and
a key has lost its place only if it is expired or as many other keys were used as there are places.
This is all that the answers depend on (`CacheRun.remembers_last_stored`).
-/
import BlockRelay.Proofs.Caches
import Mathlib.Data.Finset.Card
import Mathlib.Data.List.TakeWhile

namespace BlockRelay

/-- A call on a cache, or the passing of time. -/
inductive CacheCall (κ ν : Type)
  | insert (key : κ) (value : ν)
  | get (key : κ)
  | contains (key : κ)
  | remove (key : κ)
  | purge
  | wait (time : Nat)
  deriving Repr, DecidableEq

/-- What is answered to a call. -/
inductive CacheAnswer (ν : Type)
  | done
  | value (found : Option ν)
  | held (answer : Bool)
  | forgotten (count : Nat)
  deriving Repr, DecidableEq

/-- A call with its answer and its time. -/
structure CacheMoment (κ ν : Type) where
  call : CacheCall κ ν
  answer : CacheAnswer ν
  time : Nat
  deriving Repr, DecidableEq

/-- A cache in use, with the time and with what was called so far, the latest call first. -/
structure CacheRun (κ ν : Type) where
  cache : AgingCache κ ν
  now : Nat
  past : List (CacheMoment κ ν)

variable {κ ν : Type} [DecidableEq κ]

/-! ## Calls -/

namespace CacheCall

/-- How long a call lasts. -/
def duration : CacheCall κ ν → Nat
  | .wait time => time
  | _ => 0

/-- Whether a call only asks if a key is held. -/
def asks : CacheCall κ ν → Bool
  | .contains _ => true
  | _ => false

end CacheCall

/-- What a cache answers to a call, and the cache afterwards. -/
def AgingCache.answer (c : AgingCache κ ν) (now : Nat) :
    CacheCall κ ν → CacheAnswer ν × AgingCache κ ν
  | .insert key value => (.done, c.insert key value now)
  | .get key => (.value (c.get key now).1, (c.get key now).2)
  | .contains key => (.held (c.contains key now), c)
  | .remove key => (.value (c.remove key).1, (c.remove key).2)
  | .purge => (.forgotten (c.purge now).1, (c.purge now).2)
  | .wait _ => (.done, c)

/-- What is looked up is an entry under the key. -/
theorem AgingCache.mem_of_lookup? {c : AgingCache κ ν} {key : κ} {e : CacheEntry κ ν}
    (found : c.lookup? key = some e) : e ∈ c.entries ∧ e.key = key :=
  ⟨List.mem_of_find?_eq_some found, of_decide_eq_true
    (List.find?_some (p := fun e : CacheEntry κ ν => decide (e.key = key)) found)⟩

namespace CacheRun

/-- What a call on the cache is recorded as. -/
def moment (r : CacheRun κ ν) (call : CacheCall κ ν) : CacheMoment κ ν :=
  ⟨call, (r.cache.answer r.now call).1, r.now⟩

/-- A call on the cache. -/
def step (r : CacheRun κ ν) (call : CacheCall κ ν) : CacheRun κ ν :=
  ⟨(r.cache.answer r.now call).2, r.now + call.duration, r.moment call :: r.past⟩

/-- The calls on an empty cache, one after the other. -/
def replay (capacity lifetime : Nat) (calls : List (CacheCall κ ν)) : CacheRun κ ν :=
  calls.foldl step ⟨.empty capacity lifetime, 0, []⟩

end CacheRun

/-! ## The record -/

namespace CacheMoment

variable {m : CacheMoment κ ν} {past : List (CacheMoment κ ν)} {key : κ}

/-- The key that a call stored or found. -/
def used? : CacheMoment κ ν → Option κ
  | ⟨.insert key _, _, _⟩ => some key
  | ⟨.get key, .value (some _), _⟩ => some key
  | _ => none

/-- The value that was stored last under a key, with the time, unless the key was removed since. -/
def lastStored (key : κ) : List (CacheMoment κ ν) → Option (ν × Nat)
  | [] => none
  | ⟨.insert other value, _, time⟩ :: older =>
    if other = key then some (value, time) else lastStored key older
  | ⟨.remove other, _, _⟩ :: older => if other = key then none else lastStored key older
  | _ :: older => lastStored key older

/-- The other keys that were used since a key was used last. -/
def usedSince (key : κ) (past : List (CacheMoment κ ν)) : List κ :=
  (past.filterMap used?).takeWhile (· ≠ key)

/-- A key is not used since it was used itself. -/
theorem ne_of_mem_usedSince {other : κ} (mem : other ∈ usedSince key past) : other ≠ key := by
  simpa using List.mem_takeWhile_imp mem

/-- A call that uses no key leaves the keys used since. -/
theorem usedSince_of_unused (unused : m.used? = none) :
    usedSince key (m :: past) = usedSince key past := by
  rw [usedSince, List.filterMap_cons_none unused, usedSince]

/-- The use of another key comes after all earlier ones. -/
theorem usedSince_of_used {other : κ} (used : m.used? = some other) (ne : other ≠ key) :
    usedSince key (m :: past) = other :: usedSince key past := by
  rw [usedSince, List.filterMap_cons_some used, List.takeWhile_cons_of_pos (by simpa using ne),
    usedSince]

/-- A further use of another key leaves no fewer keys used since. -/
theorem card_usedSince_le {other : κ} (used : m.used? = some other) (ne : other ≠ key) :
    (usedSince key past).toFinset.card ≤ (usedSince key (m :: past)).toFinset.card := by
  rw [usedSince_of_used used ne, List.toFinset_cons]
  exact Finset.card_le_card (Finset.subset_insert ..)

/-- What is stored after a call that uses no key was stored before. -/
theorem lastStored_of_unused {stored : ν × Nat} (unused : m.used? = none)
    (last : lastStored key (m :: past) = some stored) : lastStored key past = some stored := by
  obtain ⟨call, answer, time⟩ := m
  cases call with
  | insert k value => cases unused
  | remove k =>
    rw [lastStored] at last
    split at last
    · cases last
    · exact last
  | get k => exact last
  | contains k => exact last
  | purge => exact last
  | wait time => exact last

/-- The use of another key leaves what is stored under a key. -/
theorem lastStored_of_used {other : κ} (used : m.used? = some other) (ne : other ≠ key) :
    lastStored key (m :: past) = lastStored key past := by
  obtain ⟨call, answer, time⟩ := m
  cases call with
  | insert k value =>
    obtain rfl : k = other := Option.some.inj used
    rw [lastStored, if_neg ne]
  | get k => rfl
  | contains k => cases used
  | remove k => cases used
  | purge => cases used
  | wait time => cases used

end CacheMoment

open CacheMoment

namespace CacheRun

variable {r : CacheRun κ ν} {m : CacheMoment κ ν} {kept : List (CacheEntry κ ν)} {key : κ}

/-! ## What a call does to the entries -/

/-- The entries that a call leaves: it puts the key that it uses in front of all others, for which
the last of them may have to give way, or it uses none and lets go what is expired or removed. -/
inductive Change (r : CacheRun κ ν) (m : CacheMoment κ ν) : List (CacheEntry κ ν) → Prop
  | use (e : CacheEntry κ ν) (used : m.used? = some e.key)
      (last : lastStored e.key (m :: r.past) = some (e.value, e.storedAt)) :
      Change r m ((e :: r.cache.others e.key).take r.cache.capacity)
  | leave {kept : List (CacheEntry κ ν)} (unused : m.used? = none)
      (sub : kept.Sublist r.cache.entries)
      (keeps : ∀ e ∈ kept, lastStored e.key (m :: r.past) = lastStored e.key r.past)
      (drops : ∀ e ∈ r.cache.entries, e ∉ kept →
        r.cache.lifetime < r.now - e.storedAt ∨ lastStored e.key (m :: r.past) = none) :
      Change r m kept

/-- Whether the entries of a cache agree with the record of its calls. -/
structure Agrees (r : CacheRun κ ν) : Prop where
  roomy : 0 < r.cache.capacity
  size_le : r.cache.size ≤ r.cache.capacity
  recorded : ∀ e ∈ r.cache.entries, lastStored e.key r.past = some (e.value, e.storedAt)
  ordered : r.cache.entries.Pairwise fun f e => f.key ∈ usedSince e.key r.past
  displaced : ∀ {key : κ} {value : ν} {storedAt : Nat},
    lastStored key r.past = some (value, storedAt) → r.now - storedAt ≤ r.cache.lifetime →
    ¬ r.cache.Holds key → r.cache.capacity ≤ (usedSince key r.past).toFinset.card

/-- A call that uses no key and keeps every entry. -/
theorem Change.same (unused : m.used? = none)
    (keeps : ∀ e ∈ r.cache.entries, lastStored e.key (m :: r.past) = lastStored e.key r.past) :
    r.Change m r.cache.entries :=
  .leave unused (List.Sublist.refl _) keeps fun _ mem out => absurd mem out

/-- **What a call does to the entries.** -/
theorem Agrees.change (h : r.Agrees) (call : CacheCall κ ν) :
    r.Change (r.moment call) (r.step call).cache.entries := by
  cases call with
  | insert key value => exact .use ⟨key, value, r.now⟩ rfl (if_pos rfl)
  | get key =>
    cases found : r.cache.lookup? key with
    | none =>
      have missed : r.cache.get key r.now = (none, r.cache) := by rw [AgingCache.get, found]
      show r.Change ⟨.get key, .value (r.cache.get key r.now).1, r.now⟩
        (r.cache.get key r.now).2.entries
      rw [missed]
      exact .same rfl fun _ _ => rfl
    | some e =>
      obtain ⟨mem, rfl⟩ := AgingCache.mem_of_lookup? found
      show r.Change ⟨.get e.key, .value (r.cache.get e.key r.now).1, r.now⟩
        (r.cache.get e.key r.now).2.entries
      rw [AgingCache.get, found]
      dsimp only
      split
      next live =>
        have fits : (e :: r.cache.others e.key).length ≤ r.cache.capacity := by
          have room := r.cache.length_others_succ_le e.key
          rw [found] at room
          exact Nat.le_trans room h.size_le
        show r.Change _ (e :: r.cache.others e.key)
        rw [← List.take_of_length_le fits]
        exact .use e rfl (h.recorded e mem)
      next expired =>
        refine .leave rfl List.filter_sublist (fun _ _ => rfl) fun f old out => .inl ?_
        have same : f.key = e.key :=
          of_not_not fun ne => out (List.mem_filter.2 ⟨old, decide_eq_true ne⟩)
        -- both entries are what is recorded last under the key
        have eq := (h.recorded f old).symm.trans (same ▸ h.recorded e mem)
        rw [show f.storedAt = e.storedAt from congrArg Prod.snd (Option.some.inj eq)]
        exact Nat.not_le.1 fun le => expired (decide_eq_true le)
  | contains key => exact .same rfl fun _ _ => rfl
  | remove key =>
    refine .leave rfl List.filter_sublist (fun f mem => if_neg ?_) fun f old out => .inr (if_pos ?_)
    · exact (of_decide_eq_true (List.mem_filter.1 mem).2).symm
    · exact (of_not_not fun ne => out (List.mem_filter.2 ⟨old, decide_eq_true ne⟩)).symm
  | purge =>
    refine .leave rfl List.filter_sublist (fun _ _ => rfl) fun f old out => .inl ?_
    exact Nat.not_le.1 fun le => out (List.mem_filter.2 ⟨old, decide_eq_true le⟩)
  | wait time => exact .same rfl fun _ _ => rfl

/-- A call leaves the limits of the cache alone. -/
theorem limits_step (r : CacheRun κ ν) (call : CacheCall κ ν) :
    (r.step call).cache.limits = r.cache.limits := by
  cases call with
  | get key =>
    show (r.cache.get key r.now).2.limits = _
    unfold AgingCache.get
    cases r.cache.lookup? key with
    | none => rfl
    | some e =>
      dsimp only
      split <;> rfl
  | insert key value => rfl
  | contains key => rfl
  | remove key => rfl
  | purge => rfl
  | wait time => rfl

/-! ## Agreement with the record -/

/-- As many keys were used since an entry was used last as entries stand in front of it. -/
theorem card_usedSince {entries : List (CacheEntry κ ν)} {past : List (CacheMoment κ ν)}
    (ordered : entries.Pairwise fun f e => f.key ∈ usedSince e.key past) {n : Nat}
    {e : CacheEntry κ ν} (mem : e ∈ entries.drop n) : n ≤ (usedSince e.key past).toFinset.card := by
  have front : ∀ f ∈ entries.take n, f.key ∈ usedSince e.key past := by
    rw [← List.take_append_drop n entries, List.pairwise_append] at ordered
    exact fun f first => ordered.2.2 f first e mem
  have distinct : ((entries.take n).map (·.key)).Nodup :=
    List.pairwise_map.2 ((ordered.sublist (List.take_sublist ..)).imp ne_of_mem_usedSince)
  have length : ((entries.take n).map (·.key)).length = n := by
    have beyond := List.length_pos_of_mem mem
    rw [List.length_drop] at beyond
    rw [List.length_map, List.length_take]
    omega
  calc n = ((entries.take n).map (·.key)).toFinset.card := by
        rw [List.toFinset_card_of_nodup distinct, length]
    _ ≤ (usedSince e.key past).toFinset.card := by
        refine Finset.card_le_card fun k used => ?_
        obtain ⟨f, first, rfl⟩ := List.mem_map.1 (List.mem_toFinset.1 used)
        exact List.mem_toFinset.2 (front f first)

/-- The order of the other entries is left by the use of a key, which comes before them. -/
theorem ordered_use {e : CacheEntry κ ν}
    (ordered : r.cache.entries.Pairwise fun f e => f.key ∈ usedSince e.key r.past)
    (used : m.used? = some e.key) :
    (e :: r.cache.others e.key).Pairwise fun f e => f.key ∈ usedSince e.key (m :: r.past) := by
  have later : ∀ f ∈ r.cache.others e.key,
      usedSince f.key (m :: r.past) = e.key :: usedSince f.key r.past := fun f mem =>
    usedSince_of_used used (of_decide_eq_true (List.mem_filter.1 mem).2).symm
  refine List.pairwise_cons.2 ⟨fun f mem => ?_, ?_⟩
  · rw [later f mem]
    exact List.mem_cons_self ..
  · refine (ordered.sublist List.filter_sublist).imp_of_mem fun {f g} _ mem before => ?_
    rw [later g mem]
    exact List.mem_cons_of_mem _ before

/-- A cache that agrees with the record does so after the entries have changed. -/
theorem Agrees.of_change (h : r.Agrees) {c : AgingCache κ ν} {now : Nat}
    (limits : c.limits = r.cache.limits) (later : r.now ≤ now) (change : r.Change m c.entries) :
    Agrees ⟨c, now, m :: r.past⟩ := by
  obtain ⟨capacity, lifetime, entries⟩ := c
  obtain ⟨rfl, rfl⟩ : capacity = r.cache.capacity ∧ lifetime = r.cache.lifetime := by
    simpa [AgingCache.limits] using limits
  have fresh : ∀ {storedAt}, now - storedAt ≤ r.cache.lifetime →
      r.now - storedAt ≤ r.cache.lifetime := fun le => by omega
  cases change with
  | use e used last =>
    have ordered := ordered_use h.ordered used
    have recorded : ∀ f ∈ e :: r.cache.others e.key,
        lastStored f.key (m :: r.past) = some (f.value, f.storedAt) := by
      refine List.forall_mem_cons.2 ⟨last, fun f mem => ?_⟩
      obtain ⟨old, ne⟩ := List.mem_filter.1 mem
      rw [lastStored_of_used used (of_decide_eq_true ne).symm]
      exact h.recorded f old
    refine ⟨h.roomy, List.length_take_le .., fun f mem => recorded f (List.mem_of_mem_take mem),
      ordered.sublist (List.take_sublist ..), fun {key value storedAt} stored live absent => ?_⟩
    have ne : key ≠ e.key := by
      rintro rfl
      obtain ⟨n, room⟩ := Nat.exists_eq_succ_of_ne_zero (Nat.ne_of_gt h.roomy)
      refine absent ⟨e, ?_, rfl⟩
      show e ∈ (e :: r.cache.others e.key).take r.cache.capacity
      rw [room, List.take_succ_cons]
      exact List.mem_cons_self ..
    by_cases held : r.cache.Holds key
    · -- the key had a place, and gives way to the one that is used
      obtain ⟨f, old, rfl⟩ := held
      refine card_usedSince ordered (Or.resolve_left (List.mem_append.1 ?_) fun first =>
        absent ⟨f, first, rfl⟩)
      rw [List.take_append_drop]
      exact List.mem_cons_of_mem _ (List.mem_filter.2 ⟨old, decide_eq_true ne⟩)
    · have stored := (lastStored_of_used used ne.symm).symm.trans stored
      exact Nat.le_trans (h.displaced stored (fresh live) held) (card_usedSince_le used ne.symm)
  | leave unused sub keeps drops =>
    have same : ∀ k, usedSince k (m :: r.past) = usedSince k r.past :=
      fun k => usedSince_of_unused unused
    refine ⟨h.roomy, Nat.le_trans sub.length_le h.size_le, fun f mem => ?_, ?_,
      fun {key value storedAt} stored live absent => ?_⟩
    · rw [keeps f mem]
      exact h.recorded f (sub.subset mem)
    · exact (h.ordered.sublist sub).imp fun {f e} before => by rwa [same]
    · have before := lastStored_of_unused unused stored
      rw [same]
      refine h.displaced before (fresh live) ?_
      rintro ⟨f, old, rfl⟩
      -- an entry is let go only if nothing is stored any more, or it is expired
      rcases drops f old fun mem => absent ⟨f, mem, rfl⟩ with expired | removed
      · have eq := Option.some.inj (before.symm.trans (h.recorded f old))
        rw [show storedAt = f.storedAt from congrArg Prod.snd eq] at live
        exact absurd (fresh live) (Nat.not_le.2 expired)
      · cases removed.symm.trans stored

/-- A cache that agrees with the record does so after a call. -/
theorem Agrees.step (h : r.Agrees) (call : CacheCall κ ν) : (r.step call).Agrees :=
  h.of_change (limits_step r call) (Nat.le_add_right ..) (h.change call)

/-- An empty cache agrees with the empty record. -/
theorem agrees_empty (capacity lifetime : Nat) :
    Agrees (⟨.empty capacity lifetime, 0, []⟩ : CacheRun κ ν) where
  roomy := Nat.le_max_right ..
  size_le := Nat.zero_le _
  recorded := nofun
  ordered := .nil
  displaced := nofun

/-- **Whatever is called, the entries agree with the record**, within the limits that were set. -/
theorem agrees_replay (capacity lifetime : Nat) (calls : List (CacheCall κ ν)) :
    (replay capacity lifetime calls).Agrees ∧
      (replay capacity lifetime calls).cache.limits = (max capacity 1, lifetime) := by
  induction calls using List.reverseRecOn with
  | nil => exact ⟨agrees_empty capacity lifetime, rfl⟩
  | append_singleton calls call ih =>
    rw [replay, List.foldl_concat]
    exact ⟨ih.1.step call, (limits_step _ call).trans ih.2⟩

/-! ## What is found -/

/-- What is found under a key was stored last under it, and is not expired. -/
theorem Agrees.of_get (h : r.Agrees) {value : ν} (found : (r.cache.get key r.now).1 = some value) :
    ∃ storedAt, lastStored key r.past = some (value, storedAt) ∧
      r.now - storedAt ≤ r.cache.lifetime := by
  rw [AgingCache.get_eq_lookup?, Option.map_eq_some_iff] at found
  obtain ⟨e, looked, rfl⟩ := found
  obtain ⟨looked, live⟩ := Option.filter_eq_some_iff.1 looked
  obtain ⟨mem, rfl⟩ := AgingCache.mem_of_lookup? looked
  exact ⟨e.storedAt, h.recorded e mem, of_decide_eq_true live⟩

/-- What is stored under a key, and not expired, is found unless too many other keys were used. -/
theorem Agrees.get_of_few (h : r.Agrees) {value : ν} {storedAt : Nat}
    (last : lastStored key r.past = some (value, storedAt))
    (live : r.now - storedAt ≤ r.cache.lifetime)
    (few : (usedSince key r.past).toFinset.card < r.cache.capacity) :
    (r.cache.get key r.now).1 = some value := by
  have held : r.cache.Holds key :=
    of_not_not fun absent => Nat.not_le.2 few (h.displaced last live absent)
  obtain ⟨e, looked⟩ : ∃ e, r.cache.lookup? key = some e := by
    obtain ⟨f, mem, same⟩ := held
    exact Option.isSome_iff_exists.1 (List.find?_isSome.2 ⟨f, mem, decide_eq_true same⟩)
  obtain ⟨mem, rfl⟩ := AgingCache.mem_of_lookup? looked
  obtain ⟨rfl, rfl⟩ : e.value = value ∧ e.storedAt = storedAt := by
    simpa [last] using (h.recorded e mem).symm
  have fresh : r.cache.isLive r.now e = true := decide_eq_true live
  rw [AgingCache.get_eq_lookup?, looked, Option.filter_some_pos fresh, Option.map_some]

/-- Without the calls that only ask, everything else is answered as before. -/
theorem replay_unasked (capacity lifetime : Nat) (calls : List (CacheCall κ ν)) :
    replay capacity lifetime (calls.filter fun call => !call.asks) =
      { replay capacity lifetime calls with
        past := (replay capacity lifetime calls).past.filter fun m => !m.call.asks } := by
  induction calls using List.reverseRecOn with
  | nil => rfl
  | append_singleton calls call ih =>
    have last : ∀ cs, replay capacity lifetime (cs ++ [call]) =
        (replay capacity lifetime cs).step call := fun cs => List.foldl_concat ..
    rw [List.filter_append, last]
    cases asked : call.asks with
    | false =>
      rw [List.filter_cons_of_pos (by rw [asked]; rfl), List.filter_nil, last, ih]
      simp [step, moment, asked]
    | true =>
      rw [List.filter_cons_of_neg (by simp [asked]), List.filter_nil, List.append_nil, ih]
      cases call with
      | contains key => simp [step, moment, CacheCall.duration, AgingCache.answer, CacheCall.asks]
      | _ => cases asked

/-- **What a cache remembers.**  After any calls a cache holds no more entries than it has places.
A key has the value that was stored last under it, unless it was removed since or is expired; and
such a value is found unless as many other keys were used since as there are places.  What is said
to be held is what is found, and to ask for it changes nothing. -/
theorem remembers_last_stored (capacity lifetime : Nat) (calls : List (CacheCall κ ν)) :
    let r := replay capacity lifetime calls
    r.cache.size ≤ max 1 capacity ∧
    (∀ key value, (r.cache.get key r.now).1 = some value →
      ∃ storedAt, lastStored key r.past = some (value, storedAt) ∧ r.now - storedAt ≤ lifetime) ∧
    (∀ key value storedAt, lastStored key r.past = some (value, storedAt) →
      r.now - storedAt ≤ lifetime → (usedSince key r.past).toFinset.card < max 1 capacity →
      (r.cache.get key r.now).1 = some value) ∧
    (∀ key, r.cache.contains key r.now = true ↔ ∃ value, (r.cache.get key r.now).1 = some value) ∧
    replay capacity lifetime (calls.filter fun call => !call.asks) =
      { r with past := r.past.filter fun m => !m.call.asks } := by
  intro r
  obtain ⟨agrees, limits⟩ := agrees_replay capacity lifetime calls
  obtain ⟨places, age⟩ : r.cache.capacity = max 1 capacity ∧ r.cache.lifetime = lifetime := by
    simpa [AgingCache.limits, Nat.max_comm] using limits
  refine ⟨?_, fun key value found => ?_, fun key value storedAt last live few => ?_,
    fun key => ?_, replay_unasked capacity lifetime calls⟩
  · rw [← places]
    exact agrees.size_le
  · rw [← age]
    exact agrees.of_get found
  · rw [← places] at few
    rw [← age] at live
    exact agrees.get_of_few last live few
  · rw [← AgingCache.isSome_get, Option.isSome_iff_exists]

/-- A lookup saves a key from being displaced. -/
theorem remembers_looked_up :
    let r : CacheRun Nat Nat :=
      replay 2 5 [.insert 1 10, .insert 2 20, .wait 5, .get 1, .insert 3 30]
    (lastStored 1 r.past = some (10, 0) ∧ r.now - 0 ≤ 5 ∧
      (usedSince 1 r.past).toFinset.card < max 1 2) ∧
    (r.cache.get 1 r.now).1 = some 10 ∧
    ∃ storedAt, lastStored 1 r.past = some (10, storedAt) ∧ r.now - storedAt ≤ 5 := by
  intro r
  have facts := remembers_last_stored 2 5
    [.insert 1 10, .insert 2 20, .wait 5, .get 1, .insert 3 30]
  have recent : lastStored 1 r.past = some (10, 0) ∧ r.now - 0 ≤ 5 ∧
      (usedSince 1 r.past).toFinset.card < max 1 2 := by decide
  have found := facts.2.2.1 1 10 0 recent.1 recent.2.1 recent.2.2
  exact ⟨recent, found, facts.2.1 1 10 found⟩

end CacheRun

end BlockRelay
