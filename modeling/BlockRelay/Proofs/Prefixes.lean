/-
# Ledgers on one chain

The main chain of a ledger in memory is only ever extended, so that what a ledger was is below
what it becomes (`ChainLedger.Below`).  Two ledgers below a third one are comparable.

A ledger answers a summary with a stretch of its main chain, unless it holds nothing but the first
block, or none of what the summary names (`idsBeyond_cases`).  If it says that nothing is left
beyond the stretch, then the stretch ends at the head (`getLast?_idsBeyond`).
-/
import BlockRelay.Engine.Summary
import BlockRelay.Proofs.LinearLedger

namespace BlockRelay.ChainLedger

/-! ## Prefixes -/

/-- The main chain of one ledger is a prefix of that of another one. -/
def Below (l l' : ChainLedger) : Prop := l.main.toList <+: l'.main.toList

namespace Below

variable {l l' m : ChainLedger}

/-- A ledger is below one with the same main chain. -/
theorem of_main (main : l'.main = l.main) : l.Below l' := by
  show l.main.toList <+: l'.main.toList
  exact main ▸ List.prefix_refl l.main.toList

/-- Below what is below is below. -/
theorem trans (h : l.Below l') (h' : l'.Below m) : l.Below m := List.IsPrefix.trans h h'

/-- Two ledgers below a third one are comparable. -/
theorem total (h : l.Below m) (h' : l'.Below m) : l.Below l' ∨ l'.Below l :=
  List.prefix_or_prefix_of_prefix h h'

/-- A position of the lower chain holds the same block in the higher one. -/
theorem getElem? (h : l.Below l') {i : Nat} {id : BlockId} (found : l.main[i]? = some id) :
    l'.main[i]? = some id := by
  rw [← Array.getElem?_toList] at found ⊢
  obtain ⟨rest, eq⟩ := h
  obtain ⟨lt, -⟩ := List.getElem?_eq_some_iff.1 found
  rw [← eq, List.getElem?_append_left lt, found]

/-- What is on the lower main chain is on the higher one. -/
theorem onMain (h : l.Below l') {id : BlockId} (on : l.onMain id = true) :
    l'.onMain id = true := by
  obtain ⟨other, found, same⟩ := (Option.any_eq_true _ _).1 on
  rw [ChainLedger.onMain, h.getElem? found]
  exact same

end Below

/-- A block on top leaves the main chain a prefix. -/
theorem below_extend (l : ChainLedger) (b : Block) : l.Below (l.extend b) := by
  show l.main.toList <+: (l.main.push b.id).toList
  rw [Array.toList_push]
  exact List.prefix_append ..

/-- Any number of calls only extends the main chain. -/
theorem below_calls {l l' : ChainLedger} (calls : l.Calls l') : l.Below l' := by
  induction calls with
  | refl => exact .of_main rfl
  | tail _ call ih =>
    rcases call_cases call with same | ⟨b, rfl, -⟩
    · exact ih.trans (.of_main same.main)
    · exact ih.trans (below_extend _ b)

/-- The head of a lower ledger is on the higher main chain. -/
theorem Below.head_mem {l l' : ChainLedger} (h : l.Below l') : l.head ∈ l'.main :=
  Array.mem_of_getElem? (h.getElem? (getElem?_headIndex l))

namespace Linear

variable {l : ChainLedger}

/-- What is stored is on the main chain. -/
theorem onMain_of_stored (h : l.Linear) {id : BlockId} (faithful : id.Faithful)
    (stored : l.blocks.contains id.hash = true) : l.onMain id = true := by
  obtain ⟨other, found, same⟩ := h.exists_at_height faithful stored
  rw [onMain, found]
  exact BlockId.same_iff.2 same.symm

end Linear

/-! ## Blocks of a chain -/

/-- Whether a block is on the main chain of a ledger. -/
def Has (l : ChainLedger) (b : Block) : Prop := b.id ∈ l.main ∧ l.blocks[b.id.hash]? = some b

/-- A ledger is within another one if it is linear, its main chain is a prefix of the other one, and
its blocks are blocks of the other one. -/
structure Within (l c : ChainLedger) : Prop where
  linear : l.Linear
  below : l.Below c
  held : ∀ {hash : Hash} {b : Block}, l.blocks[hash]? = some b → c.Has b

/-- What is found after a block was put on top is this block, or was found before. -/
theorem getElem?_extend {l : ChainLedger} {b b' : Block} {hash : Hash}
    (found : (l.extend b).blocks[hash]? = some b') : b' = b ∨ l.blocks[hash]? = some b' := by
  change (l.blocks.insert b.id.hash b)[hash]? = some b' at found
  rw [Std.TreeMap.getElem?_insert] at found
  split at found
  · exact .inl (Option.some.inj found).symm
  · exact .inr found

/-- A block that was put on top is on the main chain. -/
theorem has_extend_self (l : ChainLedger) (b : Block) : (l.extend b).Has b :=
  ⟨Array.mem_push_self, Std.TreeMap.getElem?_insert_self⟩

/-- A ledger with the same main chain and the same blocks has the same blocks on it. -/
theorem Has.congr {l l' : ChainLedger} {b : Block} (h : l.Has b) (main : l'.main = l.main)
    (blocks : l'.blocks = l.blocks) : l'.Has b :=
  ⟨main ▸ h.1, blocks ▸ h.2⟩

/-- What was on the main chain is there after a new block was put on top. -/
theorem Has.extend {l : ChainLedger} {b new : Block} (h : l.Has b)
    (fresh : l.blocks.contains new.id.hash = false) : (l.extend new).Has b := by
  refine ⟨Array.mem_push_of_mem _ h.1, ?_⟩
  change (l.blocks.insert new.id.hash new)[b.id.hash]? = some b
  rw [Std.TreeMap.getElem?_insert, if_neg, h.2]
  intro same
  -- the new block has a hash that is not stored
  have stored : l.blocks.contains new.id.hash = true := by
    rw [Std.LawfulEqCmp.eq_of_compare same]
    exact contains_iff_exists.2 ⟨b, h.2⟩
  exact Bool.eq_false_iff.1 fresh stored

namespace Within

variable {l c : ChainLedger} {b : Block}

/-- A ledger stays within a chain that grows. -/
theorem mono {c' : ChainLedger} (h : l.Within c) (below : c.Below c')
    (kept : ∀ b, c.Has b → c'.Has b) : l.Within c' :=
  ⟨h.linear, h.below.trans below, fun found => kept _ (h.held found)⟩

/-- A ledger that is as another one within a chain is within the chain. -/
theorem congr {l' : ChainLedger} (h : l.Within c) (main : l'.main = l.main)
    (blocks : l'.blocks = l.blocks) : l'.Within c :=
  ⟨(h.linear.grows_of_same main blocks).linear, (Below.of_main main.symm).trans h.below,
    fun found => h.held (blocks ▸ found)⟩

/-- The genesis block is on the chain. -/
theorem ofGenesis {genesis : Block} (zero : genesis.number = 0) (solidifyDepth batch : Nat) :
    (ofGenesis genesis solidifyDepth batch).Within (ofGenesis genesis solidifyDepth batch) := by
  refine ⟨.ofGenesis zero solidifyDepth batch, .of_main rfl, fun {hash b} found => ?_⟩
  change ((∅ : Std.TreeMap Hash Block).insert genesis.id.hash genesis)[hash]? = some b at found
  rw [Std.TreeMap.getElem?_insert] at found
  split at found
  · cases found
    exact ⟨Array.mem_singleton.2 rfl, Std.TreeMap.getElem?_insert_self⟩
  · simp at found

/-- A ledger within a chain stays within it when a block of the chain is put on top. -/
theorem extend (h : l.Within c) (linear : c.Linear) (has : c.Has b)
    (next : b.number.toNat = l.head.number.toNat + 1) : (l.extend b).Within c := by
  refine ⟨(h.linear.grows_extend next).linear, ?_, fun found => ?_⟩
  · -- the block is on the chain at its height, which is the end of the ledger
    obtain ⟨i, found⟩ := Array.getElem?_of_mem has.1
    have height : i = l.main.size := by
      have pos := l.main_pos
      rw [← (linear.height found).1, b.number_id, next, h.linear.head_height]
      omega
    obtain ⟨rest, whole⟩ := h.below
    rw [← Array.getElem?_toList, ← whole, height, List.getElem?_append_right (by simp)] at found
    rw [Array.length_toList, Nat.sub_self] at found
    show (l.main.push b.id).toList <+: c.main.toList
    rw [Array.toList_push, ← whole, List.prefix_append_right_inj]
    obtain ⟨more, rfl⟩ : ∃ more, rest = b.id :: more := by
      cases rest with
      | nil => cases found
      | cons first more =>
        cases found
        exact ⟨more, rfl⟩
    exact ⟨more, rfl⟩
  · rcases getElem?_extend found with rfl | old
    · exact has
    · exact h.held old

/-- A ledger within a chain stays within it when a block of the chain is applied. -/
theorem applyBlock {l' : ChainLedger} {r : Except Refusal (List Hash)} (h : l.Within c)
    (linear : c.Linear) (has : c.Has b) (done : l.applyBlock b = .ok (r, l')) : l'.Within c := by
  rcases applyBlock_cases done with ⟨rfl, -⟩ | ⟨-, rfl, -, -, next⟩
  · exact h
  · exact h.extend linear has next

/-- A chain that is extended by a new block is a chain. -/
theorem grow (h : c.Within c) (fresh : c.blocks.contains b.id.hash = false)
    (next : b.number.toNat = c.head.number.toNat + 1) : (c.extend b).Within (c.extend b) := by
  refine ⟨(h.linear.grows_extend next).linear, .of_main rfl, fun found => ?_⟩
  rcases getElem?_extend found with rfl | old
  · exact has_extend_self c _
  · exact (h.held old).extend fresh

end Within

/-- **Producing a block.**  A block that is produced is refused, and changes nothing; or it is new,
and is put on top of the head. -/
theorem Linear.produce_cases {l l' : ChainLedger} {timestamp witness : UInt64}
    {transactions : List Transaction} {r : Except Refusal Block} (linear : l.Linear)
    (done : l.produce timestamp witness transactions = .ok (r, l')) :
    (∃ error, r = .error error ∧ l' = l) ∨
      ∃ b, r = .ok b ∧ l' = l.extend b ∧ l.blocks.contains b.id.hash = false ∧
        b.number.toNat = l.head.number.toNat + 1 := by
  obtain ⟨b, following, done⟩ := Checked.bind_eq_ok_iff.1 done
  obtain ⟨⟨result, l₁⟩, applied, done⟩ := Checked.bind_eq_ok_iff.1 done
  cases done
  rcases applyBlock_cases applied with ⟨same, held⟩ | ⟨rfl, rfl, fresh, -, height⟩
  · cases result with
    | error error => exact .inl ⟨error, rfl, same⟩
    | ok hashes =>
      -- a block that is stored is not above the head
      obtain ⟨next, small⟩ := Block.following_eq_ok_iff.1 following
      have bound : l.head.number.toNat + 1 < 2 ^ 64 := by
        unfold maxWord wordBound at small
        omega
      have height : b.number.toNat = l.head.number.toNat + 1 := by
        rw [next, UInt64.toNat_add]
        exact Nat.mod_eq_of_lt bound
      have low := linear.height_le b.faithful_id (held hashes rfl)
      rw [b.number_id, height] at low
      omega
  · exact .inr ⟨b, rfl, rfl, fresh, height⟩

/-! ## Answers -/

/-- A ledger that was started from a genesis block answers with one more block at least. -/
theorem batch_pos {genesis : Block} {solidifyDepth batch : Nat} {l : ChainLedger}
    (calls : (ofGenesis genesis solidifyDepth batch).Calls l) : 1 ≤ l.batch := by
  rw [(fixed_calls calls).2]
  exact Nat.le_max_right ..

/-- Where an answer starts: at a block that the summary names, if it names any. -/
theorem start_of_idsBeyond {l : ChainLedger} {summary : List BlockId} {start : Nat}
    (long : l.headIndex ≠ 0)
    (found : (if summary.isEmpty then some 1
      else (summary.reverse.find? l.onMain).map fun id => id.number.toNat) = some start) :
    start ≤ l.headIndex ∧
      (summary ≠ [] → ∃ id ∈ summary, l.onMain id = true ∧ id.number.toNat = start) := by
  split at found
  next nothing =>
    cases found
    exact ⟨Nat.pos_of_ne_zero long, fun ne => absurd (List.isEmpty_iff.1 nothing) ne⟩
  next =>
    obtain ⟨id, newest, rfl⟩ := Option.map_eq_some_iff.1 found
    have on : l.onMain id = true := List.find?_some newest
    obtain ⟨other, at_height, -⟩ := (Option.any_eq_true _ _).1 on
    obtain ⟨lt, -⟩ := Array.getElem?_eq_some_iff.1 at_height
    have size := l.size_main
    have named := List.mem_reverse.1 (List.mem_of_find?_eq_some newest)
    exact ⟨by omega, fun _ => ⟨id, named, on, rfl⟩⟩

/-- **An answer.**  It is empty if the ledger holds nothing but the first block, or none of the
blocks that the summary names.  Otherwise it is a stretch of the main chain that starts at a block
that the summary names, if it names any, and ends at the head, or a batch beyond its start. -/
theorem idsBeyond_cases {l : ChainLedger} {summary ids : List BlockId}
    (done : l.idsBeyond summary = .ok ids) :
    (ids = [] ∧ (l.headIndex = 0 ∨ ∀ id ∈ summary, l.onMain id = false)) ∨
      ∃ start, start ≤ l.headIndex ∧
        (summary ≠ [] → ∃ id ∈ summary, l.onMain id = true ∧ id.number.toNat = start) ∧
        ids = (l.main.extract start (min l.headIndex (start + l.batch) + 1)).toList := by
  unfold idsBeyond at done
  split at done
  next short =>
    cases done
    exact .inl ⟨rfl, .inl short⟩
  next long =>
    dsimp only at done
    split at done
    next eq =>
      cases done
      split at eq
      · cases eq
      · refine .inl ⟨rfl, .inr fun id mem => ?_⟩
        rw [Option.map_eq_none_iff, List.find?_eq_none] at eq
        exact Bool.eq_false_iff.2 (eq id (List.mem_reverse.2 mem))
    next start eq =>
      obtain ⟨limit, sum, done⟩ := Checked.bind_eq_ok_iff.1 done
      obtain ⟨rfl, -⟩ := Checked.add_eq_ok_iff.1 sum
      cases done
      obtain ⟨low, named⟩ := start_of_idsBeyond long eq
      exact .inr ⟨start, low, named, rfl⟩

/-- A ledger answers every summary if its chain is not so long that a batch beyond it is at no
height. -/
theorem exists_idsBeyond {l : ChainLedger} (summary : List BlockId)
    (short : l.main.size + l.batch ≤ wordBound) : ∃ ids, l.idsBeyond summary = .ok ids := by
  have size := l.size_main
  unfold idsBeyond
  split
  next => exact ⟨_, rfl⟩
  next long =>
    dsimp only
    split
    next => exact ⟨_, rfl⟩
    next start eq =>
      obtain ⟨low, -⟩ := start_of_idsBeyond long eq
      have limit : Checked.add start l.batch = .ok (start + l.batch) :=
        Checked.add_eq_ok_iff.2 ⟨rfl, by omega⟩
      exact ⟨_, Checked.bind_eq_ok_iff.2 ⟨_, limit, rfl⟩⟩

/-- How long the stretch is with which a ledger answers. -/
theorem length_stretch (l : ChainLedger) (start : Nat) :
    (l.main.extract start (min l.headIndex (start + l.batch) + 1)).toList.length =
      min l.headIndex (start + l.batch) + 1 - start := by
  have size := l.size_main
  rw [Array.length_toList, Array.size_extract]
  omega

/-- An answer of several blocks that says that nothing is left ends at the height of the head, or
above it. -/
theorem height_le_of_remainingFor {head last : BlockId} {summary ids : List BlockId}
    (several : 2 ≤ ids.length) (ends : ids.getLast? = some last)
    (complete : Engine.remainingFor head summary ids = 0) :
    head.number.toNat ≤ last.number.toNat := by
  have open_ended : Engine.isComplete summary ids = false := by
    match ids, several with
    | _ :: _ :: _, _ => rfl
  rw [Engine.remainingFor, open_ended, if_neg Bool.false_ne_true, Engine.remainingBeyond,
    ends] at complete
  dsimp only at complete
  split at complete
  next below =>
    have nothing : head.number.toNat - last.number.toNat = 0 := by
      rw [← UInt64.toNat_sub_of_le _ _ below, complete, UInt64.toNat_zero]
    omega
  next above =>
    rw [UInt64.le_iff_toNat_le] at above
    omega

/-- **The end of an answer.**  An answer that is not empty, and that says that nothing is left
beyond it, ends at the head. -/
theorem getLast?_idsBeyond {l : ChainLedger} {summary ids : List BlockId} (linear : l.Linear)
    (batch : 1 ≤ l.batch) (done : l.idsBeyond summary = .ok ids)
    (complete : Engine.remainingFor l.head summary ids = 0) {last : BlockId}
    (ends : ids.getLast? = some last) : last = l.head := by
  rcases idsBeyond_cases done with ⟨rfl, -⟩ | ⟨start, start_le, -, eq⟩
  · cases ends
  have top := getElem?_headIndex l
  have size := l.size_main
  have length : ids.length = min l.headIndex (start + l.batch) + 1 - start := by
    rw [eq, l.length_stretch]
  have found : l.main[min l.headIndex (start + l.batch)]? = some last := by
    rw [List.getLast?_eq_getElem?, length, eq, Array.getElem?_toList,
      Array.getElem?_extract, if_pos (by omega)] at ends
    have last : start + (min l.headIndex (start + l.batch) + 1 - start - 1) =
        min l.headIndex (start + l.batch) := by omega
    rwa [last] at ends
  rcases Nat.lt_or_ge (start + l.batch) l.headIndex with short | far
  · -- a stretch that ends below the head has two blocks or more, and leaves some
    rw [Nat.min_eq_right (Nat.le_of_lt short)] at found length
    have several : 2 ≤ ids.length := by omega
    have reached := height_le_of_remainingFor several ends complete
    rw [(linear.height top).1, (linear.height found).1] at reached
    omega
  · rw [Nat.min_eq_left far, top] at found
    exact (Option.some.inj found).symm

/-- **An empty answer.**  A ledger on the same chain that answers with nothing is not ahead, if
the summary names a block of the main chain. -/
theorem below_of_idsBeyond_eq_nil {l m : ChainLedger} {summary : List BlockId} {id : BlockId}
    (answer : l.idsBeyond summary = .ok []) (comparable : m.Below l ∨ l.Below m)
    (named : id ∈ summary) (on : m.onMain id = true) : l.Below m := by
  rcases comparable with ahead | behind
  · rcases idsBeyond_cases answer with ⟨-, short | unknown⟩ | ⟨start, start_le, -, eq⟩
    · -- with one block, and not less than the other one, it has just the same block
      have same : m.main.toList = l.main.toList := by
        refine ahead.eq_of_length_le ?_
        rw [Array.length_toList, Array.length_toList, l.size_main, m.size_main, short]
        omega
      exact .of_main (Array.toList_inj.1 same)
    · exact absurd (ahead.onMain on) (Bool.eq_false_iff.1 (unknown id named))
    · -- a stretch is not empty
      have length := l.length_stretch start
      rw [← eq, List.length_nil] at length
      omega
  · exact behind

end BlockRelay.ChainLedger
