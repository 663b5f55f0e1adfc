/-
# Segments of a chain

A segment of a main chain is what lies above one height and up to another one
(`ChainLedger.segment`).  When two ledgers are on one chain, all that a catch-up moves is a segment
of the longer chain: what is still to be fetched, what a reply names beyond the block where it
starts, and what is left of it after the stored blocks were skipped.

A summary ends with the last block to be fetched, or with our head (`Linear.sampleChain_head`).  It
is answered from there on (`Linear.idsBeyond_eq`), and an answer that starts at the end of the
queue makes the queue longer by a segment (`Peer.continueCatchUp_segment`).
-/
import BlockRelay.Proofs.HonestReplies

namespace BlockRelay

namespace ChainLedger

/-- The blocks of the main chain above the height `low` and up to the height `high`. -/
def segment (l : ChainLedger) (low high : Nat) : List BlockId :=
  (l.main.extract (low + 1) (high + 1)).toList

variable {l c : ChainLedger} {low mid high : Nat} {id : BlockId}

/-- Nothing lies between a height and itself. -/
@[simp] theorem segment_self (l : ChainLedger) (low : Nat) : l.segment low low = [] := by
  simp [segment]

/-- A segment up to the head has as many blocks as it has heights. -/
theorem length_segment (top : high ≤ l.headIndex) : (l.segment low high).length = high - low := by
  have size := l.size_main
  rw [segment, Array.length_toList, Array.size_extract]
  omega

/-- The blocks of a segment are those of its heights. -/
theorem mem_segment : id ∈ l.segment low high ↔ ∃ i, low < i ∧ i ≤ high ∧ l.main[i]? = some id := by
  rw [segment, List.mem_iff_getElem?]
  simp only [Array.getElem?_toList, Array.getElem?_extract]
  constructor
  · rintro ⟨i, found⟩
    split at found
    · exact ⟨low + 1 + i, by omega, by omega, found⟩
    · cases found
  · rintro ⟨i, above, upTo, found⟩
    obtain ⟨lt, -⟩ := Array.getElem?_eq_some_iff.1 found
    refine ⟨i - (low + 1), ?_⟩
    rw [if_pos (by omega), ← found]
    congr 1
    omega

/-- Two segments of which one ends where the other begins. -/
theorem segment_append (le : low ≤ mid) (le' : mid ≤ high) :
    l.segment low mid ++ l.segment mid high = l.segment low high := by
  rw [segment, segment, segment, ← Array.toList_append, Array.extract_append_extract,
    Nat.min_eq_left (by omega), Nat.max_eq_right (by omega)]

/-- A stretch of the main chain is its first block and the segment above it. -/
theorem extract_eq_cons (found : l.main[low]? = some id) (le : low ≤ high) :
    (l.main.extract low (high + 1)).toList = id :: l.segment low high := by
  obtain ⟨lt, eq⟩ := Array.getElem?_eq_some_iff.1 found
  have first : l.main.extract low (low + 1) = #[id] := by
    have nothing : l.main.extract low low = #[] := Array.extract_eq_empty_of_le (Nat.min_le_left ..)
    rw [Array.extract_succ_right (by omega) lt, eq, nothing]
    rfl
  have split : l.main.extract low (low + 1) ++ l.main.extract (low + 1) (high + 1) =
      l.main.extract low (high + 1) := by
    rw [Array.extract_append_extract, Nat.min_eq_left (by omega), Nat.max_eq_right (by omega)]
  rw [← split, first, Array.toList_append, segment]
  rfl

/-- A segment begins with the block above its lower end. -/
theorem segment_eq_cons (found : l.main[low + 1]? = some id) (lt : low < high) :
    l.segment low high = id :: l.segment (low + 1) high :=
  extract_eq_cons found lt

/-- A segment ends with the block at its upper end. -/
theorem getLast?_segment {base : BlockId} (found : l.main[low]? = some base) (le : low ≤ high)
    (top : high ≤ l.headIndex) : (base :: l.segment low high).getLast? = l.main[high]? := by
  have size := l.size_main
  rw [← extract_eq_cons found le, List.getLast?_eq_getElem?, Array.getElem?_toList,
    Array.getElem?_extract, if_pos, Array.length_toList, Array.size_extract]
  · congr 1
    omega
  · rw [Array.length_toList, Array.size_extract]
    omega

/-- The blocks of a segment have consecutive heights. -/
theorem Linear.consecutive_segment (h : l.Linear) (low high : Nat) :
    Consecutive (l.segment low high) :=
  h.consecutive_extract (low + 1) (high + 1)

/-- A block of a segment is found by its hash. -/
theorem Linear.mem_hashes_segment (h : l.Linear) (found : l.main[i]? = some id) :
    id.hash ∈ (l.segment low high).map BlockId.hash ↔ low < i ∧ i ≤ high := by
  rw [List.mem_map]
  constructor
  · rintro ⟨other, mem, same⟩
    obtain ⟨j, above, upTo, found'⟩ := mem_segment.1 mem
    obtain ⟨height, faithful⟩ := h.height found
    obtain ⟨height', faithful'⟩ := h.height found'
    -- equal hashes carry equal heights
    have eq : i = j := by rw [← height, ← height', ← faithful, ← faithful', same]
    rw [eq]
    exact ⟨above, upTo⟩
  · rintro ⟨above, upTo⟩
    exact ⟨id, mem_segment.2 ⟨i, above, upTo, found⟩, rfl⟩

/-! ## Summaries -/

/-- **The end of a summary.**  With the first block or the head in common, a summary goes on through
all that is pending. -/
theorem Linear.sampleChain_head (h : l.Linear) {shared : BlockId}
    (known : shared.same l.first = true ∨ shared = l.head) (pending : List BlockId) :
    ∃ ids, l.sampleChain shared pending = .ok ids ∧
      ids.getLast? = (l.head :: pending).getLast? := by
  have ends (d : Nat) : ((summaryDistances d).filterMap fun d =>
      l.knownAt? l.headIndex pending (l.headIndex + pending.length - d)).getLast? =
        (l.head :: pending).getLast? := by
    -- the last distance is zero, and leads to the end of what is pending, or to the head
    obtain ⟨front, eq⟩ := List.getLast?_eq_some_iff.1 (getLast_summaryDistances d)
    have last : l.knownAt? l.headIndex pending (l.headIndex + pending.length - 0) =
        (l.head :: pending).getLast? := by
      rw [knownAt?]
      cases pending with
      | nil => exact (if_pos (by simp)).trans l.getElem?_headIndex
      | cons first rest =>
        rw [if_neg (by simp), List.getLast?_cons_cons, List.getLast?_eq_getElem?]
        congr 1
        simp
    obtain ⟨tip, found⟩ : ∃ tip, (l.head :: pending).getLast? = some tip :=
      ⟨_, List.getLast?_cons⟩
    rw [eq, List.getLast?_filterMap, List.reverse_append, List.reverse_singleton,
      List.singleton_append, List.findSome?_cons, last, found]
  unfold sampleChain
  dsimp only
  by_cases first : shared.same l.first = true
  · exact ⟨_, if_pos first, ends _⟩
  · obtain rfl := known.resolve_left first
    have on : l.onMain l.head = true := by
      rw [onMain, h.head_height, ← headIndex, l.getElem?_headIndex]
      exact BlockId.same_iff.2 rfl
    have height : l.head.number.toNat = l.headIndex := h.head_height
    rw [if_neg first, if_pos on, height]
    exact ⟨_, rfl, ends _⟩

/-! ## Answers -/

section Answer

variable {summary ids : List BlockId} {tip : BlockId} {start : Nat}

/-- The newest entry of a summary that is on the main chain is its last one, if this one is. -/
theorem Linear.idsBeyond_of_getLast? (h : l.Linear) (ends : summary.getLast? = some tip)
    (found : l.main[start]? = some tip) :
    l.idsBeyond summary =
      if l.headIndex = 0 then .ok []
      else (Checked.add start l.batch).map fun limit =>
        (l.main.extract start (min l.headIndex limit + 1)).toList := by
  obtain ⟨front, rfl⟩ := List.getLast?_eq_some_iff.1 ends
  have height : tip.number.toNat = start := (h.height found).1
  have on : l.onMain tip = true := by
    rw [onMain, height, found]
    exact BlockId.same_iff.2 rfl
  have named : (front ++ [tip]).isEmpty = false := by simp
  unfold idsBeyond
  simp only [named, Bool.false_eq_true, if_false, List.reverse_append, List.reverse_singleton,
    List.singleton_append, List.find?_cons_of_pos on, Option.map_some, height]
  cases Checked.add start l.batch <;> rfl

/-- **The start of an answer.**  A summary whose last block is on the main chain is answered from
this block on. -/
theorem Linear.idsBeyond_eq (h : l.Linear) (ends : summary.getLast? = some tip)
    (found : l.main[start]? = some tip) (done : l.idsBeyond summary = .ok ids) :
    ids = if l.headIndex = 0 then []
      else tip :: l.segment start (min l.headIndex (start + l.batch)) := by
  rw [h.idsBeyond_of_getLast? ends found] at done
  split at done
  next short =>
    cases done
    rw [if_pos short]
  next long =>
    obtain ⟨lt, -⟩ := Array.getElem?_eq_some_iff.1 found
    have size := l.size_main
    rw [if_neg long]
    cases sum : Checked.add start l.batch with
    | error => rw [sum] at done; cases done
    | ok limit =>
      rw [sum] at done
      obtain ⟨rfl, -⟩ := Checked.add_eq_ok_iff.1 sum
      cases done
      exact extract_eq_cons found (by omega)

/-- A summary whose last block is on the main chain is answered, unless a batch beyond this block is
at no height. -/
theorem Linear.exists_idsBeyond_of_getLast? (h : l.Linear) (ends : summary.getLast? = some tip)
    (found : l.main[start]? = some tip) (fits : start + l.batch < wordBound) :
    ∃ ids, l.idsBeyond summary = .ok ids := by
  rw [h.idsBeyond_of_getLast? ends found, Checked.add_eq_ok_iff.2 ⟨rfl, fits⟩]
  split <;> exact ⟨_, rfl⟩

/-- **What is left beyond an answer.**  An answer from the last block of the summary on says how
many blocks there are above those that it names. -/
theorem Linear.remainingFor_eq (h : l.Linear) (batch : 1 ≤ l.batch)
    (ends : summary.getLast? = some tip) (found : l.main[start]? = some tip)
    (done : l.idsBeyond summary = .ok ids) :
    (Engine.remainingFor l.head summary ids).toNat =
      l.headIndex - min l.headIndex (start + l.batch) := by
  have answer := h.idsBeyond_eq ends found done
  obtain ⟨lt, -⟩ := Array.getElem?_eq_some_iff.1 found
  have size := l.size_main
  have height : l.head.number.toNat = l.headIndex := h.head_height
  split at answer
  next short =>
    rw [answer, short, Nat.zero_sub]
    rfl
  next long =>
    have named : tip.isIn summary = true :=
      BlockId.isIn_iff.2 ⟨tip, List.mem_of_getLast? ends, rfl⟩
    by_cases alone : start = l.headIndex
    · -- the answer names only the head, which the summary names as well
      have single : ids = [tip] := by
        rw [answer, alone, Nat.min_eq_left (Nat.le_add_right ..), segment_self]
      have complete : Engine.isComplete summary ids = true := by
        rw [single, Engine.isComplete, named]
        cases summary with
        | nil => cases ends
        | cons => rfl
      rw [Engine.remainingFor, complete, alone, Nat.min_eq_left (Nat.le_add_right ..), Nat.sub_self]
      rfl
    · have last : ids.getLast? = l.main[min l.headIndex (start + l.batch)]? := by
        rw [answer]
        exact getLast?_segment found (by omega) (by omega)
      have several : Engine.isComplete summary ids = false := by
        have two : 2 ≤ ids.length := by
          rw [answer, List.length_cons, length_segment (by omega)]
          omega
        rcases ids with _ | ⟨first, _ | ⟨second, rest⟩⟩
        · cases two
        · exact absurd two (Nat.not_succ_le_self 1)
        · rfl
      obtain ⟨final, at_end⟩ : ∃ final, l.main[min l.headIndex (start + l.batch)]? = some final :=
        ⟨_, Array.getElem?_eq_getElem (by omega)⟩
      have final_height := (h.height at_end).1
      have le : final.number ≤ l.head.number := UInt64.le_iff_toNat_le.2 (by omega)
      rw [Engine.remainingFor, several, if_neg Bool.false_ne_true, Engine.remainingBeyond, last,
        at_end]
      dsimp only
      rw [if_pos le, UInt64.toNat_sub_of_le _ _ le, final_height, height]

end Answer

/-! ## Stored blocks -/

/-- A ledger on a chain stores just the blocks of the chain up to its head. -/
theorem Below.stored_iff (below : l.Below c) (linear : l.Linear) (whole : c.Linear) {i : Nat}
    (found : c.main[i]? = some id) : l.blocks.contains id.hash = true ↔ i ≤ l.headIndex := by
  have size := l.size_main
  obtain ⟨height, faithful⟩ := whole.height found
  constructor
  · intro stored
    have low := linear.height_le faithful stored
    rw [height, linear.head_height] at low
    omega
  · intro low
    have here : l.main[i]? = some l.main[i] := Array.getElem?_eq_getElem (by omega)
    have eq : id = l.main[i] := Option.some.inj (found.symm.trans (below.getElem? here))
    rw [eq]
    exact (linear.stored _).2 ⟨_, Array.mem_of_getElem? here, rfl⟩

end ChainLedger

/-! ## Queues -/

namespace Peer

variable {p : Peer} {c : ChainLedger} {recent : RecentBlocks} {low mid high : Nat} {tip : BlockId}

/-- What is not recent is not skipped. -/
theorem skipRecent_of_fresh {ids : List BlockId} (bothHave : BlockId)
    (fresh : ∀ id ∈ ids.head?, recent.contains id = false) :
    skipRecent recent bothHave ids = (bothHave, ids) := by
  cases ids with
  | nil => rfl
  | cons id rest => rw [skipRecent, fresh id rfl, if_neg Bool.false_ne_true]

/-- What is not stored is not skipped. -/
theorem skipStored_of_fresh {ids : List (BlockId × Bool)} (bothHave : BlockId)
    (fresh : ∀ id ∈ ids.head?, id.2 = false) : skipStored bothHave ids = (bothHave, ids) := by
  unfold skipStored
  split
  next => cases fresh _ rfl
  next => rfl

/-- A queue that ends where a reply begins is kept as a whole. -/
theorem cutBehind_of_getLast? (ends : p.toFetch.getLast? = some tip) (stored : Bool) :
    p.cutBehind tip stored = p := by
  obtain ⟨front, eq⟩ := List.getLast?_eq_some_iff.1 ends
  have kept : (p.toFetch.reverse.dropWhile fun id => !id.same tip).reverse = p.toFetch := by
    rw [eq, List.reverse_append, List.reverse_singleton, List.singleton_append,
      List.dropWhile_cons_of_neg (by simp), List.reverse_cons, List.reverse_reverse]
  have nonempty : p.toFetch.isEmpty = false := by simp [eq]
  unfold cutBehind
  dsimp only
  rw [kept, nonempty, Bool.false_and, if_neg Bool.false_ne_true]

/-- A reply that starts at the end of a segment to be fetched, or at a stored block when nothing is
to be fetched, is joined to the segment. -/
theorem joinReply_segment {stored : BlockId → Bool} (found : c.main[mid]? = some tip)
    (le : low ≤ mid) (le' : mid ≤ high) (top : high ≤ c.headIndex)
    (queue : p.toFetch = c.segment low mid)
    (known : ∀ i id, c.main[i]? = some id → (stored id = true ↔ i ≤ low)) :
    p.joinReply ((tip :: c.segment mid high).map fun b => (b, stored b)) false =
      { p with
        toFetch := c.segment low high
        bothHave := if low = mid then tip else p.bothHave } := by
  have size := c.size_main
  rcases Nat.eq_or_lt_of_le le with rfl | lt
  · -- nothing is to be fetched: the reply starts at a stored block, and goes on above it
    rw [ChainLedger.segment_self] at queue
    have first : stored tip = true := (known low tip found).2 (Nat.le_refl _)
    have rest : ∀ id ∈ ((c.segment low high).map fun b => (b, stored b)).head?, id.2 = false := by
      intro id mem
      obtain ⟨b, listed, rfl⟩ := List.mem_map.1 (List.mem_of_mem_head? mem)
      obtain ⟨i, above, -, at_height⟩ := ChainLedger.mem_segment.1 listed
      rw [Bool.eq_false_iff, ne_eq, known i b at_height]
      omega
    have skipped : skipStored p.bothHave ((tip :: c.segment low high).map fun b => (b, stored b)) =
        (tip, (c.segment low high).map fun b => (b, stored b)) := by
      rw [List.map_cons, first, skipStored, skipStored_of_fresh tip rest]
    unfold joinReply
    simp only [queue]
    rw [if_neg Bool.false_ne_true, skipped]
    simp [Function.comp_def]
  · have ends : p.toFetch.getLast? = some tip := by
      have bottom : c.main[low]? = some c.main[low] := Array.getElem?_eq_getElem (by omega)
      have last := ChainLedger.getLast?_segment bottom le (by omega)
      rw [found] at last
      rw [queue]
      cases segment : c.segment low mid with
      | nil =>
        have length : (c.segment low mid).length = mid - low := c.length_segment (by omega)
        rw [segment, List.length_nil] at length
        omega
      | cons next rest => rwa [segment, List.getLast?_cons_cons] at last
    have nonempty : p.toFetch ≠ [] := by
      intro nothing
      rw [nothing] at ends
      cases ends
    obtain ⟨next, rest, eq⟩ := List.exists_cons_of_ne_nil nonempty
    rw [if_neg (Nat.ne_of_lt lt), ← ChainLedger.segment_append le le', ← queue]
    unfold joinReply
    simp only [List.map_cons, eq]
    rw [cutBehind_of_getLast? ends, eq]
    simp [Function.comp_def]

/-- **Going on with a catch-up on one chain.**  A reply that starts at the end of the queue makes
the queue longer by a segment.  Nothing else changes but what is left beyond it. -/
theorem continueCatchUp_segment {stored : BlockId → Bool} {remaining : UInt64}
    (found : c.main[mid]? = some tip) (le : low ≤ mid) (le' : mid ≤ high)
    (top : high ≤ c.headIndex) (queue : p.toFetch = c.segment low mid)
    (known : ∀ i id, c.main[i]? = some id → (stored id = true ↔ i ≤ low))
    (fresh : ∀ id ∈ c.segment low high, recent.contains id = false) :
    p.continueCatchUp ((tip :: c.segment mid high).map fun b => (b, stored b)) remaining false
        recent =
      { p with
        toFetch := c.segment low high
        bothHave := if low = mid then tip else p.bothHave
        unfetched := remaining
        needFromPeer := p.needFromPeer && !(remaining = 0 && low = high)
        phase := if remaining = 0 && low = high then .caughtUp else .fetching } := by
  have joined := joinReply_segment found le le' top queue known
  have empty : (c.segment low high).isEmpty = decide (low = high) := by
    rw [Bool.eq_iff_iff, List.isEmpty_iff_length_eq_zero, c.length_segment top, decide_eq_true_iff]
    omega
  unfold continueCatchUp
  dsimp only
  rw [joined, skipRecent_of_fresh _ fun id mem => fresh id (List.mem_of_mem_head? mem)]
  dsimp only
  rw [empty]

end Peer

end BlockRelay
