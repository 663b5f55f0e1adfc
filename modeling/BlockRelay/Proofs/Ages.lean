/-
# The age of what was counted

What a flood window counts grows older with every advance: its age is the number of advances since
(`FloodCall.ages`).  A call adds an announcement of age zero or makes all of them older by one, and
in the same way a window counts in its first slot or moves every slot one place on.  So the slots
of a window hold, place by place, as many announcements as have that age (`FloodWindow.Shows`), and
its total is the number of those that are younger than the window is long.

The slots may as well stay in place, in a ring with a cursor (`FloodRing`), which comes round to the
oldest slot when it is advanced.  A ring holds a window whatever is called (`FloodRing.Holds`), so
both count the same (`FloodWindow.total_replay`).
-/
import BlockRelay.FloodWindow
import Mathlib.Algebra.Ring.Nat
import Mathlib.Data.List.Basic
import Mathlib.Data.List.Count
import Mathlib.Data.List.Induction

namespace BlockRelay

/-- A call on a flood window. -/
inductive FloodCall
  | increase
  | advance
  deriving Repr, DecidableEq

namespace FloodCall

/-- The ages of the announcements that were counted, in the order in which they were: for each of
them the number of advances that came later. -/
def ages : List FloodCall → List Nat
  | [] => []
  | .increase :: later => later.count .advance :: ages later
  | .advance :: later => ages later

/-- What is counted last has age zero. -/
theorem ages_concat_increase (calls : List FloodCall) :
    ages (calls ++ [.increase]) = ages calls ++ [0] := by
  induction calls with
  | nil => rfl
  | cons call later ih =>
    cases call with
    | increase =>
      rw [List.cons_append, ages, ages, ih, List.count_append]
      rfl
    | advance => exact ih

/-- An advance makes everything older that was counted. -/
theorem ages_concat_advance (calls : List FloodCall) :
    ages (calls ++ [.advance]) = (ages calls).map (· + 1) := by
  induction calls with
  | nil => rfl
  | cons call later ih =>
    cases call with
    | increase =>
      rw [List.cons_append, ages, ages, ih, List.count_append]
      rfl
    | advance => exact ih

end FloodCall

open FloodCall

/-! ## Ages below a bound -/

/-- Ages below the next bound are those below a bound, and those that are equal to it. -/
theorem countP_lt_succ (ages : List Nat) (n : Nat) :
    ages.countP (· < n + 1) = ages.countP (· < n) + ages.count n := by
  induction ages with
  | nil => rfl
  | cons age ages ih =>
    rw [List.countP_cons, List.countP_cons, List.count_cons, ih]
    simp only [decide_eq_true_eq, beq_iff_eq]
    split_ifs <;> omega

/-- Ages below a bound are counted one age after the other. -/
theorem sum_count_range (ages : List Nat) (n : Nat) :
    ((List.range n).map (ages.count ·)).sum = ages.countP (· < n) := by
  induction n with
  | zero => simp
  | succ n ih =>
    rw [List.range_succ, List.map_append, List.sum_append, ih, countP_lt_succ]
    simp

/-! ## The slots of a window -/

namespace FloodWindow

/-- What a call does to a window. -/
def step (w : FloodWindow) : FloodCall → FloodWindow
  | .increase => w.increase
  | .advance => w.advance

/-- The calls on an empty window, one after the other. -/
def replay (size : Nat) (calls : List FloodCall) : FloodWindow := calls.foldl step (empty size)

/-- The slots of a window, the current one first. -/
def slots (w : FloodWindow) : List Nat := w.current :: w.older

/-- The total is what the slots hold together. -/
theorem total_eq_sum (w : FloodWindow) : w.total = w.slots.sum := rfl

/-- The oldest slot falls out. -/
theorem advance_concat (current oldest : Nat) (newer : List Nat) :
    advance ⟨current, newer ++ [oldest]⟩ = ⟨0, current :: newer⟩ := by
  rw [advance, ← List.cons_append, List.dropLast_concat]

/-- Whether each slot of a window holds as many announcements as have the age of its place. -/
def Shows (w : FloodWindow) (counted : List Nat) : Prop :=
  w.slots = (List.range w.size).map (counted.count ·)

variable {w : FloodWindow} {counted : List Nat}

/-- A window shows what it shows in the current slot, and in the older ones. -/
theorem shows_iff :
    w.Shows counted ↔ w.current = counted.count 0 ∧
      w.older = (List.range w.older.length).map (fun k => counted.count (k + 1)) := by
  rw [Shows, slots, size, List.range_succ_eq_map, List.map_cons, List.map_map, List.cons.injEq]
  rfl

/-- A new window shows that nothing was counted. -/
theorem shows_empty (size : Nat) : (empty size).Shows [] := by
  rw [shows_iff]
  refine ⟨rfl, ?_⟩
  simp [empty, List.map_const']

namespace Shows

/-- To count an announcement adds one of age zero. -/
theorem increase (h : w.Shows counted) : w.increase.Shows (counted ++ [0]) := by
  rw [shows_iff] at h ⊢
  obtain ⟨current, older⟩ := h
  constructor
  · show w.current + 1 = _
    rw [current, List.count_append, List.count_singleton_self]
  · show w.older = (List.range w.older.length).map _
    simpa [List.count_append, List.count_singleton] using older

/-- To advance makes all announcements older by one. -/
theorem advance (h : w.Shows counted) : w.advance.Shows (counted.map (· + 1)) := by
  have older (k : Nat) : (counted.map (· + 1)).count (k + 1) = counted.count k :=
    List.count_map_of_injective counted (· + 1) (fun a b => Nat.succ.inj) k
  have young : (counted.map (· + 1)).count 0 = 0 := List.count_eq_zero.2 (by simp)
  rw [shows_iff, young]
  refine ⟨rfl, ?_⟩
  show w.slots.dropLast = (List.range w.slots.dropLast.length).map _
  simp only [older]
  -- the last slot falls out, and each of the others comes to stand for the next age
  have held : w.slots.dropLast = (List.range w.older.length).map (counted.count ·) := by
    have all : w.slots = (List.range w.size).map (counted.count ·) := h
    rw [all, size, List.range_succ, List.map_append, List.map_singleton, List.dropLast_concat]
  rw [held, List.length_map, List.length_range]

/-- **Every slot shows the announcements of one age.** -/
theorem replay (size : Nat) (calls : List FloodCall) :
    (replay size calls).Shows (ages calls) := by
  induction calls using List.reverseRecOn with
  | nil => exact shows_empty size
  | append_singleton calls call ih =>
    rw [FloodWindow.replay, List.foldl_concat]
    cases call with
    | increase =>
      rw [ages_concat_increase]
      exact ih.increase
    | advance =>
      rw [ages_concat_advance]
      exact ih.advance

/-- A window counts what is younger than the window is long. -/
theorem total_eq (h : w.Shows counted) : w.total = counted.countP (· < w.size) := by
  rw [total_eq_sum, h, sum_count_range]

end Shows

/-- No call changes the number of slots. -/
theorem size_replay (size : Nat) (calls : List FloodCall) :
    (replay size calls).size = max size 1 := by
  induction calls using List.reverseRecOn with
  | nil => exact size_empty size
  | append_singleton calls call ih =>
    rw [replay, List.foldl_concat]
    cases call with
    | increase => exact ih
    | advance => exact (size_advance _).trans ih

end FloodWindow

/-! ## A ring of slots -/

/-- A window whose slots stay in place: a ring of slots, and the position of the current one. -/
structure FloodRing where
  slots : List Nat
  index : Nat
  deriving DecidableEq, Repr

namespace FloodRing

/-- A ring of `size` empty slots, at least one. -/
def empty (size : Nat) : FloodRing := ⟨List.replicate (max size 1) 0, 0⟩

/-- Count one announcement. -/
def increase (r : FloodRing) : FloodRing := { r with slots := r.slots.modify r.index (· + 1) }

/-- Turn to the next slot, and forget what it counted. -/
def advance (r : FloodRing) : FloodRing :=
  let next := (r.index + 1) % r.slots.length
  ⟨r.slots.set next 0, next⟩

/-- What the slots hold together. -/
def total (r : FloodRing) : Nat := r.slots.sum

/-- What a call does to a ring. -/
def step (r : FloodRing) : FloodCall → FloodRing
  | .increase => r.increase
  | .advance => r.advance

/-- The calls on an empty ring, one after the other. -/
def replay (size : Nat) (calls : List FloodCall) : FloodRing := calls.foldl step (empty size)

/-- A ring holds a window: the older slots stand before the current one, with the newest next to
it, and go on from the end of the ring. -/
inductive Holds : FloodRing → FloodWindow → Prop
  | mk (front : List Nat) (current : Nat) (back : List Nat) :
    Holds ⟨front ++ current :: back, front.length⟩ ⟨current, front.reverse ++ back.reverse⟩

namespace Holds

variable {r : FloodRing} {w : FloodWindow}

/-- A new ring holds a new window. -/
theorem empty (size : Nat) : (empty size).Holds (.empty size) := by
  have slots : max size 1 = size - 1 + 1 := by omega
  have h := Holds.mk [] 0 (List.replicate (size - 1) 0)
  rw [List.reverse_replicate] at h
  rw [FloodRing.empty, slots, List.replicate_succ]
  exact h

/-- To count in the current slot of a ring is to count in the window. -/
theorem increase (h : r.Holds w) : r.increase.Holds w.increase := by
  obtain ⟨front, current, back⟩ := h
  have counted : (front ++ current :: back).modify front.length (· + 1) =
      front ++ (current + 1) :: back := by
    rw [List.modify_eq_take_cons_drop (by simp)]
    simp
  rw [FloodRing.increase, counted]
  exact .mk front (current + 1) back

/-- To turn a ring is to advance the window: the oldest slot is the next one, or the first one if
the current slot is the last of the ring. -/
theorem advance (h : r.Holds w) : r.advance.Holds w.advance := by
  obtain ⟨front, current, back⟩ := h
  cases back with
  | cons oldest back =>
    have next : (front.length + 1) % (front ++ current :: oldest :: back).length =
        (front ++ [current]).length := by
      rw [List.length_append, List.length_append, List.length_cons, List.length_cons,
        List.length_singleton]
      exact Nat.mod_eq_of_lt (by omega)
    have turned : (front ++ current :: oldest :: back).set (front ++ [current]).length 0 =
        (front ++ [current]) ++ 0 :: back := by simp
    have older : current :: (front.reverse ++ back.reverse) =
        (front ++ [current]).reverse ++ back.reverse := by simp
    rw [List.reverse_cons, ← List.append_assoc, FloodWindow.advance_concat, older]
    simp only [FloodRing.advance]
    rw [next, turned]
    exact .mk (front ++ [current]) 0 back
  | nil =>
    have next : (front.length + 1) % (front ++ [current]).length = 0 := by
      rw [List.length_append, List.length_singleton, Nat.mod_self]
    simp only [FloodRing.advance]
    rw [next, List.reverse_nil, List.append_nil]
    cases front with
    | nil => exact .mk [] 0 []
    | cons oldest front =>
      have older : current :: front.reverse = (front ++ [current]).reverse := by simp
      rw [List.reverse_cons, FloodWindow.advance_concat, older]
      exact .mk [] 0 (front ++ [current])

/-- A ring counts what its window counts. -/
theorem total_eq (h : r.Holds w) : r.total = w.total := by
  obtain ⟨front, current, back⟩ := h
  show (front ++ current :: back).sum = (current :: (front.reverse ++ back.reverse)).sum
  rw [List.sum_append, List.sum_cons, List.sum_cons, List.sum_append, List.sum_reverse,
    List.sum_reverse]
  omega

/-- After any calls a ring holds the window after these calls. -/
theorem replay (size : Nat) (calls : List FloodCall) :
    (replay size calls).Holds (.replay size calls) := by
  induction calls using List.reverseRecOn with
  | nil => exact .empty size
  | append_singleton calls call ih =>
    rw [FloodRing.replay, FloodWindow.replay, List.foldl_concat, List.foldl_concat]
    cases call with
    | increase => exact ih.increase
    | advance => exact ih.advance

end Holds

end FloodRing

/-! ## What is counted -/

/-- **What a flood window counts.**  Whatever was called, a window has as many slots as were asked
for, and at least one; it counts exactly the announcements after which it was advanced fewer times
than it has slots; and a ring of as many slots counts the same. -/
theorem FloodWindow.total_replay (size : Nat) (calls : List FloodCall) :
    (replay size calls).size = max size 1 ∧
    (replay size calls).total = (ages calls).countP (· < (replay size calls).size) ∧
    (FloodRing.replay size calls).total = (replay size calls).total :=
  ⟨size_replay size calls, (Shows.replay size calls).total_eq,
    (FloodRing.Holds.replay size calls).total_eq⟩

/-- The second advance of a window with two slots makes it forget what was counted before both. -/
example : (FloodWindow.replay 2 [.increase, .advance, .increase]).total = 2 ∧
    (FloodWindow.replay 2 [.increase, .advance, .increase, .advance]).total = 1 := by decide

end BlockRelay
