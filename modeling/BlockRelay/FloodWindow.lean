/-
# The flood window

A moving window over recent transaction announcements.  The window is a row of
slots; counting adds to the current slot, and advancing opens a fresh slot while
the oldest one falls out.
-/

namespace BlockRelay

/-- The slots of a window: the current one, and the older ones with the newest first. -/
structure FloodWindow where
  current : Nat
  older : List Nat
  deriving DecidableEq, Repr, Inhabited

namespace FloodWindow

/-- A window of `size` empty slots, at least one. -/
def empty (size : Nat) : FloodWindow := ⟨0, List.replicate (size - 1) 0⟩

/-- The number of slots. -/
def size (w : FloodWindow) : Nat := w.older.length + 1

/-- Everything that was counted and has not fallen out. -/
def total (w : FloodWindow) : Nat := w.current + w.older.foldr (· + ·) 0

/-- Count one announcement. -/
def increase (w : FloodWindow) : FloodWindow := { w with current := w.current + 1 }

/-- Open a fresh slot; the oldest one falls out. -/
def advance (w : FloodWindow) : FloodWindow := ⟨0, (w.current :: w.older).dropLast⟩

/-- A new window has the requested number of slots, and at least one. -/
theorem size_empty (n : Nat) : (empty n).size = max n 1 := by
  show (List.replicate (n - 1) 0).length + 1 = max n 1
  rw [List.length_replicate]
  omega

/-- A new window has counted nothing. -/
@[simp] theorem total_empty (n : Nat) : (empty n).total = 0 := by
  show 0 + (List.replicate (n - 1) 0).foldr (· + ·) 0 = 0
  induction n - 1 with
  | zero => rfl
  | succ k ih => simpa [List.replicate_succ] using ih

/-- Counting keeps the number of slots. -/
@[simp] theorem size_increase (w : FloodWindow) : w.increase.size = w.size := rfl

/-- Counting adds one to the total. -/
@[simp] theorem total_increase (w : FloodWindow) : w.increase.total = w.total + 1 := by
  show w.current + 1 + w.older.foldr (· + ·) 0 = w.current + w.older.foldr (· + ·) 0 + 1
  omega

/-- Advancing keeps the number of slots. -/
@[simp] theorem size_advance (w : FloodWindow) : w.advance.size = w.size := by
  simp [advance, size]

end FloodWindow

end BlockRelay
