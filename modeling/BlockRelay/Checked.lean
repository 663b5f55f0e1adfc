/-
# Word arithmetic that refuses to wrap

Counts, heights and durations are unsigned 64-bit quantities.  A sum, difference
or product that does not fit in 64 bits is not an answer: it aborts the operation
that asked for it.  `Checked α` is the type of computations that may abort, and
`Overflow` says which operator did.

Every checked operator is characterised by one equivalence
(`Checked.add_eq_ok_iff` and its companions): it succeeds with the exact value,
and only when that value is a word.  A sequence of computations is opened by
`Checked.bind_eq_ok_iff`.
-/

namespace BlockRelay

/-- The operator whose exact result is not a 64-bit word. -/
inductive Overflow where
  | add
  | sub
  | mul
  deriving DecidableEq, Repr

/-- The diagnostic that an aborted operation leaves. -/
def Overflow.message : Overflow → String
  | .add => "attempt to add with overflow"
  | .sub => "attempt to subtract with overflow"
  | .mul => "attempt to multiply with overflow"

/-- A computation that either yields a value or aborts on an overflow. -/
abbrev Checked := Except Overflow

/-- The number of 64-bit words, and so the least natural number that is not one. -/
def wordBound : Nat := 0x10000000000000000

/-- The largest 64-bit word, as a natural number. -/
def maxWord : Nat := wordBound - 1

namespace Checked

/-- The sum of two words, unless it is not a word. -/
def add (a b : Nat) : Checked Nat :=
  if a + b < wordBound then .ok (a + b) else .error .add

/-- The difference of two words, unless it is negative. -/
def sub (a b : Nat) : Checked Nat :=
  if b ≤ a then .ok (a - b) else .error .sub

/-- The product of two words, unless it is not a word. -/
def mul (a b : Nat) : Checked Nat :=
  if a * b < wordBound then .ok (a * b) else .error .mul

/-- The successor of a word, unless it is the largest one. -/
def succ (n : UInt64) : Checked UInt64 :=
  if n.toNat < maxWord then .ok (n + 1) else .error .add

/-- A checked sum is exact, and exists only when it fits. -/
theorem add_eq_ok_iff {a b c : Nat} : add a b = .ok c ↔ c = a + b ∧ a + b < wordBound := by
  unfold add
  split <;> simp_all [eq_comm]

/-- A checked difference is exact, and exists only when it is not negative. -/
theorem sub_eq_ok_iff {a b c : Nat} : sub a b = .ok c ↔ c = a - b ∧ b ≤ a := by
  unfold sub
  split <;> simp_all [eq_comm]

/-- A checked product is exact, and exists only when it fits. -/
theorem mul_eq_ok_iff {a b c : Nat} : mul a b = .ok c ↔ c = a * b ∧ a * b < wordBound := by
  unfold mul
  split <;> simp_all [eq_comm]

/-- A checked successor is exact, and exists for every word but the largest. -/
theorem succ_eq_ok_iff {n m : UInt64} : succ n = .ok m ↔ m = n + 1 ∧ n.toNat < maxWord := by
  unfold succ
  split <;> simp_all [eq_comm]

/-- A computation has a value exactly when it yields it. -/
theorem toOption_eq_some_iff {α : Type} {x : Checked α} {a : α} :
    x.toOption = some a ↔ x = .ok a := by
  cases x <;> simp [Except.toOption]

/-- Two computations in a row yield a value exactly when both yield one. -/
theorem bind_eq_ok_iff {α β : Type} {x : Checked α} {f : α → Checked β} {b : β} :
    (x >>= f) = .ok b ↔ ∃ a, x = .ok a ∧ f a = .ok b := by
  cases x with
  | error o =>
    constructor
    · intro h
      cases h
    · rintro ⟨_, h, _⟩
      cases h
  | ok a =>
    constructor
    · intro h
      exact ⟨a, rfl, h⟩
    · rintro ⟨_, ha, hb⟩
      cases ha
      exact hb

/-- Two computations in a row abort exactly when the first one does, or the second one after the
first one. -/
theorem bind_eq_error_iff {α β : Type} {x : Checked α} {f : α → Checked β} {o : Overflow} :
    (x >>= f) = .error o ↔ x = .error o ∨ ∃ a, x = .ok a ∧ f a = .error o := by
  cases x with
  | error o' =>
    constructor
    · intro h
      cases h
      exact .inl rfl
    · rintro (h | ⟨_, h, _⟩) <;> cases h
      rfl
  | ok a =>
    constructor
    · intro h
      exact .inr ⟨a, rfl, h⟩
    · rintro (h | ⟨_, ha, hb⟩)
      · cases h
      · cases ha
        exact hb

/-- What every step of a fold preserves, the fold preserves. -/
theorem foldlM_preserves {α β : Type} {I : β → Prop} {f : β → α → Checked β} {list : List α}
    (step : ∀ a ∈ list, ∀ {b b' : β}, f b a = .ok b' → I b → I b') {b b' : β}
    (done : list.foldlM f b = .ok b') (start : I b) : I b' := by
  induction list generalizing b with
  | nil =>
    cases done
    exact start
  | cons a rest ih =>
    rw [List.foldlM_cons, bind_eq_ok_iff] at done
    obtain ⟨b₁, first, done⟩ := done
    have here : I b₁ := step a (List.mem_cons_self ..) first start
    exact ih (fun a mem => step a (List.mem_cons_of_mem _ mem)) done here

end Checked

/-- The sum of two naturals, clipped to the largest word. -/
def saturatingAdd (a b : Nat) : Nat := min (a + b) maxWord

end BlockRelay
