/-
# Integers in shortest decimal form

A metric is a binary floating-point number with 53 significant bits, and its text
has no more digits than are needed to read the same number back.  A large integer
is therefore rounded twice: to the nearest number with 53 bits, and then to the
shortest decimal that still denotes that number, filled up with zeros.
-/

namespace BlockRelay.Decimal

/-- A number with 53 significant bits: `significand * 2 ^ exponent`. -/
structure Binary where
  significand : Nat
  exponent : Nat
  deriving DecidableEq, Repr

/-- The value of a binary number. -/
def Binary.value (b : Binary) : Nat := b.significand * Nat.pow 2 b.exponent

/-- The nearest number with 53 bits; a tie goes to the even significand. -/
def Binary.ofNat (n : Nat) : Binary :=
  if n < Nat.pow 2 53 then ⟨n, 0⟩
  else
    let exponent := n.log2 - 52
    let unit := Nat.pow 2 exponent
    let m := n / unit
    let rest := n % unit
    let up := unit < 2 * rest ∨ (2 * rest = unit ∧ m % 2 = 1)
    let m := if up then m + 1 else m
    if m = Nat.pow 2 53 then ⟨Nat.pow 2 52, exponent + 1⟩ else ⟨m, exponent⟩

/-- Whether an integer rounds to a given binary number.  The margin below a power of two is
half of the margin above, and the ends count when the significand is even. -/
def Binary.covers (b : Binary) (x : Nat) : Bool :=
  let above := 2 * Nat.pow 2 b.exponent
  let below := if b.significand = Nat.pow 2 52 then Nat.pow 2 b.exponent else above
  let value := 4 * b.value
  if b.significand % 2 = 0 then value ≤ 4 * x + below && 4 * x ≤ value + above
  else value < 4 * x + below && 4 * x < value + above

/-- The shortest decimal that denotes a binary number, among those with at most `zeros`
zeros at the end.  Of two that are equally short the nearer one is taken, and the larger
one if they are equally near. -/
def Binary.shortest (b : Binary) : Nat → Nat
  | 0 => b.value
  | zeros + 1 =>
    let unit := Nat.pow 10 (zeros + 1)
    let low := b.value / unit * unit
    let high := low + unit
    match b.covers low, b.covers high with
    | true, true => if b.value - low < high - b.value then low else high
    | true, false => low
    | false, true => high
    | false, false => b.shortest zeros

/-- The text of a natural number as a metric. -/
def natText (n : Nat) : String :=
  let b := Binary.ofNat n
  if b.exponent = 0 then toString b.significand
  else toString (b.shortest (toString b.value).length)

/-- The text of an integer as a metric. -/
def intText : Int → String
  | .ofNat n => natText n
  | .negSucc n => "-" ++ natText (n + 1)

/-- Small numbers are written exactly. -/
theorem natText_of_lt {n : Nat} (h : n < Nat.pow 2 53) : natText n = toString n := by
  have small : Binary.ofNat n = ⟨n, 0⟩ := if_pos h
  unfold natText
  rw [small]
  rfl

end BlockRelay.Decimal
