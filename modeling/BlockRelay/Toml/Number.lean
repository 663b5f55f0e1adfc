/-
# Numbers and dates in TOML

Integers are decimal, hexadecimal, octal or binary and fit in 64 bits with a sign;
digits may be set apart by single underscores.  Of floats and dates only the
validity is decided.
-/
import BlockRelay.Toml.Scan
import BlockRelay.Toml.Value

namespace BlockRelay.Toml.Scan

/-! ## Digits -/

/-- Read digits of a class, with single underscores between them, most significant first. -/
def digits (isIn : Char → Bool) : Scan (List Char) := do
  let first ← satisfy isIn
  let rest ← many do
    let _ ← optional (char '_')
    satisfy isIn
  return first :: rest

/-- The number that digits spell in a base. -/
def valueIn (base : Nat) (ds : List Char) : Nat :=
  ds.foldl (fun n c => base * n + (Hex.digitValue? c).getD 0) 0

/-- Read a sign; `true` means negative. -/
def sign : Scan Bool := do
  match ← optional (satisfy fun c => c == '+' || c == '-') with
  | some '-' => return true
  | _ => return false

/-- Read the digits of a decimal number, which has no leading zero unless it is zero. -/
def decimalDigits : Scan (List Char) := do
  match ← peek with
  | some '0' => do char '0'; return ['0']
  | _ => digits isDigit

/-! ## Integers -/

/-- Keep an integer that fits in 64 bits with a sign. -/
def bounded (n : Int) : Scan Value :=
  if -0x8000000000000000 ≤ n ∧ n < 0x8000000000000000 then pure (.integer n) else failure

/-- Read an integer in the base that a mark after a leading zero names. -/
def markedInteger (mark : Char) (base : Nat) : Scan Value := do
  char '0'
  char mark
  let ds ← digits fun c => match Hex.digitValue? c with
    | some v => v < base
    | none => false
  bounded (valueIn base ds)

/-- Read a decimal integer. -/
def decimalInteger : Scan Value := do
  let negative ← sign
  let n := valueIn 10 (← decimalDigits)
  bounded (if negative then -n else n)

/-- Read an integer. -/
def integer : Scan Value :=
  markedInteger 'x' 16 <|> markedInteger 'o' 8 <|> markedInteger 'b' 2 <|> decimalInteger

/-! ## Floats -/

/-- The least number that rounds to a binary float beyond the largest finite one. -/
def floatBound : Nat := Nat.pow 2 1024 - Nat.pow 2 970

/-- Whether `mantissa * 10 ^ exponent` reaches `floatBound`.  Far from the bound the
number of digits decides. -/
def overflowsFloat (mantissa : Nat) (exponent : Int) : Bool :=
  let magnitude : Int := (Nat.toDigits 10 mantissa).length + exponent
  if mantissa = 0 ∨ magnitude < 300 then false
  else if magnitude > 320 then true
  else if 0 ≤ exponent then floatBound ≤ mantissa * Nat.pow 10 exponent.toNat
  else floatBound * Nat.pow 10 (-exponent).toNat ≤ mantissa

/-- Read the exponent of a float. -/
def exponent : Scan Int := do
  let _ ← satisfy fun c => c == 'e' || c == 'E'
  let negative ← sign
  let n := valueIn 10 (← digits isDigit)
  return if negative then -(n : Int) else n

/-- Read a float with a fraction or an exponent.  A number that is too large is refused,
its negative is not. -/
def decimalFloat : Scan Value := do
  let negative ← sign
  let whole ← decimalDigits
  let fraction ← optional (do char '.'; digits isDigit)
  let power ← optional exponent
  if fraction.isNone && power.isNone then failure
  let places := fraction.getD []
  let e : Int := power.getD 0 - places.length
  if !negative && overflowsFloat (valueIn 10 (whole ++ places)) e then failure
  return .float

/-- Read an infinity, or the value that is no number. -/
def specialFloat : Scan Value := do
  let _ ← sign
  literal ['i', 'n', 'f'] <|> literal ['n', 'a', 'n']
  return .float

/-! ## Dates and times -/

/-- Read exactly `n` decimal digits that spell a number from `low` to `high`. -/
def fixedNumber (n low high : Nat) : Scan Nat := do
  let rec go : Nat → Scan (List Char)
    | 0 => pure []
    | k + 1 => do
      let c ← satisfy isDigit
      return c :: (← go k)
  let v := valueIn 10 (← go n)
  if low ≤ v ∧ v ≤ high then return v else failure

/-- The number of days of a month. -/
def daysIn (year month : Nat) : Nat :=
  if month = 2 then
    if year % 4 = 0 ∧ (year % 100 ≠ 0 ∨ year % 400 = 0) then 29 else 28
  else if month = 4 ∨ month = 6 ∨ month = 9 ∨ month = 11 then 30
  else 31

/-- Read a time of day, with seconds and perhaps a fraction of them. -/
def timeOfDay : Scan Unit := do
  let _ ← fixedNumber 2 0 23
  char ':'
  let _ ← fixedNumber 2 0 59
  char ':'
  let _ ← fixedNumber 2 0 60
  let _ ← optional do
    char '.'
    let _ ← satisfy isDigit
    let _ ← span isDigit

/-- Read the offset of a time from universal time. -/
def timeOffset : Scan Unit :=
  (do let _ ← satisfy fun c => c == 'Z' || c == 'z') <|> (do
    let _ ← satisfy fun c => c == '+' || c == '-'
    let _ ← fixedNumber 2 0 23
    char ':'
    let _ ← fixedNumber 2 0 59)

/-- Read a date, perhaps with a time and an offset. -/
def date : Scan Unit := do
  let year ← fixedNumber 4 0 9999
  char '-'
  let month ← fixedNumber 2 1 12
  char '-'
  let _ ← fixedNumber 2 1 (daysIn year month)
  let _ ← optional do
    let _ ← satisfy fun c => c == 'T' || c == 't' || c == ' '
    timeOfDay
    let _ ← optional timeOffset

/-- Read a date or a time of day. -/
def moment : Scan Value := do
  date <|> timeOfDay
  return .moment

/-- Read a number or a date. -/
def number : Scan Value := moment <|> decimalFloat <|> specialFloat <|> integer

end BlockRelay.Toml.Scan
