/-
# Hexadecimal text of bytes and words

Bytes and words are written with lower-case digits, most significant first, two
digits to a byte and sixteen to a 64-bit word.  Digits can be read back
(`Hex.decode_encode`), and different words have different bytes
(`Hex.wordBytes_inj`).
-/

namespace BlockRelay.Hex

/-- The lower-case digit of a number below sixteen. -/
def digit (n : Nat) : Char :=
  if n < 10 then Char.ofNat ('0'.toNat + n) else Char.ofNat ('a'.toNat + (n - 10))

/-- The value of a digit, in either case. -/
def digitValue? (c : Char) : Option Nat :=
  if '0' ≤ c ∧ c ≤ '9' then some (c.toNat - '0'.toNat)
  else if 'a' ≤ c ∧ c ≤ 'f' then some (c.toNat - 'a'.toNat + 10)
  else if 'A' ≤ c ∧ c ≤ 'F' then some (c.toNat - 'A'.toNat + 10)
  else none

/-- The digits of a byte string. -/
def encode : List UInt8 → List Char
  | [] => []
  | b :: rest => digit (b.toNat / 16) :: digit (b.toNat % 16) :: encode rest

/-- The byte string that a text of digits spells; every byte takes two digits. -/
def decode : List Char → Option (List UInt8)
  | [] => some []
  | [_] => none
  | c :: d :: rest => do
    let high ← digitValue? c
    let low ← digitValue? d
    return (16 * high + low).toUInt8 :: (← decode rest)

/-- The big-endian bytes of a 64-bit word. -/
def wordBytes (w : UInt64) : List UInt8 :=
  [(w >>> 56).toUInt8, (w >>> 48).toUInt8, (w >>> 40).toUInt8, (w >>> 32).toUInt8,
    (w >>> 24).toUInt8, (w >>> 16).toUInt8, (w >>> 8).toUInt8, w.toUInt8]

/-- The word that big-endian bytes spell; of more than eight bytes, the last eight. -/
def wordOfBytes (bytes : List UInt8) : UInt64 :=
  bytes.foldl (fun w b => (w <<< 8) ||| b.toUInt64) 0

/-- The sixteen digits of a 64-bit word. -/
def word (w : UInt64) : List Char := encode (wordBytes w)

/-! ## Digits -/

/-- A byte takes two digits. -/
theorem length_encode (bytes : List UInt8) : (encode bytes).length = 2 * bytes.length := by
  induction bytes with
  | nil => rfl
  | cons b rest ih =>
    show (encode rest).length + 1 + 1 = 2 * (rest.length + 1)
    rw [ih]
    omega

/-- The value of a digit is the number that it writes. -/
theorem digitValue?_digit {n : Nat} (h : n < 16) : digitValue? (digit n) = some n := by
  have all : ∀ n : Fin 16, digitValue? (digit n) = some n.val := by decide
  exact all ⟨n, h⟩

/-- The digits of a byte string spell that byte string. -/
theorem decode_encode (bytes : List UInt8) : decode (encode bytes) = some bytes := by
  induction bytes with
  | nil => rfl
  | cons b rest ih =>
    have high : b.toNat / 16 < 16 := by
      have := b.toNat_lt
      omega
    have low : b.toNat % 16 < 16 := by omega
    -- the two digits of a byte put together
    have whole : (16 * (b.toNat / 16) + b.toNat % 16).toUInt8 = b := by
      rw [Nat.div_add_mod]
      exact UInt8.ofNat_toNat
    simp only [encode, decode, digitValue?_digit high, digitValue?_digit low, ih]
    simp only [bind, Option.bind, pure]
    rw [whole]

/-! ## Words -/

/-- A word is eight bytes. -/
theorem length_wordBytes (w : UInt64) : (wordBytes w).length = 8 := rfl

/-- A word is written in sixteen digits. -/
theorem length_word (w : UInt64) : (word w).length = 16 := rfl

/-- Different words have different bytes. -/
theorem wordBytes_inj {v w : UInt64} : wordBytes v = wordBytes w ↔ v = w := by
  refine ⟨fun h => ?_, congrArg wordBytes⟩
  -- every byte is a quotient of the word, modulo 256
  simp only [wordBytes, List.cons.injEq, ← UInt8.toNat_inj, UInt64.toNat_toUInt8,
    UInt64.toNat_shiftRight] at h
  simp [Nat.shiftRight_eq_div_pow] at h
  rw [← UInt64.toNat_inj]
  have := v.toNat_lt
  have := w.toNat_lt
  omega

end BlockRelay.Hex
