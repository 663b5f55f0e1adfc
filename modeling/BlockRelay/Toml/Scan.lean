/-
# Scanning TOML text

A scanner reads a part of the text and leaves the rest, or fails.  This module
holds the scanners for blanks, comments, line ends, keys and strings.
-/
import BlockRelay.Hex

namespace BlockRelay.Toml

/-- A scanner: it reads from the front of the text, or fails. -/
abbrev Scan := StateT (List Char) Option

namespace Scan

/-! ## Combinators -/

/-- The next character, which stays in the text. -/
def peek : Scan (Option Char) := fun cs => some (cs.head?, cs)

/-- Read one character that satisfies `p`. -/
def satisfy (p : Char → Bool) : Scan Char
  | c :: cs => if p c then some (c, cs) else none
  | [] => none

/-- Read one given character. -/
def char (c : Char) : Scan Unit := do
  let _ ← satisfy (· == c)

/-- Read a given text. -/
def literal : List Char → Scan Unit
  | [] => pure ()
  | c :: rest => do char c; literal rest

/-- Read the longest run of characters that satisfy `p`. -/
def span (p : Char → Bool) : Scan (List Char) := fun cs =>
  some (cs.takeWhile p, cs.dropWhile p)

/-- A run of characters and the rest after it are the whole text. -/
theorem span_append {p : Char → Bool} {cs run rest : List Char}
    (h : span p cs = some (run, rest)) : run ++ rest = cs := by
  cases h
  exact List.takeWhile_append_dropWhile

/-- Read `p` if it is there. -/
def optional {α : Type} (p : Scan α) : Scan (Option α) := fun cs =>
  match p cs with
  | some (a, rest) => some (some a, rest)
  | none => some (none, cs)

/-- Read `p` as often as it is there, at most `n` times. -/
def repeated {α : Type} (p : Scan α) : Nat → Scan (List α)
  | 0 => pure []
  | n + 1 => do
    match ← optional p with
    | some a => return a :: (← repeated p n)
    | none => return []

/-- Read `p` as often as it is there.  A scanner that reads at least one character
cannot succeed more often than the text is long. -/
def many {α : Type} (p : Scan α) : Scan (List α) := fun cs => repeated p cs.length cs

/-- Succeed at the end of the text. -/
def finished : Scan Unit
  | [] => some ((), [])
  | _ => none

/-! ## Characters -/

/-- The double quotation mark. -/
def quote : Char := Char.ofNat 0x22

/-- The apostrophe. -/
def apostrophe : Char := Char.ofNat 0x27

/-- The backslash. -/
def backslash : Char := Char.ofNat 0x5C

/-- The left brace. -/
def openBrace : Char := Char.ofNat 0x7B

/-- The right brace. -/
def closeBrace : Char := Char.ofNat 0x7D

/-- A blank: a space or a tab. -/
def isBlank (c : Char) : Bool := c.toNat == 0x20 || c.toNat == 0x09

/-- A character that may stand in a comment: no control character but the tab. -/
def isPrintable (c : Char) : Bool :=
  c.toNat == 0x09 || (0x20 ≤ c.toNat && c.toNat != 0x7F)

/-- A character of a key without quotation marks. -/
def isBare (c : Char) : Bool := c.isAlphanum || c == '_' || c == '-'

/-- A decimal digit. -/
def isDigit (c : Char) : Bool := '0' ≤ c && c ≤ '9'

/-! ## Blanks, comments and line ends -/

/-- Skip blanks. -/
def blanks : Scan Unit := do
  let _ ← span isBlank

/-- Read a line end: a line feed, alone or after a carriage return. -/
def newline : Scan Unit := do
  let _ ← optional (char '\r')
  char '\n'

/-- Read a comment up to the end of its line. -/
def comment : Scan Unit := do
  char '#'
  let _ ← span isPrintable

/-- Read the rest of a line: blanks, a comment, and the line end or the end of the text. -/
def lineRest : Scan Unit := do
  blanks
  let _ ← optional comment
  match ← peek with
  | none => return
  | some _ => newline

/-- Skip blanks, comments and line ends. -/
def gap : Scan Unit := do
  let _ ← many do
    match ← peek with
    | some '#' => do comment; newline
    | some c => if isBlank c then char c else newline
    | none => failure

/-! ## Strings -/

/-- Read exactly `n` hexadecimal digits, after what is already in `acc`. -/
def hexNumber : Nat → Nat → Scan Nat
  | 0, acc => pure acc
  | n + 1, acc => do
    let c ← satisfy fun c => (Hex.digitValue? c).isSome
    hexNumber n (16 * acc + (Hex.digitValue? c).getD 0)

/-- The character with a given code, which must be one. -/
def scalar (n : Nat) : Scan Char :=
  if n.isValidChar then pure (Char.ofNat n) else failure

/-- Read what follows a backslash. -/
def escape : Scan Char := do
  let c ← satisfy fun _ => true
  match c with
  | 'b' => return Char.ofNat 0x08
  | 't' => return '\t'
  | 'n' => return '\n'
  | 'f' => return Char.ofNat 0x0C
  | 'r' => return '\r'
  | 'u' => scalar (← hexNumber 4 0)
  | 'U' => scalar (← hexNumber 8 0)
  | c => if c == quote || c == backslash then return c else failure

/-- Read one character of a string on one line. -/
def basicChar : Scan Char := do
  let c ← satisfy fun c => isPrintable c && c != quote
  if c == backslash then escape else return c

/-- Read a string in quotation marks. -/
def basicString : Scan String := do
  char quote
  let cs ← many basicChar
  char quote
  return String.ofList cs

/-- Read a string in apostrophes, which has no escapes. -/
def literalString : Scan String := do
  char apostrophe
  let cs ← span fun c => isPrintable c && c != apostrophe
  char apostrophe
  return String.ofList cs

/-- Read a backslash that joins lines, with the blanks and line ends after it. -/
def lineJoin : Scan Unit := do
  char backslash
  blanks
  newline
  let _ ← many do
    match ← peek with
    | some c => if isBlank c then char c else newline
    | none => failure

/-- Read the end of a string that `mark` closes when it stands three times.  Up to two
more marks belong to the string. -/
def tripleEnd (mark : Char) : Scan (List Char) := do
  literal [mark, mark, mark]
  repeated (do char mark; return mark) 2

/-- Read the rest of a string of several lines, reading single characters by `one`. -/
def multilineRest (mark : Char) (one : Scan (List Char)) : Nat → Scan (List Char)
  | 0 => failure
  | n + 1 => do
    match ← optional (tripleEnd mark) with
    | some extra => return extra
    | none =>
      let cs ← one
      return cs ++ (← multilineRest mark one n)

/-- Read a string of several lines between triple marks.  A line end right after the
opening marks does not count. -/
def multiline (mark : Char) (one : Scan (List Char)) : Scan String := do
  literal [mark, mark, mark]
  let _ ← optional newline
  let cs ← fun cs => multilineRest mark one (cs.length + 1) cs
  return String.ofList cs

/-- Read a piece of a string of several lines in quotation marks. -/
def multilineBasicPiece : Scan (List Char) :=
  (do lineJoin; return []) <|> (do newline; return ['\n']) <|> (do
    let c ← satisfy isPrintable
    if c == backslash then return [← escape] else return [c])

/-- Read a piece of a string of several lines in apostrophes. -/
def multilineLiteralPiece : Scan (List Char) :=
  (do newline; return ['\n']) <|> (do return [← satisfy isPrintable])

/-- Read a string of any of the four forms. -/
def string : Scan String :=
  multiline quote multilineBasicPiece <|> basicString <|>
    multiline apostrophe multilineLiteralPiece <|> literalString

/-! ## Keys -/

/-- Read one segment of a key. -/
def segment : Scan String :=
  basicString <|> literalString <|> (do
    let c ← satisfy isBare
    let cs ← span isBare
    return String.ofList (c :: cs))

/-- How deeply keys and values may nest. -/
def maxDepth : Nat := 79

/-- Read a key: segments with dots between them. -/
def key : Scan (List String) := do
  let spaced : Scan String := do
    blanks
    let s ← segment
    blanks
    return s
  let first ← spaced
  let rest ← many (do char '.'; spaced)
  if rest.length + 1 ≤ maxDepth then return first :: rest else failure

end Scan

end BlockRelay.Toml
