/-
# TOML documents

A document is a sequence of lines: headers, which open tables, and assignments,
which write into the table that was opened last.  `Toml.parse` reads the lines and
applies them one after the other to an empty table.
-/
import BlockRelay.Toml.Number

namespace BlockRelay.Toml

namespace Scan

/-! ## Values -/

/-- Read elements by `one`, with commas between them, a comma after the last one allowed. -/
def elements (one : Scan Value) : Scan (List Value) := do
  let spaced : Scan Value := do
    gap
    let v ← one
    gap
    return v
  match ← optional spaced with
  | none => do gap; return []
  | some first =>
    let rest ← many (do char ','; spaced)
    let _ ← optional (char ',')
    gap
    return first :: rest

/-- Read a key and its value, the value by `one`. -/
def assignment (one : Scan Value) : Scan (List String × Value) := do
  let path ← key
  char '='
  blanks
  let v ← one
  return (path, v)

/-- Read assignments by `one`, with commas between them, all on one line. -/
def assignments (one : Scan Value) : Scan (List (List String × Value)) := do
  let spaced : Scan (List String × Value) := do
    let a ← assignment one
    blanks
    return a
  match ← optional spaced with
  | none => do blanks; return []
  | some first =>
    let rest ← many (do char ','; spaced)
    return first :: rest

/-- The table that a sequence of assignments makes. -/
def tableOf (as : List (List String × Value)) : Option Entries :=
  as.foldlM (fun es (path, v) =>
    match path.getLast? with
    | some last => Entries.assign path.dropLast last v es
    | none => none) []

/-- Read a value.  Values inside arrays and braces are read by `inner`; without it there
may be none of these. -/
def valueOver (inner : Option (Scan Value)) : Scan Value := do
  match ← peek with
  | none => failure
  | some c =>
    if c == quote || c == apostrophe then return .string (← string)
    else if c == '[' then
      match inner with
      | none => failure
      | some inner =>
        char '['
        let vs ← elements inner
        char ']'
        return .array vs
    else if c == openBrace then
      match inner with
      | none => failure
      | some inner =>
        char openBrace
        let as ← assignments inner
        char closeBrace
        match tableOf as with
        | some es => return .table .braces es
        | none => failure
    else if c == 't' then do
      literal ['t', 'r', 'u', 'e']
      return .boolean true
    else if c == 'f' then do
      literal ['f', 'a', 'l', 's', 'e']
      return .boolean false
    else number

/-- Read a value in which arrays and braces nest at most `n` deep. -/
def value : Nat → Scan Value
  | 0 => valueOver none
  | n + 1 => valueOver (some (value n))

/-! ## Lines -/

/-- What a line of a document says. -/
inductive Line where
  /-- Open a table; with `repeated`, the next table of a sequence. -/
  | header (repeated : Bool) (path : List String)
  /-- Write a value into the open table. -/
  | assign (path : List String) (value : Value)
  /-- Nothing. -/
  | blank

/-- Read one line. -/
def line : Scan Line := do
  blanks
  match ← peek with
  | some '[' =>
    char '['
    let repeated := (← optional (char '[')).isSome
    let path ← key
    char ']'
    if repeated then char ']'
    lineRest
    return .header repeated path
  | some '#' => do
    lineRest
    return .blank
  | some c =>
    if c == '\n' || c == '\r' then do
      newline
      return .blank
    else
      let (path, v) ← assignment (value maxDepth)
      lineRest
      return .assign path v
  | none => failure

/-- Read every line; a byte order mark in front is skipped. -/
def lines : Scan (List Line) := do
  let _ ← optional (char (Char.ofNat 0xFEFF))
  let ls ← many line
  blanks
  finished
  return ls

end Scan

/-! ## Applying lines -/

/-- A document as far as it has been read: its entries, and the path of the open table. -/
structure Document where
  entries : Entries := []
  current : List String := []

/-- Apply one line. -/
def Document.apply (d : Document) : Scan.Line → Option Document
  | .blank => some d
  | .header repeated path => do
    let es ← d.entries.openHeader repeated path
    return ⟨es, path⟩
  | .assign path v => do
    let last ← path.getLast?
    let es ← d.entries.modifyAt (Entries.assign path.dropLast last v) d.current
    return { d with entries := es }

/-- The entries that a text describes, if it is a TOML document. -/
def parse (text : String) : Option Entries := do
  let (ls, _) ← Scan.lines.run text.toList
  let d ← ls.foldlM Document.apply {}
  return d.entries

end BlockRelay.Toml
