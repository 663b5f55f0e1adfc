/-
# TOML values and tables

The data that a TOML document describes.  A table remembers how it came to be,
since that decides whether later lines may add to it: a table written in braces is
closed, a table made by a dotted key may be extended by dotted keys, a table that
a header only passed through may still get a header of its own, and a table that
had its header may not get a second one.
-/

namespace BlockRelay.Toml

/-- How a table came to be. -/
inductive Origin where
  /-- Written in braces. -/
  | braces
  /-- Made by a dotted key. -/
  | dotted
  /-- Passed through by a header that goes deeper. -/
  | passed
  /-- Opened by a header. -/
  | header
  deriving DecidableEq, Repr

/-- A TOML value.  Of floats and of dates only the presence is kept. -/
inductive Value where
  | string (text : String)
  | integer (value : Int)
  | float
  | boolean (value : Bool)
  | moment
  | array (elements : List Value)
  | table (origin : Origin) (entries : List (String × Value))
  /-- An array whose elements are the tables of repeated double-bracket headers. -/
  | tables (elements : List (List (String × Value)))
  deriving Inhabited

/-- The entries of a table, in the order in which they were made. -/
abbrev Entries := List (String × Value)

namespace Entries

/-- Replace the value of a key that is present. -/
def replace (es : Entries) (key : String) (v : Value) : Entries :=
  es.map fun e => if e.1 = key then (key, v) else e

/-- Change the last table of a sequence of tables. -/
def modifyLast (f : Entries → Option Entries) : List Entries → Option (List Entries)
  | [] => none
  | [last] => (f last).map ([·])
  | first :: rest => (modifyLast f rest).map (first :: ·)

/-- Write a value under a dotted key.  The tables on the way are those that dotted
keys made, and a key is never written twice. -/
def assign : List String → String → Value → Entries → Option Entries
  | [], key, v, es =>
    match es.lookup key with
    | none => some (es ++ [(key, v)])
    | some _ => none
  | k :: path, key, v, es =>
    match es.lookup k with
    | none => (assign path key v []).map fun sub => es ++ [(k, .table .dotted sub)]
    | some (.table .dotted sub) =>
      (assign path key v sub).map fun sub => es.replace k (.table .dotted sub)
    | some (.table .passed sub) =>
      if path = [] then none
      else (assign path key v sub).map fun sub => es.replace k (.table .passed sub)
    | some (.tables elements) =>
      if path = [] then none
      else (modifyLast (assign path key v) elements).map fun l => es.replace k (.tables l)
    | some _ => none

/-- Open the table of a header, or with `repeated` a further table of a sequence. -/
def openHeader (repeated : Bool) : List String → Entries → Option Entries
  | [], _ => none
  | [key], es =>
    match es.lookup key with
    | none => some (es ++ [(key, if repeated then .tables [[]] else .table .header [])])
    | some (.table .passed sub) =>
      if repeated then none else some (es.replace key (.table .header sub))
    | some (.tables l) =>
      if repeated then some (es.replace key (.tables (l ++ [[]]))) else none
    | some _ => none
  | k :: path, es =>
    match es.lookup k with
    | none => (openHeader repeated path []).map fun sub => es ++ [(k, .table .passed sub)]
    | some (.table .braces _) => none
    | some (.table origin sub) =>
      (openHeader repeated path sub).map fun sub => es.replace k (.table origin sub)
    | some (.tables elements) =>
      (modifyLast (openHeader repeated path) elements).map fun l => es.replace k (.tables l)
    | some _ => none

/-- Change the table that a header opened. -/
def modifyAt (f : Entries → Option Entries) : List String → Entries → Option Entries
  | [], es => f es
  | k :: path, es =>
    match es.lookup k with
    | some (.table origin sub) =>
      (modifyAt f path sub).map fun sub => es.replace k (.table origin sub)
    | some (.tables elements) =>
      (modifyLast (modifyAt f path) elements).map fun l => es.replace k (.tables l)
    | _ => none

end Entries

end BlockRelay.Toml
