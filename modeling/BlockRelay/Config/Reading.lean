/-
# Reading a configuration

A configuration file is a TOML document with one table for each section.  A missing
section or key has its default, an unknown one is ignored, and a value of the wrong
type or sign makes the whole file invalid.

A section may also be given as an array, which lists the values of its keys in their
order; keys past its end have their defaults.
-/
import BlockRelay.Config
import BlockRelay.Toml.Document

namespace BlockRelay

/-- Why a configuration cannot be had from a text. -/
inductive ConfigError where
  | invalid
  deriving DecidableEq, Repr

/-- The text of a configuration error. -/
def ConfigError.message : ConfigError → String
  | .invalid => "📝  invalid TOML in config file"

namespace Config

open Toml (Value Entries)

/-- The values that a section gives to a list of keys, in the order of the keys. -/
def sectionValues (keys : List String) : Option Value → Option (List (Option Value))
  | none => some (keys.map fun _ => none)
  | some (.table _ es) => some (keys.map fun k => es.lookup k)
  | some (.array vs) => some ((vs.map some ++ keys.map fun _ => none).take keys.length)
  | some (.tables ts) =>
    some ((ts.map (some <| Value.table .header ·) ++ keys.map fun _ => none).take keys.length)
  | some .moment => some (keys.map fun _ => none)
  | some _ => none

/-- Give a numeric setting its value, if there is one and it is a natural number. -/
def assignNumber (c : Config) (s : Setting) : Option Value → Option Config
  | none => some c
  | some (.integer n) => if 0 ≤ n then some (s.set n.toNat c) else none
  | some _ => none

/-- Read one numeric section. -/
def readSection (es : Entries) (c : Config) (group : String) : Option Config := do
  let settings := settings.filter (·.group = group)
  let values ← sectionValues (settings.map (·.key)) (es.lookup group)
  (settings.zip values).foldlM (fun c (s, v) => assignNumber c s v) c

/-- Read the section of metrics, whose only key is a text. -/
def readMetrics (es : Entries) (c : Config) : Option Config := do
  match ← sectionValues ["bind"] (es.lookup "metrics") with
  | [some (.string s)] => return { c with metrics := ⟨s⟩ }
  | [none] => return c
  | _ => none

/-- The configuration that a text describes. -/
def ofToml (text : String) : Except ConfigError Config :=
  let result : Option Config := do
    let es ← Toml.parse text
    let c ← ["net", "sync", "cache", "tasks"].foldlM (readSection es) {}
    readMetrics es c
  match result with
  | some c => .ok c
  | none => .error .invalid

end Config

end BlockRelay
