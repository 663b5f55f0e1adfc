/-
# Content hashes

A `Hash` is 256 bits, held as four big-endian words.  The leading word of a block
hash is the height of the block, so that bare block hashes can be ordered by
height; `Hash.stamp` writes it and `Hash.height` reads it.

Hashes are ordered as byte strings, which for four words of the same width is the
lexicographic order of the words.
-/
import Std.Data.TreeMap
import Std.Data.TreeSet
import BlockRelay.Hash.Blake3
import BlockRelay.Hex

namespace BlockRelay

/-- A 256-bit content hash. -/
structure Hash where
  lead : UInt64
  second : UInt64
  third : UInt64
  last : UInt64
  deriving DecidableEq, Repr, Inhabited

namespace Hash

/-- The hash whose bits are all zero: the parent of a genesis block. -/
def zero : Hash := ⟨0, 0, 0, 0⟩

/-- The height that the leading word carries; it means something for block hashes only. -/
def height (h : Hash) : UInt64 := h.lead

/-- Overwrite the leading word with a height. -/
def stamp (h : Hash) (number : UInt64) : Hash := { h with lead := number }

/-- The height of a stamped hash is the stamp. -/
@[simp] theorem height_stamp (h : Hash) (n : UInt64) : (h.stamp n).height = n := rfl

/-- Only the last stamp counts. -/
@[simp] theorem stamp_stamp (h : Hash) (m n : UInt64) : (h.stamp m).stamp n = h.stamp n := rfl

/-- Stamping a hash with its own height changes nothing. -/
@[simp] theorem stamp_height (h : Hash) : h.stamp h.height = h := rfl

/-- Two stamped hashes agree exactly when the stamps agree and the hashes agree after
their leading words. -/
theorem stamp_eq_stamp_iff (g h : Hash) (m n : UInt64) :
    g.stamp m = h.stamp n ↔
      m = n ∧ g.second = h.second ∧ g.third = h.third ∧ g.last = h.last := by
  cases g; cases h; simp [stamp]

/-! ## Order -/

/-- Hashes are ordered word by word, the leading word first. -/
instance : Ord Hash where
  compare := compareLex (compareOn lead) <| compareLex (compareOn second) <|
    compareLex (compareOn third) (compareOn last)

instance : Std.TransOrd Hash :=
  inferInstanceAs (Std.TransCmp (compareLex (compareOn lead) <|
    compareLex (compareOn second) <| compareLex (compareOn third) (compareOn last)))

instance : Std.LawfulEqOrd Hash where
  compare_self := Std.ReflCmp.compare_self
  eq_of_compare {a b} h := by
    have h : compareLex (compareOn lead) (compareLex (compareOn second) <|
        compareLex (compareOn third) (compareOn last)) a b = .eq := h
    simp only [compareLex_eq_eq, compareOn, Std.LawfulEqCmp.compare_eq_iff_eq] at h
    obtain ⟨h0, h1, h2, h3⟩ := h
    cases a; cases b
    rw [mk.injEq]
    exact ⟨h0, h1, h2, h3⟩

/-! ## Digests and text -/

/-- The bytes of a 32-bit word in reverse order. -/
def swapBytes (w : UInt32) : UInt64 :=
  ((w &&& 0xFF).toUInt64 <<< 24) ||| (((w >>> 8) &&& 0xFF).toUInt64 <<< 16) |||
    (((w >>> 16) &&& 0xFF).toUInt64 <<< 8) ||| (w >>> 24).toUInt64

/-- The BLAKE3 hash of a byte string. -/
def digest (bytes : List UInt8) : Hash :=
  let d := Blake3.digest bytes
  let pair (x y : UInt32) := (swapBytes x <<< 32) ||| swapBytes y
  ⟨pair d.low.x0 d.low.x1, pair d.low.x2 d.low.x3,
    pair d.high.x0 d.high.x1, pair d.high.x2 d.high.x3⟩

/-- The 32 bytes of a hash. -/
def bytes (h : Hash) : List UInt8 :=
  Hex.wordBytes h.lead ++ Hex.wordBytes h.second ++ Hex.wordBytes h.third ++
    Hex.wordBytes h.last

/-- A hash is 32 bytes. -/
@[simp] theorem length_bytes (h : Hash) : h.bytes.length = 32 := rfl

/-- Different hashes have different bytes. -/
theorem bytes_inj {g h : Hash} : g.bytes = h.bytes ↔ g = h := by
  refine ⟨fun e => ?_, congrArg bytes⟩
  cases g
  cases h
  -- the four words are eight bytes each
  have same (v w : UInt64) : (Hex.wordBytes v).length = (Hex.wordBytes w).length := by
    rw [Hex.length_wordBytes, Hex.length_wordBytes]
  obtain ⟨e, last⟩ := List.append_inj' e (same ..)
  obtain ⟨e, third⟩ := List.append_inj' e (same ..)
  obtain ⟨lead, second⟩ := List.append_inj' e (same ..)
  simp only [Hex.wordBytes_inj] at lead second third last
  simp only [lead, second, third, last]

/-- The hash with the given bytes, if there are 32 of them. -/
def ofBytes? (b : List UInt8) : Option Hash :=
  if b.length = 32 then
    some ⟨Hex.wordOfBytes (b.take 8), Hex.wordOfBytes ((b.drop 8).take 8),
      Hex.wordOfBytes ((b.drop 16).take 8), Hex.wordOfBytes (b.drop 24)⟩
  else none

/-- The 64 digits of a hash. -/
def text (h : Hash) : String := String.ofList (Hex.encode h.bytes)

/-- The hash that 64 digits spell. -/
def ofText? (s : String) : Option Hash := (Hex.decode s.toList).bind ofBytes?

/-- The short form of a hash, which shows its leading word. -/
def summary (h : Hash) : String := "Hash(" ++ String.ofList (Hex.word h.lead) ++ ")"

end Hash

/-! ## Maps by hash -/

/-- A key that a map contains is one under which something is found. -/
theorem contains_iff_exists {κ α : Type} [Ord κ] [Std.TransOrd κ] {m : Std.TreeMap κ α} {k : κ} :
    m.contains k = true ↔ ∃ a, m[k]? = some a := by
  rw [Std.TreeMap.contains_eq_isSome_getElem?, Option.isSome_iff_exists]

variable {α : Type} {key : α → Hash} {as : List α} {m : Std.TreeMap Hash α} {hash : Hash}

/-- What is found under a hash after a list was put into a map was there, or is from the list. -/
theorem getElem?_foldl_insert {a : α}
    (found : (as.foldl (fun m a => m.insert (key a) a) m)[hash]? = some a) :
    m[hash]? = some a ∨ a ∈ as ∧ key a = hash := by
  induction as generalizing m with
  | nil => exact .inl found
  | cons b rest ih =>
    rcases ih found with old | ⟨mem, same⟩
    · rw [Std.TreeMap.getElem?_insert] at old
      split at old
      next eq =>
        cases old
        exact .inr ⟨List.mem_cons_self, Std.LawfulEqCmp.eq_of_compare eq⟩
      next => exact .inl old
    · exact .inr ⟨List.mem_cons_of_mem _ mem, same⟩

/-- A hash under which something is found after a list was put into a map. -/
theorem contains_foldl_insert :
    (as.foldl (fun m a => m.insert (key a) a) m).contains hash = true ↔
      (∃ a ∈ as, key a = hash) ∨ m.contains hash = true := by
  induction as generalizing m with
  | nil => simp
  | cons b rest ih =>
    rw [List.foldl_cons, ih, Std.TreeMap.contains_insert, Bool.or_eq_true, beq_iff_eq,
      Std.LawfulEqCmp.compare_eq_iff_eq]
    simp only [List.mem_cons, exists_eq_or_imp]
    exact or_left_comm.trans or_assoc.symm

end BlockRelay
