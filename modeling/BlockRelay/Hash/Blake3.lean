/-
# The BLAKE3 hash function

`Blake3.digest` is the unkeyed 256-bit BLAKE3 hash of a list of bytes.  The input
is cut into chunks of 1024 bytes, each chunk is absorbed in blocks of 64 bytes, and
the chunks are the leaves of a binary tree whose left subtrees are full.

The sixteen words of a compression are held as four rows of four.  A round mixes
the columns, and then the diagonals, which are the columns again once the rows
are rotated; the sixteen message words are grouped the way the two halves of a
round read them, so that no word is ever looked up by an index.
-/

namespace BlockRelay.Blake3

/-! ## Rows of words -/

/-- Four 32-bit words side by side. -/
structure Row where
  x0 : UInt32
  x1 : UInt32
  x2 : UInt32
  x3 : UInt32
  deriving DecidableEq, Repr

namespace Row

/-- Combine two rows word by word. -/
@[inline] def zipWith (f : UInt32 → UInt32 → UInt32) (r s : Row) : Row :=
  ⟨f r.x0 s.x0, f r.x1 s.x1, f r.x2 s.x2, f r.x3 s.x3⟩

/-- Add word by word, modulo 2^32. -/
@[inline] def add (r s : Row) : Row := zipWith (· + ·) r s

/-- Exclusive or, word by word. -/
@[inline] def xor (r s : Row) : Row := zipWith (· ^^^ ·) r s

/-- Rotate every word right by `n` bits. -/
@[inline] def rotateBits (r : Row) (n : UInt32) : Row :=
  let turn (x : UInt32) := (x >>> n) ||| (x <<< (32 - n))
  ⟨turn r.x0, turn r.x1, turn r.x2, turn r.x3⟩

/-- Move every word one place to the left, the first one to the end. -/
@[inline] def rotateWords (r : Row) : Row := ⟨r.x1, r.x2, r.x3, r.x0⟩

end Row

/-! ## The compression function -/

/-- The sixteen message words, in the two groups that mix the columns and the two
that mix the diagonals: words 0 2 4 6, words 1 3 5 7, words 8 10 12 14, words 9 11 13 15. -/
structure Words where
  columnX : Row
  columnY : Row
  diagonalX : Row
  diagonalY : Row
  deriving DecidableEq, Repr

/-- The order of the message words for the next round. -/
def Words.permute (m : Words) : Words where
  columnX := ⟨m.columnX.x1, m.columnY.x1, m.columnY.x3, m.columnX.x2⟩
  columnY := ⟨m.columnX.x3, m.diagonalX.x1, m.columnX.x0, m.diagonalY.x2⟩
  diagonalX := ⟨m.columnY.x0, m.diagonalX.x2, m.diagonalY.x0, m.diagonalY.x3⟩
  diagonalY := ⟨m.diagonalY.x1, m.columnY.x2, m.diagonalX.x3, m.diagonalX.x0⟩

/-- The working state of a compression: four rows. -/
structure State where
  a : Row
  b : Row
  c : Row
  d : Row
  deriving DecidableEq, Repr

/-- Mix every column of the state with two message words. -/
def State.mixColumns (s : State) (x y : Row) : State :=
  let a := (s.a.add s.b).add x
  let d := (s.d.xor a).rotateBits 16
  let c := s.c.add d
  let b := (s.b.xor c).rotateBits 12
  let a := (a.add b).add y
  let d := (d.xor a).rotateBits 8
  let c := c.add d
  let b := (b.xor c).rotateBits 7
  ⟨a, b, c, d⟩

/-- Rotate row `i` left by `i` places, so that the diagonals become columns. -/
def State.skew (s : State) : State :=
  ⟨s.a, s.b.rotateWords, s.c.rotateWords.rotateWords, s.d.rotateWords.rotateWords.rotateWords⟩

/-- Undo `State.skew`. -/
def State.unskew (s : State) : State :=
  ⟨s.a, s.b.rotateWords.rotateWords.rotateWords, s.c.rotateWords.rotateWords, s.d.rotateWords⟩

/-- One round: mix the columns, then the diagonals. -/
def State.round (s : State) (m : Words) : State :=
  ((s.mixColumns m.columnX m.columnY).skew.mixColumns m.diagonalX m.diagonalY).unskew

/-- Run `n` rounds, permuting the message words between them. -/
def State.rounds : Nat → State → Words → State
  | 0, s, _ => s
  | n + 1, s, m => State.rounds n (s.round m) m.permute

/-- A chaining value: eight words. -/
structure Chaining where
  low : Row
  high : Row
  deriving DecidableEq, Repr

/-- The chaining value that every chunk and every inner node starts from. -/
def Chaining.initial : Chaining where
  low := ⟨0x6A09E667, 0xBB67AE85, 0x3C6EF372, 0xA54FF53A⟩
  high := ⟨0x510E527F, 0x9B05688C, 0x1F83D9AB, 0x5BE0CD19⟩

/-- The domain bits of a compression. -/
structure Domain where
  chunkStart : Bool
  chunkEnd : Bool
  parent : Bool
  root : Bool

/-- The word in which the domain bits enter the state. -/
def Domain.word (f : Domain) : UInt32 :=
  (cond f.chunkStart 1 0) ||| (cond f.chunkEnd 2 0) ||| (cond f.parent 4 0) |||
    (cond f.root 8 0)

/-- Everything that one compression reads. -/
structure Node where
  chaining : Chaining
  message : Words
  counter : UInt64
  length : UInt32
  domain : Domain

/-- Compress a node to the next chaining value. -/
def Node.compress (n : Node) : Chaining :=
  let start : State :=
    { a := n.chaining.low
      b := n.chaining.high
      c := Chaining.initial.low
      d := ⟨n.counter.toUInt32, (n.counter >>> 32).toUInt32, n.length, n.domain.word⟩ }
  let s := State.rounds 7 start n.message
  ⟨s.a.xor s.c, s.b.xor s.d⟩

/-! ## Chunks -/

/-- The little-endian word at word position `i` of a block; bytes past its end are zero. -/
def wordAt (block : List UInt8) (i : Nat) : UInt32 :=
  let r := block.drop (4 * i)
  (r.getD 0 0).toUInt32 ||| ((r.getD 1 0).toUInt32 <<< 8) |||
    ((r.getD 2 0).toUInt32 <<< 16) ||| ((r.getD 3 0).toUInt32 <<< 24)

/-- The message words of a block of at most 64 bytes. -/
def Words.ofBlock (block : List UInt8) : Words :=
  let w := wordAt block
  { columnX := ⟨w 0, w 2, w 4, w 6⟩
    columnY := ⟨w 1, w 3, w 5, w 7⟩
    diagonalX := ⟨w 8, w 10, w 12, w 14⟩
    diagonalY := ⟨w 9, w 11, w 13, w 15⟩ }

/-- Cut a list into pieces of `n + 1` elements, the last one possibly shorter; the
empty list is one empty piece.  The first argument bounds the number of cuts. -/
def pieces {α : Type} (n : Nat) : Nat → List α → List (List α)
  | 0, l => [l]
  | fuel + 1, l =>
    if l.length ≤ n + 1 then [l]
    else l.take (n + 1) :: pieces n fuel (l.drop (n + 1))

/-- Absorb the blocks of one chunk; the node of the last block is left uncompressed. -/
def absorb (counter : UInt64) : Chaining → Bool → List (List UInt8) → Node
  | cv, first, [] =>
    ⟨cv, Words.ofBlock [], counter, 0, ⟨first, true, false, false⟩⟩
  | cv, first, [block] =>
    ⟨cv, Words.ofBlock block, counter, block.length.toUInt32, ⟨first, true, false, false⟩⟩
  | cv, first, block :: next :: rest =>
    let node : Node := ⟨cv, Words.ofBlock block, counter, 64, ⟨first, false, false, false⟩⟩
    absorb counter node.compress false (next :: rest)

/-- The leaf of a chunk of at most 1024 bytes at position `counter`. -/
def leaf (counter : Nat) (chunk : List UInt8) : Node :=
  absorb counter.toUInt64 Chaining.initial true (pieces 63 16 chunk)

/-! ## The tree -/

/-- The inner node over two subtrees. -/
def join (l r : Node) : Node :=
  let cl := l.compress
  let cr := r.compress
  { chaining := Chaining.initial
    message :=
      { columnX := ⟨cl.low.x0, cl.low.x2, cl.high.x0, cl.high.x2⟩
        columnY := ⟨cl.low.x1, cl.low.x3, cl.high.x1, cl.high.x3⟩
        diagonalX := ⟨cr.low.x0, cr.low.x2, cr.high.x0, cr.high.x2⟩
        diagonalY := ⟨cr.low.x1, cr.low.x3, cr.high.x1, cr.high.x3⟩ }
    counter := 0
    length := 64
    domain := ⟨false, false, true, false⟩ }

/-- Join neighbours pairwise; an odd last node moves up unchanged. -/
def joinPairs : List Node → List Node
  | l :: r :: rest => join l r :: joinPairs rest
  | rest => rest

/-- Join level after level until one node is left.  As many levels as there are
leaves are more than enough. -/
def joinAll : Nat → Node → List Node → Node
  | 0, n, _ => n
  | _ + 1, n, [] => n
  | fuel + 1, n, m :: rest => joinAll fuel (join n m) (joinPairs rest)

/-- The BLAKE3 hash of a list of bytes, as eight little-endian words. -/
def digest (bytes : List UInt8) : Chaining :=
  let chunks := pieces 1023 bytes.length bytes
  match chunks.zipIdx.map fun (chunk, i) => leaf i chunk with
  | [] => Chaining.initial
  | n :: rest =>
    let top := joinAll rest.length n rest
    Node.compress { top with domain := { top.domain with root := true } }

end BlockRelay.Blake3
