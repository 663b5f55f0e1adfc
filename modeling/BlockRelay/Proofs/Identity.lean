/-
# What the identity of a block binds

The identity of a block is the digest of its encoding, stamped with its height; of the digest it
keeps what stands behind the first eight bytes (`Hash.stamp_eq_stamp_iff_drop`).

No length is written into an encoding.  The transactions of a block are encoded by their hashes,
which have one width, and a payload is all that follows the timestamp; so the header and the hashes
can be told from the encoding of a block (`Block.encoding_eq_iff`), and a transaction from its own
(`Transaction.encoding_inj`).  Blocks of one identity are therefore equal, or two of the byte
strings that were digested for them collide, which happens at one of two places only
(`Block.same_id_iff`).
-/
import BlockRelay.Block

namespace BlockRelay

/-! ## Bytes of words and hashes -/

/-- A word can be told from the front of a byte string. -/
theorem Hex.wordBytes_append_inj {v w : UInt64} {xs ys : List UInt8} :
    wordBytes v ++ xs = wordBytes w ++ ys ↔ v = w ∧ xs = ys := by
  constructor
  · intro same
    have widths : (wordBytes v).length = (wordBytes w).length := by
      rw [length_wordBytes, length_wordBytes]
    obtain ⟨front, rest⟩ := List.append_inj same widths
    exact ⟨wordBytes_inj.1 front, rest⟩
  · rintro ⟨rfl, rfl⟩
    rfl

namespace Hash

/-- Two different byte strings collide when their digests agree after the first `skip` bytes. -/
def Collide (skip : Nat) (x y : List UInt8) : Prop :=
  x ≠ y ∧ (digest x).bytes.drop skip = (digest y).bytes.drop skip

/-- A hash can be told from the front of a byte string. -/
theorem bytes_append_inj {g h : Hash} {xs ys : List UInt8} :
    g.bytes ++ xs = h.bytes ++ ys ↔ g = h ∧ xs = ys := by
  simp only [bytes, List.append_assoc, Hex.wordBytes_append_inj]
  cases g
  cases h
  simp only [mk.injEq, and_assoc]

/-- A row of hashes can be told from its bytes. -/
theorem flatMap_bytes_inj {gs hs : List Hash} :
    gs.flatMap bytes = hs.flatMap bytes ↔ gs = hs := by
  induction gs generalizing hs with
  | nil =>
    cases hs with
    | nil => exact iff_of_true rfl rfl
    | cons h hs => exact iff_of_false nofun nofun
  | cons g gs ih =>
    cases hs with
    | nil => exact iff_of_false nofun nofun
    | cons h hs =>
      rw [List.flatMap_cons, List.flatMap_cons, bytes_append_inj, ih, List.cons.injEq]

/-- A stamp takes the place of the first eight bytes. -/
theorem bytes_stamp (h : Hash) (n : UInt64) :
    (h.stamp n).bytes = Hex.wordBytes n ++ h.bytes.drop 8 := rfl

/-- Two stamped hashes agree exactly when the stamps agree and the hashes agree after their first
eight bytes. -/
theorem stamp_eq_stamp_iff_drop {g h : Hash} {m n : UInt64} :
    g.stamp m = h.stamp n ↔ m = n ∧ g.bytes.drop 8 = h.bytes.drop 8 := by
  rw [← bytes_inj, bytes_stamp, bytes_stamp, Hex.wordBytes_append_inj]

end Hash

/-! ## Transactions -/

namespace Transaction

/-- Different transactions have different encodings. -/
theorem encoding_inj {t u : Transaction} : t.encoding = u.encoding ↔ t = u := by
  rw [encoding, encoding, Hex.wordBytes_append_inj]
  cases t
  cases u
  rw [mk.injEq]
  exact And.comm

/-- Transactions with the same hashes are the same, unless the encodings of two of them collide
that stand at one place. -/
theorem eq_or_collide {ts us : List Transaction} (same : ts.map hash = us.map hash) :
    ts = us ∨ ∃ p ∈ ts.zip us, Hash.Collide 0 p.1.encoding p.2.encoding := by
  induction ts generalizing us with
  | nil =>
    cases us with
    | nil => exact .inl rfl
    | cons u us => cases same
  | cons t ts ih =>
    cases us with
    | nil => cases same
    | cons u us =>
      obtain ⟨first, rest⟩ := List.cons.inj same
      by_cases eq : t.encoding = u.encoding
      · rcases ih rest with others | ⟨p, mem, collide⟩
        · exact .inl (by rw [encoding_inj.1 eq, others])
        · exact .inr ⟨p, List.mem_cons_of_mem _ mem, collide⟩
      · refine .inr ⟨(t, u), List.mem_cons_self, eq, ?_⟩
        exact congrArg (fun h : Hash => h.bytes.drop 0) first

end Transaction

/-! ## Blocks -/

namespace Block

variable {a b : Block}

/-- From an encoding everything can be told except what the hashes of the transactions stand
for. -/
theorem encoding_eq_iff :
    a.encoding = b.encoding ↔
      a.number = b.number ∧ a.parent = b.parent ∧ a.timestamp = b.timestamp ∧
        a.witness = b.witness ∧ a.transactionHashes = b.transactionHashes := by
  simp only [encoding, List.append_assoc, Hex.wordBytes_append_inj, Hash.bytes_append_inj,
    Hash.flatMap_bytes_inj]

/-- Blocks of one encoding are equal, unless the encodings of two of their transactions collide
that stand at one place. -/
theorem eq_or_collide (same : a.encoding = b.encoding) :
    a = b ∨ ∃ p ∈ a.transactions.zip b.transactions,
      Hash.Collide 0 p.1.encoding p.2.encoding := by
  obtain ⟨number, parent, timestamp, witness, hashes⟩ := encoding_eq_iff.1 same
  rcases Transaction.eq_or_collide hashes with transactions | collide
  · left
    cases a
    cases b
    rw [mk.injEq]
    exact ⟨number, parent, timestamp, witness, transactions⟩
  · exact .inr collide

/-- Two blocks have one identity exactly when they stand at one height and the digests of their
encodings agree after the first eight bytes. -/
theorem same_id_iff_drop :
    a.id.same b.id = true ↔ a.number = b.number ∧
      (Hash.digest a.encoding).bytes.drop 8 = (Hash.digest b.encoding).bytes.drop 8 := by
  rw [BlockId.same_iff]
  exact Hash.stamp_eq_stamp_iff_drop

/-- **What the identity of a block binds.**  Two blocks have one identity exactly if they are equal;
or if they stand at one height and their encodings differ, while the digests agree after the first
eight bytes; or if they have one encoding and, at one place, two transactions whose encodings
differ while the digests agree. -/
theorem same_id_iff (a b : Block) :
    a.id.same b.id = true ↔
      a = b ∨
      (a.number = b.number ∧ Hash.Collide 8 a.encoding b.encoding) ∨
      (a.encoding = b.encoding ∧ ∃ p ∈ a.transactions.zip b.transactions,
        Hash.Collide 0 p.1.encoding p.2.encoding) := by
  constructor
  · intro same
    obtain ⟨number, digests⟩ := same_id_iff_drop.1 same
    by_cases eq : a.encoding = b.encoding
    · rcases eq_or_collide eq with equal | collide
      · exact .inl equal
      · exact .inr (.inr ⟨eq, collide⟩)
    · exact .inr (.inl ⟨number, eq, digests⟩)
  · rw [same_id_iff_drop]
    rintro (rfl | ⟨number, -, digests⟩ | ⟨eq, -⟩)
    · exact ⟨rfl, rfl⟩
    · exact ⟨number, digests⟩
    · exact ⟨(encoding_eq_iff.1 eq).1, by rw [eq]⟩

end Block

end BlockRelay
