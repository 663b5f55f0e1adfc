/-
# Honest replies

A summary is answered by one ledger, and the answer is judged by another one.  The two sides meet at
a description of an answer (`Answers`): a stretch that starts at a block that the summary names and
does not go beyond the head of the ledger that answers.  Every answer of a ledger in memory is of
this form (`ChainLedger.Linear.answers`), and a reply of this form is legal unless the head is
farther ahead than can be (`Answers.legal`).

Nothing is said about how the two chains are related: they may be forks of each other, and the
summary may name blocks that the ledger which answers has never seen.
-/
import BlockRelay.Proofs.Legality
import BlockRelay.Proofs.Prefixes

namespace BlockRelay

/-- Identities that may answer a summary on behalf of a chain with a given head. -/
structure Answers (head : BlockId) (summary ids : List BlockId) : Prop where
  stretch : Consecutive ids
  start : ∀ first ∈ ids.head?, first.isIn summary = true
  below : ∀ last ∈ ids.getLast?, last.number.toNat ≤ head.number.toNat

/-! ## The side that judges -/

namespace Answers

variable {head : BlockId} {summary ids : List BlockId}

/-- An empty answer may be given at any time. -/
theorem nil : Answers head summary [] := ⟨.nil, nofun, nofun⟩

/-- What is said to be left beyond an answer ends at the head, or before it. -/
theorem remaining_le (h : Answers head summary ids) {last : BlockId}
    (ends : ids.getLast? = some last) :
    last.number.toNat + (Engine.remainingFor head summary ids).toNat ≤ head.number.toNat := by
  have below := h.below last ends
  unfold Engine.remainingFor
  split
  · simpa using below
  · have le : last.number ≤ head.number := UInt64.le_iff_toNat_le.2 below
    simp only [Engine.remainingBeyond, ends, if_pos le]
    rw [UInt64.toNat_sub_of_le _ _ le]
    omega

/-- **An answer is legal**, unless the head of the chain that it is about is beyond what can
exist. -/
theorem legal (h : Answers head summary ids) (named : summary ≠ []) {view : ChainFacts}
    {net : Config.Net} {now : Nat}
    (bounded : view.head.number ≠ 0 →
      ∃ bound, view.futureBound net now = .ok bound ∧ head.number.toNat ≤ bound) :
    view.judge net now summary ids (Engine.remainingFor head summary ids) = .ok (.ok ()) := by
  refine ChainFacts.judge_eq_ok_iff.2 ⟨⟨h.stretch, fun first mem => ?_, ?_⟩, fun above _ => ?_⟩
  · exact ⟨fun nothing => absurd nothing named, fun _ => BlockId.isIn_iff.1 (h.start first mem)⟩
  · intro above last ends
    obtain ⟨bound, future, le⟩ := bounded above
    obtain ⟨rfl, -⟩ := ChainFacts.futureBound_eq_ok_iff.1 future
    exact (Nat.min_le_left ..).trans ((h.remaining_le ends).trans le)
  · obtain ⟨bound, future, -⟩ := bounded above
    exact (ChainFacts.futureBound_eq_ok_iff.1 future).2

end Answers

/-! ## The side that answers -/

namespace ChainLedger

variable {l : ChainLedger}

/-- What is found in a part of the main chain is on the main chain. -/
theorem getElem?_of_extract {start stop i : Nat} {id : BlockId}
    (found : (l.main.extract start stop).toList[i]? = some id) : l.main[start + i]? = some id := by
  rw [Array.getElem?_toList, Array.getElem?_extract] at found
  split at found
  · exact found
  · cases found

/-- A part of the main chain is a stretch. -/
theorem Linear.consecutive_extract (h : l.Linear) (start stop : Nat) :
    Consecutive (l.main.extract start stop).toList := by
  have height {i : Nat} {id : BlockId} (found : (l.main.extract start stop).toList[i]? = some id) :
      id.number.toNat = start + i ∧ id.Faithful := h.height (getElem?_of_extract found)
  constructor
  · refine List.isChain_iff_getElem.2 fun i lt => ?_
    rw [(height (List.getElem?_eq_getElem _)).1, (height (List.getElem?_eq_getElem _)).1,
      Nat.add_assoc]
  · intro id mem
    obtain ⟨i, found⟩ := List.getElem?_of_mem mem
    exact (height found).2

/-- **A ledger answers.**  What lies beyond the newest entry of a summary that is on the main chain
is an answer to the summary. -/
theorem Linear.answers (h : l.Linear) {summary ids : List BlockId} (named : summary ≠ [])
    (done : l.idsBeyond summary = .ok ids) : Answers l.head summary ids := by
  rcases idsBeyond_cases done with ⟨rfl, -⟩ | ⟨start, -, starts, rfl⟩
  · exact .nil
  refine ⟨h.consecutive_extract _ _, fun first mem => ?_, fun last mem => ?_⟩
  · -- the entry that the stretch starts at names the block at its height, which is the first one
    obtain ⟨id, known, on, rfl⟩ := starts named
    obtain ⟨other, found, same⟩ := (Option.any_eq_true _ _).1 on
    rw [Option.mem_def, List.head?_eq_getElem?] at mem
    cases found.symm.trans (getElem?_of_extract mem)
    exact BlockId.isIn_iff.2 ⟨id, known, (BlockId.same_iff.1 same).symm⟩
  · rw [Option.mem_def, List.getLast?_eq_getElem?] at mem
    have found := getElem?_of_extract mem
    obtain ⟨lt, -⟩ := Array.getElem?_eq_some_iff.1 found
    rw [(h.height found).1, h.head_height]
    omega

end ChainLedger

/-! ## Both sides -/

namespace Engine

/-- **No honest reply is refused.**  A ledger makes a summary, of any shared block and any pending
ones, and another ledger answers it, which started from a block of height zero and has grown in
whatever way.  The answer is legal for the first one, unless the head of the second one is beyond
what can exist, or the bound on this cannot be computed.  An answer is given unless the chain is
longer than any memory. -/
theorem judge_idsBeyond {e : Engine ChainLedger} {other : ChainLedger} {genesis : Block}
    {solidifyDepth batch : Nat} {shared : BlockId} {pending summary : List BlockId}
    {net : Config.Net} {now : Nat} (zero : genesis.number = 0)
    (calls : (ChainLedger.ofGenesis genesis solidifyDepth batch).Calls other)
    (cap : batch < 2 ^ 62) (sampled : e.ledger.sampleChain shared pending = .ok summary)
    (bounded : e.ledger.head.number ≠ 0 →
      ∃ bound, e.chainFacts.futureBound net now = .ok bound ∧ other.head.number.toNat ≤ bound) :
    (∀ ids, other.idsBeyond summary = .ok ids →
      e.chainFacts.judge net now summary ids (remainingFor other.head summary ids) =
        .ok (.ok ())) ∧
      (other.main.size ≤ 3 * 2 ^ 62 → ∃ ids, other.idsBeyond summary = .ok ids) := by
  have named : summary ≠ [] := (ChainLedger.sampleChain_eq_ok sampled).1
  have linear : other.Linear :=
    ((ChainLedger.Linear.ofGenesis zero solidifyDepth batch).grows_calls calls).linear
  refine ⟨fun ids answered => (linear.answers named answered).legal named bounded, fun short => ?_⟩
  have batch_eq : other.batch = max batch 1 := (ChainLedger.fixed_calls calls).2
  refine ChainLedger.exists_idsBeyond summary ?_
  unfold wordBound
  omega

/-- Whether the summary of a ledger up to the first block is answered with two blocks while one is
left, and the head of the ledger that answers is no farther ahead than can be. -/
def isAnsweredInPart (e : Engine ChainLedger) (other : ChainLedger) : Bool :=
  e.ledger.head.number ≠ 0 &&
    (e.ledger.sampleChain (Block.bare 1).id []).toOption.any fun summary =>
      (e.chainFacts.futureBound {} 9000).toOption.any (other.head.number.toNat ≤ ·) &&
        (other.idsBeyond summary).toOption.any fun ids =>
          ids.length = 2 && remainingFor other.head summary ids = 1

/-- A ledger with one block on top of the first one gets an answer that lists two of the three
blocks of another ledger, and says that one is left. -/
theorem judge_two_of_three :
    ∃ (e : Engine ChainLedger) (other : ChainLedger) (summary ids : List BlockId),
      (ChainLedger.ofGenesis (.genesis 0) 0 1).Calls other ∧ e.ledger.head.number ≠ 0 ∧
        e.ledger.sampleChain (Block.bare 1).id [] = .ok summary ∧
          other.idsBeyond summary = .ok ids ∧ ids.length = 2 ∧
            remainingFor other.head summary ids = 1 ∧
              e.chainFacts.judge {} 9000 summary ids (remainingFor other.head summary ids) =
                .ok (.ok ()) := by
  have checked : (do
      let one ← (ChainLedger.ofGenesis (.genesis 0) 0 10).applyBlock (.bare 1)
      let e ← Engine.start {} one.2 {}
      let one ← (ChainLedger.ofGenesis (.genesis 0) 0 1).applyBlock (.bare 1)
      let two ← one.2.applyBlock (.bare 2)
      let three ← two.2.applyBlock (.bare 3)
      return e.isAnsweredInPart three.2 : Checked Bool) = .ok true := by
    decide +kernel
  simp only [Checked.bind_eq_ok_iff] at checked
  obtain ⟨-, -, e, -, one, first, two, second, three, third, checked⟩ := checked
  have calls : (ChainLedger.ofGenesis (.genesis 0) 0 1).Calls three.2 :=
    ((Relation.ReflTransGen.single (.applyBlock first)).tail (.applyBlock second)).tail
      (.applyBlock third)
  have checked : e.isAnsweredInPart three.2 = true := Except.ok.inj checked
  simp only [isAnsweredInPart, Bool.and_eq_true, decide_eq_true_eq, Option.any_eq_true,
    Checked.toOption_eq_some_iff] at checked
  obtain ⟨ahead, summary, sampled, ⟨bound, future, le⟩, ids, answered, two, left⟩ := checked
  have sampled : e.ledger.sampleChain (Block.bare 1).id [] = .ok summary := by
    cases eq : e.ledger.sampleChain (Block.bare 1).id [] with
    | error => simp [eq, Except.toOption] at sampled
    | ok ids => simpa [eq, Except.toOption] using sampled
  obtain ⟨legal, -⟩ := judge_idsBeyond rfl calls (by decide) sampled fun _ => ⟨bound, future, le⟩
  exact ⟨e, three.2, summary, ids, calls, ahead, sampled, answered, two, left, legal ids answered⟩

end Engine

end BlockRelay
