/-
# The positions of a summary

A summary samples the main chain up to a shared block with the pending blocks behind it
(`ChainLedger.knownChain`).  The distances to the last position are halved at each step, down to
zero (`summaryDistances`), so the positions increase from the start to the last one, and there are
no more of them than the first distance has binary digits (`Halves.of_distances`).

Each of them is within the chain, on whichever side of the shared block it lies
(`knownAt?_eq_getElem?`), so no sample is missing from a summary (`sampleChain_halves`).
-/
import BlockRelay.Proofs.LinearLedger
import Mathlib.Data.List.Chain

namespace BlockRelay.ChainLedger

variable {l : ChainLedger} {shared : BlockId} {high : Nat}

/-! ## Distances -/

/-- A summary has as many distances as the first one has binary digits, counted from one. -/
theorem length_summaryDistances (d : Nat) :
    (summaryDistances d).length = Nat.log2 (d + 1) + 1 := by
  induction d using Nat.strongRecOn with
  | ind d ih =>
    cases d with
    | zero => simp [summaryDistances, Nat.log2_def]
    | succ d =>
      have half : (d + 1 + 1) / 2 = d / 2 + 1 := by omega
      rw [summaryDistances, List.length_cons, ih (d / 2) (by omega), Nat.log2_def (d + 1 + 1),
        if_pos (by omega), half]

/-- Each distance of a summary is half of what the one before leaves. -/
theorem isChain_summaryDistances (d : Nat) :
    (summaryDistances d).IsChain fun a b => b < a ∧ b = (a + 1) / 2 - 1 := by
  induction d using Nat.strongRecOn with
  | ind d ih =>
    cases d with
    | zero =>
      rw [summaryDistances]
      exact .singleton 0
    | succ d =>
      have half := ih (d / 2) (by omega)
      obtain ⟨rest, eq⟩ := List.head?_eq_some_iff.1 (head_summaryDistances (d / 2))
      rw [eq] at half
      rw [summaryDistances, eq]
      exact .cons_cons (by omega) half

/-- No distance of a summary is greater than the first one. -/
theorem le_of_mem_summaryDistances {d a : Nat} (mem : a ∈ summaryDistances d) : a ≤ d := by
  have decreasing : (summaryDistances d).Pairwise (· > ·) :=
    ((isChain_summaryDistances d).imp fun _ _ => And.left).pairwise
  obtain ⟨rest, eq⟩ := List.head?_eq_some_iff.1 (head_summaryDistances d)
  rw [eq] at decreasing mem
  rcases List.mem_cons.1 mem with rfl | later
  · exact Nat.le_refl _
  · exact Nat.le_of_lt (List.rel_of_pairwise_cons decreasing later)

/-- Positions that increase from a first to a last one while the distance to the last one is
halved at each step. -/
structure Halves (first last : Nat) (positions : List Nat) : Prop where
  starts : positions.head? = some first
  ends : positions.getLast? = some last
  increasing : positions.Pairwise (· < ·)
  halved : positions.IsChain fun p q => last - q = (last - p + 1) / 2 - 1
  few : positions.length ≤ Nat.log2 (last - first + 1) + 1

/-- The distances of a summary, taken from the last position. -/
theorem Halves.of_distances {first last : Nat} (le : first ≤ last) :
    Halves first last ((summaryDistances (last - first)).map (last - ·)) where
  starts := by
    rw [List.head?_map, head_summaryDistances, Option.map_some]
    exact congrArg some (by omega)
  ends := by rw [List.getLast?_map, getLast_summaryDistances]; rfl
  increasing := by
    refine List.IsChain.pairwise ((List.isChain_map _).2 ?_)
    refine (isChain_summaryDistances _).imp_of_mem_imp fun a b mem _ halves => ?_
    have le := le_of_mem_summaryDistances mem
    omega
  halved := by
    refine (List.isChain_map _).2 ?_
    refine (isChain_summaryDistances _).imp_of_mem_imp fun a b mem next halves => ?_
    have le := le_of_mem_summaryDistances mem
    omega
  few := by rw [List.length_map, length_summaryDistances]

/-! ## The chain that is sampled -/

/-- The main chain up to a height, with the pending blocks behind it. -/
def knownChain (l : ChainLedger) (high : Nat) (pending : List BlockId) : List BlockId :=
  l.main.toList.take (high + 1) ++ pending

/-- The height up to which a shared block makes the main chain known: the head for the first block,
and its own height for another block of the main chain. -/
inductive Anchors (l : ChainLedger) (shared : BlockId) : Nat → Prop
  | first (same : shared.hash = l.first.hash) : Anchors l shared l.headIndex
  | onMain {id : BlockId} (other : shared.hash ≠ l.first.hash)
      (found : l.main[shared.number.toNat]? = some id) (same : id.hash = shared.hash) :
      Anchors l shared shared.number.toNat

/-- A shared block makes a part of the main chain known. -/
theorem Anchors.lt_size (h : l.Anchors shared high) : high < l.main.size := by
  cases h with
  | first => have size := l.size_main; omega
  | onMain _ found _ => exact (Array.getElem?_eq_some_iff.1 found).1

/-- The number of blocks that are known. -/
theorem length_knownChain (known : high < l.main.size) (pending : List BlockId) :
    (l.knownChain high pending).length = high + pending.length + 1 := by
  rw [knownChain, List.length_append, List.length_take, Array.length_toList]
  omega

/-- What is known at a position stands there in the known chain. -/
theorem knownAt?_eq_getElem? (known : high < l.main.size) (pending : List BlockId)
    (position : Nat) :
    l.knownAt? high pending position = (l.knownChain high pending)[position]? := by
  have front : (l.main.toList.take (high + 1)).length = high + 1 := by
    rw [List.length_take, Array.length_toList]
    omega
  unfold knownAt? knownChain
  split
  next le =>
    rw [List.getElem?_append_left (by omega), List.getElem?_take_of_lt (by omega),
      Array.getElem?_toList]
  next beyond =>
    rw [List.getElem?_append_right (by omega), front, Nat.sub_sub]

/-- A summary up to a shared block is the known chain at the positions of the distances. -/
theorem Anchors.sampleChain_eq (h : l.Anchors shared high) (pending : List BlockId) :
    l.sampleChain shared pending = .ok
      ((summaryDistances (high + pending.length - min l.solidified.number.toNat high)).filterMap
        fun d => (l.knownChain high pending)[high + pending.length - d]?) := by
  rw [← funext fun d => knownAt?_eq_getElem? h.lt_size pending (high + pending.length - d)]
  unfold sampleChain
  cases h with
  | first same => rw [if_pos (BlockId.same_iff.2 same)]
  | onMain other found same =>
    have on : l.onMain shared = true := by
      rw [ChainLedger.onMain, found, Option.any_some]
      exact BlockId.same_iff.2 same.symm
    dsimp only
    rw [if_neg fun same => other (BlockId.same_iff.1 same), if_pos on]

/-- Without a shared block there is no summary. -/
theorem sampleChain_of_not_anchors (none : ∀ high, ¬ l.Anchors shared high)
    (pending : List BlockId) : ∃ detail, l.sampleChain shared pending = .error (.store detail) := by
  have other : shared.hash ≠ l.first.hash := fun same => none _ (.first same)
  have off : l.onMain shared ≠ true := fun on => by
    obtain ⟨id, found, same⟩ := (Option.any_eq_true ..).1 on
    exact none _ (.onMain other found (BlockId.same_iff.1 same).symm)
  unfold sampleChain
  dsimp only
  rw [if_neg fun same => other (BlockId.same_iff.1 same), if_neg off]
  exact ⟨_, rfl⟩

/-- **The positions of a summary.**  With the first block shared, or another block of the main
chain, a summary is the known chain at positions that increase from the solidified block, or the
shared one if that is lower, to the last one, and that halve the distance to it at each step.  With
any other block there is none. -/
theorem sampleChain_halves (l : ChainLedger) (shared : BlockId) (pending : List BlockId) :
    (∀ high, l.Anchors shared high → ∃ ids positions,
      l.sampleChain shared pending = .ok ids ∧
      ids.map some = positions.map (fun p => (l.knownChain high pending)[p]?) ∧
      Halves (min l.solidified.number.toNat high) ((l.knownChain high pending).length - 1)
        positions) ∧
    ((∀ high, ¬ l.Anchors shared high) →
      ∃ detail, l.sampleChain shared pending = .error (.store detail)) := by
  refine ⟨fun high anchors => ?_, fun none => sampleChain_of_not_anchors none pending⟩
  have length := length_knownChain anchors.lt_size pending
  have last : (l.knownChain high pending).length - 1 = high + pending.length := by omega
  rw [last]
  refine ⟨_, _, anchors.sampleChain_eq pending, ?_, .of_distances (by omega)⟩
  rw [List.map_filterMap_some_eq_filter_map_isSome, List.map_map]
  -- every distance leads to a position of the known chain, so nothing is left out
  refine List.filter_eq_self.2 fun sample mem => ?_
  obtain ⟨d, -, rfl⟩ := List.mem_map.1 mem
  rw [List.getElem?_eq_getElem (by omega)]
  rfl

/-- Ten pending blocks on top of the first one are sampled at four positions, and nothing is
sampled for a block that is unknown. -/
theorem sampleChain_ten_pending :
    let l := ofGenesis (.genesis 0) 100 10
    let pending := (List.range 10).map fun n => (Block.bare (n + 1)).id
    l.Anchors l.first 0 ∧ (∀ high, ¬ l.Anchors (Block.bare 1).id high) ∧
      (∃ ids positions, l.sampleChain l.first pending = .ok ids ∧
        ids.map some = positions.map (fun p => (l.knownChain 0 pending)[p]?) ∧
        Halves 0 10 positions) ∧
      ∃ detail, l.sampleChain (Block.bare 1).id pending = .error (.store detail) := by
  intro l pending
  have anchors : l.Anchors l.first 0 := .first rfl
  have unknown : ∀ high, ¬ l.Anchors (Block.bare 1).id high := by
    have other : (Block.bare 1).id.hash ≠ (Block.genesis 0).id.hash := by decide +kernel
    rintro high (same | ⟨-, found, -⟩)
    · exact other same
    · cases found
  have refused := (sampleChain_halves l (Block.bare 1).id pending).2 unknown
  exact ⟨anchors, unknown, (sampleChain_halves l l.first pending).1 0 anchors, refused⟩

end BlockRelay.ChainLedger
