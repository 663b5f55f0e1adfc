/-
# Which replies are legal

The rules for a reply to a summary can be said in one breath (`ChainFacts.Legal`): it is a stretch,
it starts where it was asked to start, and it does not reach beyond the horizon, which is the
greatest height that can exist by now.  The judgement accepts exactly the legal replies
(`ChainFacts.judge_eq_ok_iff`), and it refuses nothing but a breach of the protocol
(`ChainFacts.judge_cases`).  What is true at the end of each way through the judgement is said
once, by `ChainFacts.Judged`.

The judgement adds to a height that the peer has chosen before it has checked anything, so that it
may abort as well.  It does so for a reply that goes on behind the largest height (`Outgrows`), for
which there is no next height to be expected (`ChainFacts.judge_eq_error_iff`).
-/
import Mathlib.Algebra.Group.Nat.Defs
import Mathlib.Data.List.Chain
import BlockRelay.SummaryReply

namespace BlockRelay

/-! ## Consecutive heights -/

/-- Identities of consecutive heights, each repeated in the hash. -/
structure Consecutive (ids : List BlockId) : Prop where
  chain : ids.IsChain fun a b => b.number.toNat = a.number.toNat + 1
  faithful : ∀ id ∈ ids, id.Faithful

namespace Consecutive

variable {ids list : List BlockId}

/-- Nothing to fetch is consecutive. -/
theorem nil : Consecutive [] := ⟨.nil, nofun⟩

/-- A part of a stretch is a stretch. -/
theorem of_infix (h : Consecutive ids) (part : list <:+: ids) : Consecutive list where
  chain := List.IsChain.infix h.chain part
  faithful id mem := h.faithful id (part.subset mem)

/-- The end of a stretch is a stretch. -/
theorem of_suffix (h : Consecutive ids) (part : list <:+ ids) : Consecutive list :=
  h.of_infix part.isInfix

/-- What follows the first block of a stretch is a stretch. -/
theorem tail (h : Consecutive ids) : Consecutive ids.tail := h.of_suffix (List.tail_suffix ids)

/-- The heights of a stretch ascend. -/
theorem ascending (h : Consecutive ids) :
    ids.Pairwise fun a b => a.number.toNat < b.number.toNat := by
  have heights : (ids.map fun id => id.number.toNat).IsChain (· < ·) :=
    (List.isChain_map _).2 (h.chain.imp fun a b eq => by omega)
  exact List.pairwise_map.1 (List.isChain_iff_pairwise.1 heights)

/-- The blocks of a stretch have different hashes. -/
theorem nodup_hashes (h : Consecutive ids) : (ids.map (·.hash)).Nodup := by
  refine List.pairwise_map.2 ((List.pairwise_iff_forall_sublist.2 fun {a b} sub same => ?_))
  -- the heights differ, and the hashes repeat them
  have lt := List.pairwise_iff_forall_sublist.1 h.ascending sub
  have ha := h.faithful a (sub.subset (by simp))
  have hb := h.faithful b (sub.subset (by simp))
  rw [← ha, ← hb, same] at lt
  exact Nat.lt_irrefl _ lt

/-- The heights at both ends of a stretch are as far apart as it is long. -/
theorem number_getLast {first last : BlockId} (h : Consecutive ids)
    (starts : ids.head? = some first) (ends : ids.getLast? = some last) :
    last.number.toNat + 1 = first.number.toNat + ids.length := by
  induction ids generalizing first with
  | nil => cases starts
  | cons id rest ih =>
    cases starts
    cases rest with
    | nil =>
      cases ends
      rfl
    | cons next rest =>
      rw [List.getLast?_cons_cons] at ends
      have step : next.number.toNat = id.number.toNat + 1 := (List.isChain_cons_cons.1 h.chain).1
      rw [ih h.tail rfl ends, step]
      simp only [List.length_cons]
      omega

/-- Two stretches of which one ends where the other begins make one stretch. -/
theorem append_tail {last : BlockId} (h : Consecutive (list ++ [last]))
    (h' : Consecutive (last :: ids)) : Consecutive (list ++ [last] ++ ids) := by
  refine ⟨List.isChain_append.2 ⟨h.chain, h'.chain.tail, ?_⟩, fun id mem => ?_⟩
  · -- at the seam the second stretch says how the heights continue
    intro a ha b hb
    rw [List.getLast?_concat, Option.mem_some_iff] at ha
    cases ids with
    | nil => cases hb
    | cons next rest =>
      rw [List.head?_cons, Option.mem_some_iff] at hb
      subst ha hb
      exact (List.isChain_cons_cons.1 h'.chain).1
  · rcases List.mem_append.1 mem with mem | mem
    · exact h.faithful id mem
    · exact h'.faithful id (List.mem_cons_of_mem _ mem)

end Consecutive

/-! ## The search for a gap -/

/-- A reply without a gap is a stretch, and starts at the expected height. -/
theorem consecutive_of_firstGap {first i : Nat} {ids : List BlockId}
    (h : firstGap first i ids = .ok none) :
    Consecutive ids ∧ ∀ id ∈ ids.head?, id.number.toNat = first + i := by
  induction ids generalizing i with
  | nil => exact ⟨.nil, nofun⟩
  | cons id rest ih =>
    obtain ⟨expected, sum, h⟩ := Checked.bind_eq_ok_iff.1 h
    obtain ⟨rfl, -⟩ := Checked.add_eq_ok_iff.1 sum
    split at h
    next => cases h
    next fits =>
      rw [not_or, not_not, not_not] at fits
      obtain ⟨stretch, start⟩ := ih h
      refine ⟨⟨List.isChain_cons.2 ⟨fun next mem => ?_, stretch.chain⟩, ?_⟩, ?_⟩
      · rw [start next mem, fits.1]
        omega
      · exact List.forall_mem_cons.2 ⟨fits.2, stretch.faithful⟩
      · intro _ mem
        cases mem
        exact fits.1

/-- A stretch in front of a reply is passed without a gap, if it starts at the expected height. -/
theorem Consecutive.firstGap_append {stretch : List BlockId} (h : Consecutive stretch)
    {first i : Nat} (start : ∀ id ∈ stretch.head?, id.number.toNat = first + i)
    (rest : List BlockId) :
    firstGap first i (stretch ++ rest) = firstGap first (i + stretch.length) rest := by
  induction stretch generalizing i with
  | nil => rfl
  | cons id list ih =>
    have height : id.number.toNat = first + i := start id rfl
    -- the expected height is that of the block, and therefore a word
    have expected : Checked.add first i = .ok (first + i) := by
      have word := id.number.toNat_lt
      exact Checked.add_eq_ok_iff.2 ⟨rfl, by rw [← height]; exact word⟩
    have fits : ¬ (id.number.toNat ≠ first + i ∨ ¬ id.Faithful) := by
      rw [not_or, not_not, not_not]
      exact ⟨height, h.faithful id (List.mem_cons_self ..)⟩
    have next : ∀ b ∈ list.head?, b.number.toNat = first + (i + 1) := by
      intro b mem
      rw [(List.isChain_cons.1 h.chain).1 b mem, height]
      omega
    have step : firstGap first i (id :: (list ++ rest)) = firstGap first (i + 1) (list ++ rest) := by
      rw [firstGap, expected]
      exact if_neg fits
    rw [List.cons_append, step, ih h.tail next, List.length_cons, Nat.add_assoc, Nat.add_comm 1]

/-- A stretch has no gap. -/
theorem Consecutive.firstGap {ids : List BlockId} (h : Consecutive ids) {first i : Nat}
    (start : ∀ id ∈ ids.head?, id.number.toNat = first + i) :
    firstGap first i ids = .ok none := by
  have whole := h.firstGap_append start []
  rwa [List.append_nil] at whole

/-- The search for a gap aborts only behind a stretch after which there is no next height. -/
theorem exists_stretch_of_firstGap {first i : Nat} {ids : List BlockId} {o : Overflow}
    (word : first + i ≤ wordBound) (aborts : firstGap first i ids = .error o) :
    ∃ stretch rest, ids = stretch ++ rest ∧ rest ≠ [] ∧ Consecutive stretch ∧
      (∀ id ∈ stretch.head?, id.number.toNat = first + i) ∧
        first + i + stretch.length = wordBound := by
  induction ids generalizing i with
  | nil => cases aborts
  | cons id rest ih =>
    rcases Checked.bind_eq_error_iff.1 aborts with sum | ⟨expected, sum, aborts⟩
    · refine ⟨[], id :: rest, rfl, List.cons_ne_nil id rest, .nil, nofun, ?_⟩
      have large : ¬ first + i < wordBound := fun small => by
        cases sum.symm.trans (Checked.add_eq_ok_iff.2 ⟨rfl, small⟩)
      rw [List.length_nil]
      omega
    · obtain ⟨rfl, small⟩ := Checked.add_eq_ok_iff.1 sum
      split at aborts
      next => cases aborts
      next fits =>
        rw [not_or, not_not, not_not] at fits
        obtain ⟨stretch, behind, rfl, some, whole, start, top⟩ := ih (by omega) aborts
        refine ⟨id :: stretch, behind, rfl, some, ⟨List.isChain_cons.2 ⟨?_, whole.chain⟩, ?_⟩, ?_, ?_⟩
        · intro next mem
          rw [start next mem, fits.1]
          omega
        · exact List.forall_mem_cons.2 ⟨fits.2, whole.faithful⟩
        · intro _ mem
          cases mem
          exact fits.1
        · rw [List.length_cons]
          omega

/-- Whether the heights that are expected of a reply are words, as many as it has identities. -/
def HeightsFit (ids : List BlockId) : Prop :=
  ∀ first ∈ ids.head?, first.number.toNat + ids.length ≤ wordBound

/-- The heights of a stretch are words. -/
theorem Consecutive.heightsFit {ids : List BlockId} (h : Consecutive ids) : HeightsFit ids := by
  intro first starts
  cases ends : ids.getLast? with
  | none =>
    rw [List.getLast?_eq_none_iff.1 ends] at starts
    cases starts
  | some last =>
    have apart := h.number_getLast starts ends
    have word : last.number.toNat < wordBound := last.number.toNat_lt
    omega

/-- Whether a reply goes on behind a stretch that ends at the largest height. -/
def Outgrows (ids : List BlockId) : Prop :=
  ∃ stretch rest last, ids = stretch ++ rest ∧ rest ≠ [] ∧ Consecutive stretch ∧
    stretch.getLast? = some last ∧ last.number.toNat = maxWord

/-- A reply that goes on behind the largest height expects a height that is no word. -/
theorem Outgrows.not_heightsFit {ids : List BlockId} (h : Outgrows ids) : ¬ HeightsFit ids := by
  obtain ⟨stretch, rest, last, rfl, some, whole, ends, top⟩ := h
  intro fit
  have word : wordBound = maxWord + 1 := rfl
  have behind : 0 < rest.length := List.length_pos_iff.2 some
  cases stretch with
  | nil => cases ends
  | cons first list =>
    have apart := whole.number_getLast rfl ends
    have bound := fit first rfl
    rw [List.length_append] at bound
    omega

/-- **When the search for a gap aborts.**  From the first height on it aborts exactly for a reply
that goes on behind the largest height. -/
theorem firstGap_eq_error_iff {first : BlockId} {rest : List BlockId} :
    (∃ o, firstGap first.number.toNat 0 (first :: rest) = .error o) ↔ Outgrows (first :: rest) := by
  have top : wordBound = maxWord + 1 := rfl
  have word := first.number.toNat_lt
  constructor
  · rintro ⟨o, aborts⟩
    obtain ⟨stretch, behind, eq, some, whole, start, full⟩ :=
      exists_stretch_of_firstGap (Nat.le_of_lt word) aborts
    cases stretch with
    | nil =>
      -- the first height is a word, so that the search does not abort at once
      exact absurd full (Nat.ne_of_lt word)
    | cons head list =>
      have height := start head rfl
      have apart := whole.number_getLast rfl (List.getLast?_cons ..)
      exact ⟨_, behind, _, eq, some, whole, List.getLast?_cons .., by omega⟩
  · rintro ⟨stretch, behind, last, eq, some, whole, ends, full⟩
    obtain ⟨next, behind, rfl⟩ := List.exists_cons_of_ne_nil some
    cases stretch with
    | nil => cases ends
    | cons head list =>
      obtain ⟨rfl, -⟩ := List.cons.inj eq
      have apart := whole.number_getLast rfl ends
      have start : ∀ id ∈ (first :: list).head?, id.number.toNat = first.number.toNat + 0 := by
        rintro _ ⟨⟩
        rfl
      refine ⟨.add, ?_⟩
      rw [eq, whole.firstGap_append start, Nat.zero_add, firstGap, Checked.add, if_neg (by omega)]
      rfl

/-! ## The horizon -/

namespace ChainFacts

variable {view : ChainFacts} {net : Config.Net} {now : Nat} {requested ids : List BlockId}
  {remaining : UInt64}

/-- The greatest height that can exist by now: the solidified block and one block for every interval
since then, give or take the tolerated skew of the clocks. -/
def horizon (view : ChainFacts) (net : Config.Net) (now : Nat) : Nat :=
  view.solid.number.toNat +
    (net.clockMaxDelay + (now - view.solidTime.toNat)) / max net.blockInterval 1

/-- Whether the time and the height that the horizon is computed from are words. -/
def HorizonFits (view : ChainFacts) (net : Config.Net) (now : Nat) : Prop :=
  net.clockMaxDelay + (now - view.solidTime.toNat) < wordBound ∧ view.horizon net now < wordBound

/-- The bound on heights is the horizon, and exists only where it can be computed in words. -/
theorem futureBound_eq_ok_iff {n : Nat} :
    view.futureBound net now = .ok n ↔ n = view.horizon net now ∧ view.HorizonFits net now := by
  unfold futureBound HorizonFits horizon
  simp only [Checked.bind_eq_ok_iff, Checked.add_eq_ok_iff]
  constructor
  · rintro ⟨span, ⟨rfl, time⟩, rfl, height⟩
    exact ⟨Nat.add_comm .., time, by rwa [Nat.add_comm]⟩
  · rintro ⟨rfl, time, height⟩
    exact ⟨_, ⟨rfl, time⟩, Nat.add_comm .., by rwa [Nat.add_comm]⟩

/-- With the default delays the horizon can be computed for many years to come. -/
theorem horizonFits_default (solid : view.solid.number.toNat < 2 ^ 62) (clock : now < 2 ^ 62) :
    view.HorizonFits {} now := by
  have interval : max ({} : Config.Net).blockInterval 1 = 3000 := rfl
  have delay : ({} : Config.Net).clockMaxDelay = 3600000 := rfl
  unfold HorizonFits horizon wordBound
  rw [interval, delay]
  omega

/-! ## Legal replies -/

/-- Where a reply has to start: at an identity that we sent, or at height one if we sent none. -/
theorem startFault_eq_none_iff {first : BlockId} :
    startFault requested first = none ↔
      (requested = [] → first.number = 1) ∧
        (requested ≠ [] → ∃ sent ∈ requested, first.hash = sent.hash) := by
  rw [← BlockId.isIn_iff]
  unfold startFault
  by_cases nothing : requested = []
  · rw [if_pos (List.isEmpty_iff.2 nothing)]
    by_cases one : first.number = 1 <;> simp [nothing, one]
  · rw [if_neg (mt List.isEmpty_iff.1 nothing)]
    by_cases named : first.isIn requested = true <;> simp [nothing, named]

/-- A reply that starts elsewhere is a breach of the protocol. -/
theorem traitor_of_startFault {first : BlockId} {r : Refusal}
    (wrong : startFault requested first = some r) : ∃ detail, r = .traitor detail := by
  unfold startFault at wrong
  split at wrong <;> split at wrong <;> cases wrong <;> exact ⟨_, rfl⟩

/-- A legal reply to the summary `requested`.  An empty one is always legal. -/
structure Legal (view : ChainFacts) (net : Config.Net) (now : Nat) (requested ids : List BlockId)
    (remaining : UInt64) : Prop where
  stretch : Consecutive ids
  starts : ∀ first ∈ ids.head?, (requested = [] → first.number = 1) ∧
    (requested ≠ [] → ∃ sent ∈ requested, first.hash = sent.hash)
  withinHorizon : view.head.number ≠ 0 → ∀ last ∈ ids.getLast?,
    saturatingAdd last.number.toNat remaining.toNat ≤ view.horizon net now

/-! ## The judgement -/

/-- How a reply comes to its verdict.  There is one case for each way through the judgement, with
all that is known at its end. -/
inductive Judged (view : ChainFacts) (net : Config.Net) (now : Nat) (requested : List BlockId)
    (remaining : UInt64) : List BlockId → Checked (Except Refusal Unit) → Prop
  | empty : Judged view net now requested remaining [] (.ok (.ok ()))
  | unsearched {first rest o} (outgrows : Outgrows (first :: rest)) :
      Judged view net now requested remaining (first :: rest) (.error o)
  | gap {first rest detail} (broken : ¬ Consecutive (first :: rest))
      (inside : ¬ Outgrows (first :: rest)) :
      Judged view net now requested remaining (first :: rest) (.ok (.error (.traitor detail)))
  | misplaced {first rest detail} (stretch : Consecutive (first :: rest))
      (wrong : startFault requested first ≠ none) :
      Judged view net now requested remaining (first :: rest) (.ok (.error (.traitor detail)))
  | early {first rest} (stretch : Consecutive (first :: rest))
      (starts : startFault requested first = none) (genesis : view.head.number = 0) :
      Judged view net now requested remaining (first :: rest) (.ok (.ok ()))
  | unbounded {first rest o} (stretch : Consecutive (first :: rest)) (above : view.head.number ≠ 0)
      (unfit : ¬ view.HorizonFits net now) :
      Judged view net now requested remaining (first :: rest) (.error o)
  | beyond {first rest last detail} (stretch : Consecutive (first :: rest))
      (above : view.head.number ≠ 0) (ends : (first :: rest).getLast? = some last)
      (outside : view.horizon net now < saturatingAdd last.number.toNat remaining.toNat) :
      Judged view net now requested remaining (first :: rest) (.ok (.error (.traitor detail)))
  | within {first rest last} (stretch : Consecutive (first :: rest))
      (starts : startFault requested first = none) (fits : view.HorizonFits net now)
      (ends : (first :: rest).getLast? = some last)
      (inside : saturatingAdd last.number.toNat remaining.toNat ≤ view.horizon net now) :
      Judged view net now requested remaining (first :: rest) (.ok (.ok ()))

/-- The judgement goes one of these ways. -/
theorem judged (view : ChainFacts) (net : Config.Net) (now : Nat) (requested ids : List BlockId)
    (remaining : UInt64) :
    view.Judged net now requested remaining ids
      (view.judge net now requested ids remaining) := by
  cases ids with
  | nil => exact .empty
  | cons first rest =>
    have ends : (first :: rest).getLast? = some (rest.getLast?.getD first) := List.getLast?_cons
    simp only [judge, bind, Except.bind]
    cases search : firstGap first.number.toNat 0 (first :: rest) with
    | error o => exact .unsearched (firstGap_eq_error_iff.1 ⟨o, search⟩)
    | ok gap =>
      have inside : ¬ Outgrows (first :: rest) := fun outgrows => by
        obtain ⟨o, aborts⟩ := firstGap_eq_error_iff.2 outgrows
        cases search.symm.trans aborts
      cases gap with
      | some id =>
        refine .gap (fun whole => ?_) inside
        cases search.symm.trans (whole.firstGap (by rintro _ ⟨⟩; rfl))
      | none =>
        have stretch := (consecutive_of_firstGap search).1
        dsimp only
        split
        next fault wrong =>
          obtain ⟨detail, rfl⟩ := traitor_of_startFault wrong
          exact .misplaced stretch (by rw [wrong]; exact Option.some_ne_none _)
        next starts =>
          split
          next genesis => exact .early stretch starts genesis
          next above =>
            cases computed : view.futureBound net now with
            | error o =>
              refine .unbounded stretch above fun fits => ?_
              cases computed.symm.trans (futureBound_eq_ok_iff.2 ⟨rfl, fits⟩)
            | ok bound =>
              obtain ⟨rfl, fits⟩ := futureBound_eq_ok_iff.1 computed
              dsimp only
              split
              next outside => exact .beyond stretch above ends outside
              next inside => exact .within stretch starts fits ends (Nat.not_lt.1 inside)

/-- **What is accepted.**  The judgement accepts exactly the legal replies, where it can compute the
horizon if it needs it. -/
theorem judge_eq_ok_iff :
    view.judge net now requested ids remaining = .ok (.ok ()) ↔
      view.Legal net now requested ids remaining ∧
        (view.head.number ≠ 0 → ids ≠ [] → view.HorizonFits net now) := by
  have way := view.judged net now requested ids remaining
  constructor
  · intro accepted
    rw [accepted] at way
    cases way with
    | empty => exact ⟨⟨.nil, nofun, nofun⟩, fun _ some => absurd rfl some⟩
    | early stretch starts genesis =>
      refine ⟨⟨stretch, ?_, fun above => absurd genesis above⟩, fun above => absurd genesis above⟩
      rintro _ ⟨⟩
      exact startFault_eq_none_iff.1 starts
    | within stretch starts fits ends inside =>
      refine ⟨⟨stretch, ?_, fun _ last mem => ?_⟩, fun _ _ => fits⟩
      · rintro _ ⟨⟩
        exact startFault_eq_none_iff.1 starts
      · cases ends.symm.trans mem
        exact inside
  · rintro ⟨legal, fits⟩
    generalize view.judge net now requested ids remaining = verdict at way
    cases way with
    | empty | early | within => rfl
    | unsearched outgrows => exact absurd legal.stretch.heightsFit outgrows.not_heightsFit
    | gap broken => exact absurd legal.stretch broken
    | misplaced _ wrong => exact absurd (startFault_eq_none_iff.2 (legal.starts _ rfl)) wrong
    | unbounded _ above unfit => exact absurd (fits above (List.cons_ne_nil _ _)) unfit
    | beyond _ above ends outside =>
      exact absurd (legal.withinHorizon above _ ends) (Nat.not_le.2 outside)

/-- A legal reply is a stretch that starts where it was asked to start. -/
theorem of_judge (accepted : view.judge net now requested ids remaining = .ok (.ok ())) :
    Consecutive ids ∧ ∀ first ∈ ids.head?, startFault requested first = none := by
  obtain ⟨legal, -⟩ := judge_eq_ok_iff.1 accepted
  exact ⟨legal.stretch, fun first mem => startFault_eq_none_iff.2 (legal.starts first mem)⟩

/-- A judgement aborts, accepts, or refuses a breach of the protocol. -/
theorem judge_cases (view : ChainFacts) (net : Config.Net) (now : Nat) (requested ids : List BlockId)
    (remaining : UInt64) :
    (∃ o, view.judge net now requested ids remaining = .error o) ∨
      view.judge net now requested ids remaining = .ok (.ok ()) ∨
        ∃ detail, view.judge net now requested ids remaining = .ok (.error (.traitor detail)) := by
  have way := view.judged net now requested ids remaining
  generalize view.judge net now requested ids remaining = verdict at way
  cases way with
  | unsearched | unbounded => exact .inl ⟨_, rfl⟩
  | empty | early | within => exact .inr (.inl rfl)
  | gap | misplaced | beyond => exact .inr (.inr ⟨_, rfl⟩)

/-- **When the judgement aborts.**  Where the horizon can be computed it aborts exactly for a reply
that goes on behind the largest height. -/
theorem judge_eq_error_iff (fits : view.head.number ≠ 0 → view.HorizonFits net now) :
    (∃ o, view.judge net now requested ids remaining = .error o) ↔ Outgrows ids := by
  have way := view.judged net now requested ids remaining
  constructor
  · rintro ⟨o, aborts⟩
    rw [aborts] at way
    cases way with
    | unsearched outgrows => exact outgrows
    | unbounded _ above unfit => exact absurd (fits above) unfit
  · intro outgrows
    generalize view.judge net now requested ids remaining = verdict at way
    cases way with
    | unsearched | unbounded => exact ⟨_, rfl⟩
    | gap _ inside => exact absurd outgrows inside
    | empty => exact absurd Consecutive.nil.heightsFit outgrows.not_heightsFit
    | misplaced stretch | early stretch | beyond stretch | within stretch =>
      exact absurd stretch.heightsFit outgrows.not_heightsFit

/-! ## Every input -/

/-- **Exactly the legal replies are accepted.**  A reply is accepted if and only if it is empty or
legal, and any other one is refused as a breach of the protocol; the heights that are expected of it
and the horizon are words.  The blocks of an accepted reply differ, and where something was
requested, the reply starts at the height in the hash of an identity that we sent, whatever the
field of that identity says. -/
theorem accepted_iff_legal (heights : HeightsFit ids)
    (fits : view.head.number ≠ 0 → view.HorizonFits net now) :
    (view.judge net now requested ids remaining = .ok (.ok ()) ↔
      ids = [] ∨ view.Legal net now requested ids remaining) ∧
    (¬ (ids = [] ∨ view.Legal net now requested ids remaining) →
      ∃ detail, view.judge net now requested ids remaining = .ok (.error (.traitor detail))) ∧
    (view.judge net now requested ids remaining = .ok (.ok ()) →
      (ids.map (·.hash)).Nodup ∧
        (requested ≠ [] → ∀ first ∈ ids.head?,
          ∃ sent ∈ requested, first.hash = sent.hash ∧ first.number = sent.hash.height)) := by
  have accepted : view.judge net now requested ids remaining = .ok (.ok ()) ↔
      view.Legal net now requested ids remaining :=
    judge_eq_ok_iff.trans (and_iff_left fun above _ => fits above)
  have empty : ids = [] → view.Legal net now requested ids remaining := by
    rintro rfl
    exact accepted.1 (judge_nil ..)
  refine ⟨accepted.trans ⟨.inr, fun h => h.elim empty id⟩, fun illegal => ?_, fun legal => ?_⟩
  · rcases view.judge_cases net now requested ids remaining with aborts | judged | refused
    · exact absurd heights ((judge_eq_error_iff fits).1 aborts).not_heightsFit
    · exact absurd (.inr (accepted.1 judged)) illegal
    · exact refused
  · have legal := accepted.1 legal
    refine ⟨legal.stretch.nodup_hashes, fun some first mem => ?_⟩
    obtain ⟨sent, known, same⟩ := (legal.starts first mem).2 some
    have faithful := legal.stretch.faithful first (List.mem_of_mem_head? mem)
    exact ⟨sent, known, same, by rw [← same, faithful]⟩

/-- The summary names a block under a height that is not its own.  A reply of two blocks that starts
at this block is accepted, and starts at the height in the hash. -/
theorem accepts_behind_forged :
    let view : ChainFacts := ⟨(Block.bare 1).id, (Block.bare 0).id, 0⟩
    let forged : BlockId := ⟨(Block.bare 1).id.hash, 77⟩
    let ids := [(Block.bare 1).id, (Block.bare 2).id]
    HeightsFit ids ∧ (view.head.number ≠ 0 → view.HorizonFits {} 9000) ∧
      view.judge {} 9000 [forged] ids 1 = .ok (.ok ()) ∧ view.Legal {} 9000 [forged] ids 1 ∧
        (Block.bare 1).id.number = forged.hash.height ∧ (Block.bare 1).id.number ≠ forged.number := by
  intro view forged ids
  have heights : HeightsFit ids := by
    rintro _ ⟨⟩
    decide +kernel
  have fits (_ : view.head.number ≠ 0) : view.HorizonFits {} 9000 :=
    horizonFits_default (by decide) (by decide)
  have judged : view.judge {} 9000 [forged] ids 1 = .ok (.ok ()) := by decide +kernel
  obtain ⟨accepted, -, sound⟩ := @accepted_iff_legal view {} 9000 [forged] ids 1 heights fits
  obtain ⟨sent, known, -, height⟩ := (sound judged).2 (List.cons_ne_nil _ _) _ rfl
  rw [List.mem_singleton.1 known] at height
  exact ⟨heights, fits, judged, (accepted.1 judged).resolve_left (List.cons_ne_nil _ _), height,
    by decide +kernel⟩

/-- **A judgement aborts only behind the largest height.**  With the default delays, and while the
solidified height and the clock are below 2^62, it aborts exactly for a reply that goes on behind a
stretch that ends at the largest height; any other reply is accepted, or refused as a breach of the
protocol. -/
theorem aborts_iff_outgrows (solid : view.solid.number.toNat < 2 ^ 62) (clock : now < 2 ^ 62) :
    ((∃ o, view.judge {} now requested ids remaining = .error o) ↔ Outgrows ids) ∧
      (¬ Outgrows ids →
        view.judge {} now requested ids remaining = .ok (.ok ()) ∨
          ∃ detail, view.judge {} now requested ids remaining = .ok (.error (.traitor detail))) := by
  have aborts : (∃ o, view.judge {} now requested ids remaining = .error o) ↔ Outgrows ids :=
    judge_eq_error_iff fun _ => horizonFits_default solid clock
  exact ⟨aborts, fun inside =>
    (view.judge_cases {} now requested ids remaining).resolve_left (mt aborts.1 inside)⟩

/-- A reply goes on behind the largest height with the first block. -/
theorem aborts_behind_largest :
    let view : ChainFacts := ⟨(Block.bare 0).id, (Block.bare 0).id, 0⟩
    let top := BlockId.ofDigest (Block.bare 0).id.hash 0xffffffffffffffff
    view.solid.number.toNat < 2 ^ 62 ∧ 9000 < 2 ^ 62 ∧ Outgrows [top, (Block.bare 0).id] ∧
      ∃ o, view.judge {} 9000 [top] [top, (Block.bare 0).id] 0 = .error o := by
  intro view top
  have outgrows : Outgrows [top, (Block.bare 0).id] :=
    ⟨[top], [(Block.bare 0).id], top, rfl, List.cons_ne_nil _ _,
      ⟨.singleton top, List.forall_mem_singleton.2 (BlockId.faithful_ofDigest ..)⟩, rfl, rfl⟩
  exact ⟨by decide, by decide, outgrows,
    (aborts_iff_outgrows (by decide) (by decide)).1.2 outgrows⟩

/-- With the default delays a reply may abort the judgement. -/
theorem judge_aborts :
    ¬ ∀ (view : ChainFacts) (now : Nat) (requested ids : List BlockId) (remaining : UInt64),
      view.solid.number.toNat < 2 ^ 62 → now < 2 ^ 62 →
        view.judge {} now requested ids remaining = .ok (.ok ()) ∨
          ∃ detail, view.judge {} now requested ids remaining = .ok (.error (.traitor detail)) := by
  intro safe
  let view : ChainFacts := ⟨(Block.bare 0).id, (Block.bare 0).id, 0⟩
  let top := BlockId.ofDigest (Block.bare 0).id.hash 0xffffffffffffffff
  have aborts : view.judge {} 9000 [top] [top, (Block.bare 0).id] 0 = .error .add := by
    decide +kernel
  rcases safe view 9000 [top] [top, (Block.bare 0).id] 0 (by decide) (by decide)
    with accepted | ⟨_, refused⟩
  · cases aborts.symm.trans accepted
  · cases aborts.symm.trans refused

end ChainFacts

end BlockRelay
