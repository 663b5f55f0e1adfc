/-
# Replies to a summary

During catch-up we send a peer a summary of our chain, and it replies with
identities that follow the newest entry that it knows.  A reply is legal when

* its identities have consecutive heights, each repeated in the hash;
* it starts at an entry of the summary, or at height one after an empty summary;
* it does not claim more blocks than can have been produced since our solidified
  block, give or take the tolerated skew of the clocks.

`ChainFacts.judge` decides this, and `Peer.continueCatchUp` adds the identities of a
legal reply to what is still to be fetched from the peer.
-/
import BlockRelay.Config
import BlockRelay.Peer
import BlockRelay.RecentBlocks
import BlockRelay.Refusal

namespace BlockRelay

/-- The facts about our chain that a reply is judged by. -/
structure ChainFacts where
  head : BlockId
  solid : BlockId
  solidTime : UInt64
  deriving DecidableEq, Repr, Inhabited

/-! ## Legal replies -/

/-- The first identity that breaks the run of heights from `first` on; position `i` of the
run comes next.  It aborts where the expected height is no word. -/
def firstGap (first : Nat) : Nat → List BlockId → Checked (Option BlockId)
  | _, [] => .ok none
  | i, id :: rest => do
    let expected ← Checked.add first i
    if id.number.toNat ≠ expected ∨ ¬ id.Faithful then return some id
    else firstGap first (i + 1) rest

/-- What is wrong with a reply to `requested` that starts at `first`. -/
def startFault (requested : List BlockId) (first : BlockId) : Option Refusal :=
  if requested.isEmpty then
    if first.number = 1 then none
    else some (.traitor "reply to empty summary must start at 1")
  else if first.isIn requested then none
  else some (.traitor ("reply starts at " ++ first.text ++ " which we never sent"))

/-- A reply to a summary that is not empty starts at one of its entries. -/
theorem isIn_of_startFault {requested : List BlockId} {first : BlockId} (some : requested ≠ [])
    (starts : startFault requested first = none) : first.isIn requested = true := by
  unfold startFault at starts
  rw [if_neg (by rwa [List.isEmpty_iff])] at starts
  split at starts
  next named => exact named
  next => cases starts

namespace ChainFacts

/-- The greatest height that can exist by now. -/
def futureBound (view : ChainFacts) (net : Config.Net) (now : Nat) : Checked Nat := do
  let span ← Checked.add net.clockMaxDelay (now - view.solidTime.toNat)
  Checked.add (span / max net.blockInterval 1) view.solid.number.toNat

/-- Judge a reply to the summary `requested`, by the wall clock `now`. -/
def judge (view : ChainFacts) (net : Config.Net) (now : Nat) (requested ids : List BlockId)
    (remaining : UInt64) : Checked (Except Refusal Unit) :=
  match ids with
  | [] => .ok (.ok ())
  | first :: rest => do
    match ← firstGap first.number.toNat 0 (first :: rest) with
    | some id => return .error (.traitor ("block ids not contiguous at " ++ id.text))
    | none =>
      match startFault requested first with
      | some fault => return .error fault
      | none =>
        if view.head.number = 0 then return .ok ()
        else
          let bound ← view.futureBound net now
          let last := (rest.getLast?.getD first).number.toNat
          if bound < saturatingAdd last remaining.toNat then
            return .error (.traitor ("claims " ++ toString remaining.toNat ++
              " blocks beyond " ++ toString last ++ " but at most " ++ toString bound ++
              " can exist"))
          else return .ok ()

/-- An empty reply is legal. -/
@[simp] theorem judge_nil (view : ChainFacts) (net : Config.Net) (now : Nat)
    (requested : List BlockId) (remaining : UInt64) :
    view.judge net now requested [] remaining = .ok (.ok ()) := rfl

end ChainFacts

/-! ## Using a legal reply -/

/-- Drop the blocks in front that were accepted recently.  The last of them, or else
`bothHave`, is a block that both sides have. -/
def skipRecent (recent : RecentBlocks) (bothHave : BlockId) : List BlockId → BlockId × List BlockId
  | [] => (bothHave, [])
  | id :: rest =>
    if recent.contains id then skipRecent recent id rest else (bothHave, id :: rest)

/-- Drop the blocks in front that are stored; each block comes with the answer whether it
is.  The last of them, or else `bothHave`, is a block that both sides have. -/
def skipStored (bothHave : BlockId) : List (BlockId × Bool) → BlockId × List (BlockId × Bool)
  | (id, true) :: rest => skipStored id rest
  | rest => (bothHave, rest)

/-- Skipping recent blocks leaves the end of the list. -/
theorem skipRecent_suffix (recent : RecentBlocks) (bothHave : BlockId) (ids : List BlockId) :
    (skipRecent recent bothHave ids).2 <:+ ids := by
  induction ids generalizing bothHave with
  | nil => exact List.suffix_refl _
  | cons id rest ih =>
    unfold skipRecent
    split
    · exact (ih id).trans (List.suffix_cons ..)
    · exact List.suffix_refl _

/-- Skipping stored blocks leaves the end of the list. -/
theorem skipStored_suffix (bothHave : BlockId) (ids : List (BlockId × Bool)) :
    (skipStored bothHave ids).2 <:+ ids := by
  fun_induction skipStored bothHave ids with
  | case1 _ _ _ ih => exact ih.trans (List.suffix_cons ..)
  | case2 => exact List.suffix_refl _

namespace Peer

/-- Keep the blocks to fetch up to the block where a reply continues. -/
def cutBehind (p : Peer) (first : BlockId) (stored : Bool) : Peer :=
  let kept := (p.toFetch.reverse.dropWhile fun id => !id.same first).reverse
  { p with
    toFetch := kept
    bothHave := if kept.isEmpty && stored then first else p.bothHave }

/-- Join the identities of a reply to what is still to be fetched.  A reply to a peer with
nothing to fetch starts at blocks that we store, which are skipped unless another peer
(`elsewhere`) is about to deliver them; any other reply starts at a block to fetch. -/
def joinReply (p : Peer) (ids : List (BlockId × Bool)) (elsewhere : Bool) : Peer :=
  match p.toFetch, ids with
  | [], ids =>
    let (bothHave, ids) := if elsewhere then (p.bothHave, ids) else skipStored p.bothHave ids
    { p with bothHave := bothHave, toFetch := ids.map (·.1) }
  | _ :: _, [] => p
  | _ :: _, (first, stored) :: rest =>
    let p := p.cutBehind first stored
    { p with toFetch := p.toFetch ++ rest.map (·.1) }

/-- A reply to a peer with nothing to fetch becomes its queue, less the stored blocks in front. -/
theorem toFetch_joinReply_of_nil {p : Peer} (nothing : p.toFetch = [])
    (ids : List (BlockId × Bool)) (elsewhere : Bool) :
    (p.joinReply ids elsewhere).toFetch =
      (if elsewhere then ids else (skipStored p.bothHave ids).2).map (·.1) := by
  unfold joinReply
  cases elsewhere <;> simp [nothing]

/-- A reply to a peer with blocks to fetch is put behind those that are kept. -/
theorem toFetch_joinReply_cons {p : Peer} (queued : p.toFetch ≠ []) (first : BlockId)
    (stored : Bool) (rest : List (BlockId × Bool)) (elsewhere : Bool) :
    (p.joinReply ((first, stored) :: rest) elsewhere).toFetch =
      (p.cutBehind first stored).toFetch ++ rest.map (·.1) := by
  unfold joinReply
  split
  next nothing => exact absurd nothing queued
  next eq => cases eq
  next eq => cases eq; rfl

/-- Go on with catch-up after a legal reply that leaves `remaining` more blocks. -/
def continueCatchUp (p : Peer) (ids : List (BlockId × Bool)) (remaining : UInt64)
    (elsewhere : Bool) (recent : RecentBlocks) : Peer :=
  let p := p.joinReply ids elsewhere
  let (bothHave, toFetch) := skipRecent recent p.bothHave p.toFetch
  let finished := remaining = 0 && toFetch.isEmpty
  { p with
    bothHave := bothHave
    toFetch := toFetch
    unfetched := remaining
    needFromPeer := p.needFromPeer && !finished
    phase := if finished then .caughtUp else .fetching }

/-- Joining a reply changes what is to be fetched and what both sides have. -/
theorem joinReply_eq (p : Peer) (ids : List (BlockId × Bool)) (elsewhere : Bool) :
    ∃ toFetch bothHave,
      p.joinReply ids elsewhere = { p with toFetch := toFetch, bothHave := bothHave } := by
  unfold joinReply
  split <;> exact ⟨_, _, rfl⟩

/-- Going on with a catch-up changes how far it has come. -/
theorem continueCatchUp_eq (p : Peer) (ids : List (BlockId × Bool)) (remaining : UInt64)
    (elsewhere : Bool) (recent : RecentBlocks) :
    ∃ toFetch bothHave needFromPeer phase,
      p.continueCatchUp ids remaining elsewhere recent =
        { p with
          toFetch := toFetch
          bothHave := bothHave
          unfetched := remaining
          needFromPeer := needFromPeer
          phase := phase } := by
  obtain ⟨toFetch, bothHave, eq⟩ := p.joinReply_eq ids elsewhere
  unfold continueCatchUp
  rw [eq]
  exact ⟨_, _, _, _, rfl⟩

/-- Going on with a catch-up leaves the outstanding summary alone. -/
theorem summary_continueCatchUp (p : Peer) (ids : List (BlockId × Bool)) (remaining : UInt64)
    (elsewhere : Bool) (recent : RecentBlocks) :
    (p.continueCatchUp ids remaining elsewhere recent).summary = p.summary := by
  obtain ⟨_, _, _, _, eq⟩ := p.continueCatchUp_eq ids remaining elsewhere recent
  rw [eq]

/-- Going on with a catch-up reserves nothing. -/
@[simp] theorem reserved_continueCatchUp (p : Peer) (ids : List (BlockId × Bool))
    (remaining : UInt64) (elsewhere : Bool) (recent : RecentBlocks) :
    (p.continueCatchUp ids remaining elsewhere recent).reserved = p.reserved := by
  obtain ⟨_, _, _, _, eq⟩ := p.continueCatchUp_eq ids remaining elsewhere recent
  rw [eq]

/-- Going on with a catch-up leaves alone what the peer announced. -/
@[simp] theorem advertised_continueCatchUp (p : Peer) (ids : List (BlockId × Bool))
    (remaining : UInt64) (elsewhere : Bool) (recent : RecentBlocks) :
    (p.continueCatchUp ids remaining elsewhere recent).advertised = p.advertised := by
  obtain ⟨_, _, _, _, eq⟩ := p.continueCatchUp_eq ids remaining elsewhere recent
  rw [eq]

/-- What is to be fetched after a reply was joined was to be fetched before, or is named in the
reply. -/
theorem mem_toFetch_joinReply {p : Peer} {ids : List (BlockId × Bool)} {elsewhere : Bool}
    {b : BlockId} (h : b ∈ (p.joinReply ids elsewhere).toFetch) :
    b ∈ p.toFetch ∨ b ∈ ids.map (·.1) := by
  unfold joinReply at h
  split at h
  · cases elsewhere with
    | true => exact .inr h
    | false => exact .inr (((skipStored_suffix p.bothHave _).map _).subset h)
  · exact .inl h
  next first stored rest _ =>
    rcases List.mem_append.1 h with old | new
    · have kept : b ∈ (p.toFetch.reverse.dropWhile fun id => !id.same first).reverse := old
      exact .inl (List.mem_reverse.1 ((List.dropWhile_sublist _).subset (List.mem_reverse.1 kept)))
    · exact .inr (List.mem_cons_of_mem _ new)

/-- End catch-up: the peer has nothing that we lack. -/
def endCatchUp (p : Peer) : Peer := { p with needFromPeer := false, phase := .caughtUp }

/-- Whether a reply without further blocks brings nothing new: it lists nothing, or one block
that is stored, and nothing is still to be fetched. -/
def nothingNew (p : Peer) (ids : List (BlockId × Bool)) : Bool :=
  let known := match ids with
    | [] => true
    | [(_, stored)] => stored
    | _ => false
  known && p.toFetch.isEmpty && p.unfetched = 0

/-- A reply brings nothing new only if nothing is left to fetch. -/
theorem fetched_of_nothingNew {p : Peer} {ids : List (BlockId × Bool)}
    (nothing : p.nothingNew ids = true) : p.toFetch = [] ∧ p.unfetched = 0 := by
  simp only [nothingNew, Bool.and_eq_true, List.isEmpty_iff, decide_eq_true_eq] at nothing
  exact ⟨nothing.1.2, nothing.2⟩

end Peer

end BlockRelay
