/-
# Peers

What is remembered about one connected peer: how far a catch-up from it has come,
which announcements went either way, and what it has been asked for.

Three records hold requests that are not answered yet.  `Peer.reserved` holds the
announced objects that the peer was asked for, `Peer.blocksAsked` the blocks that
it was asked for during catch-up, and `Peer.summary` the summary of our chain that
it was sent.  A peer is busy while one of the last two is not empty.
-/
import BlockRelay.Message

namespace BlockRelay

/-- The identity of a peer. -/
structure PeerId where
  value : UInt64
  deriving DecidableEq, Repr, Inhabited

namespace PeerId

/-- Peers are ordered by number. -/
instance : Ord PeerId where
  compare := compareOn value

instance : Std.TransOrd PeerId := inferInstanceAs (Std.TransCmp (compareOn value))

instance : Std.LawfulEqOrd PeerId where
  compare_self := Std.ReflCmp.compare_self
  eq_of_compare {a b} h := by
    have h : compare a.value b.value = .eq := h
    cases a; cases b
    exact congrArg PeerId.mk (Std.LawfulEqCmp.eq_of_compare h)

/-- The name of a peer. -/
def text (p : PeerId) : String := "peer#" ++ toString p.value.toNat

end PeerId

/-- How far catch-up with a peer has come. -/
inductive Phase where
  | idle
  /-- A summary was sent and the reply is outstanding. -/
  | summarySent
  /-- A reply was accepted and its blocks are being fetched. -/
  | fetching
  | caughtUp
  deriving DecidableEq, Repr, Inhabited

/-- The name of a phase. -/
def Phase.label : Phase → String
  | .idle => "NotSyncing"
  | .summarySent => "SyncRequested"
  | .fetching => "Syncing"
  | .caughtUp => "CaughtUp"

/-- A block that was asked for, and when. -/
structure BlockRequest where
  id : BlockId
  sentAt : Nat
  deriving DecidableEq, Repr, Inhabited

/-- The summary that was sent last, and when. -/
structure SummaryRequest where
  ids : List BlockId
  sentAt : Nat
  deriving DecidableEq, Repr, Inhabited

/-- What is remembered about a connected peer.  Times are in milliseconds. -/
structure Peer where
  connectedAt : Nat
  phase : Phase := .idle
  /-- The newest block that both sides are known to have. -/
  bothHave : BlockId
  /-- The blocks still to be fetched during catch-up, lowest first. -/
  toFetch : List BlockId := []
  /-- The blocks that the peer was asked for during catch-up, by hash. -/
  blocksAsked : Std.TreeMap Hash BlockRequest := ∅
  /-- The summary whose reply is outstanding. -/
  summary : Option SummaryRequest := none
  /-- The blocks that are being applied, by hash. -/
  beingApplied : Std.TreeMap Hash BlockId := ∅
  /-- How many blocks the peer claims to have beyond its last reply. -/
  unfetched : UInt64 := 0
  /-- The announced objects that the peer was asked for, with the times. -/
  reserved : Std.TreeMap Item Nat := ∅
  /-- The hashes that the peer announced to us, with the times. -/
  advertised : Std.TreeMap Hash Nat := ∅
  /-- The hashes that we announced to the peer, with the times. -/
  announced : Std.TreeMap Hash Nat := ∅
  /-- Whether we still fetch the chain of the peer. -/
  needFromPeer : Bool := false
  /-- Whether the peer still fetches our chain. -/
  needFromUs : Bool := false

namespace Peer

/-- A peer that has just connected, with the genesis block in common. -/
def connected (genesis : BlockId) (now : Nat) : Peer where
  connectedAt := now
  bothHave := genesis

/-- Whether a summary or a block of catch-up is outstanding. -/
def isBusy (p : Peer) : Bool := p.summary.isSome || !p.blocksAsked.isEmpty

/-- Whether the peer has announced more than `cap` objects that are still remembered. -/
def inventoryFull (p : Peer) (cap : Nat) : Bool := cap < p.advertised.size

/-- How many blocks the peer still has for us. -/
def unsynced (p : Peer) : Checked Nat := Checked.add p.unfetched.toNat p.toFetch.length

/-- Ask for a block of catch-up. -/
def requestBlock (p : Peer) (id : BlockId) (now : Nat) : Peer :=
  let known := (p.blocksAsked[id.hash]?).elim id (·.id)
  { p with blocksAsked := p.blocksAsked.insert id.hash ⟨known, now⟩ }

/-- Ask for several blocks of catch-up. -/
def requestBlocks (p : Peer) (ids : List BlockId) (now : Nat) : Peer :=
  ids.foldl (fun p id => p.requestBlock id now) p

/-- Wait for the reply to a summary. -/
def await (p : Peer) (ids : List BlockId) (now : Nat) : Peer :=
  { p with
    summary := some ⟨ids, now⟩
    phase := if p.phase = .fetching then .fetching else .summarySent }

/-- Begin catch-up anew, with nothing but the genesis block in common. -/
def restart (p : Peer) (genesis : BlockId) : Peer :=
  { p with
    needFromPeer := true
    toFetch := []
    unfetched := 0
    bothHave := genesis }

/-- Note that a block was delivered: nobody waits for it any more, on either way. -/
def takeDelivery (p : Peer) (id : BlockId) : Peer :=
  { p with
    reserved := p.reserved.erase id.item
    blocksAsked := p.blocksAsked.erase id.hash }

/-- Reserve an announced object on the peer. -/
def reserve (p : Peer) (item : Item) (now : Nat) : Peer :=
  { p with reserved := p.reserved.insert item now }

/-- Note that the peer announced a hash. -/
def advertise (p : Peer) (hash : Hash) (now : Nat) : Peer :=
  { p with advertised := p.advertised.insert hash now }

/-- Note that a hash was announced to the peer. -/
def announce (p : Peer) (hash : Hash) (now : Nat) : Peer :=
  { p with announced := p.announced.insert hash now }

/-- Note that several items were announced to the peer. -/
def announceAll (p : Peer) (items : List Item) (now : Nat) : Peer :=
  items.foldl (fun p i => p.announce i.hash now) p

/-- Note that a block is being applied. -/
def process (p : Peer) (id : BlockId) : Peer :=
  { p with beingApplied := p.beingApplied.insertIfNew id.hash id }

/-- Forget announcements older than `retention`, and return how many there were. -/
def forgetOutdated (p : Peer) (now retention : Nat) : Nat × Peer :=
  let keep (_ : Hash) (seenAt : Nat) : Bool := now - seenAt ≤ retention
  let advertised := p.advertised.filter keep
  let announced := p.announced.filter keep
  ((p.advertised.size + p.announced.size) - (advertised.size + announced.size),
    { p with advertised := advertised, announced := announced })

/-- The reason for leaving a peer that has not answered in time: a reserved object counts
first, then a block of catch-up, then a summary. -/
def silenceReason (p : Peer) (now advTimeout syncTimeout : Nat) : Option Reason :=
  if p.reserved.values.any fun sentAt => advTimeout < now - sentAt then some .fetchFail
  else if p.blocksAsked.values.any fun r => syncTimeout < now - r.sentAt then some .syncFail
  else if p.summary.any fun s => syncTimeout < now - s.sentAt then some .timeOut
  else none

/-- A one-line description of a peer. -/
def describe (p : Peer) (id : PeerId) : String :=
  let field (name value : String) : String := name ++ ": " ++ value
  "PeerState \x7b " ++ String.intercalate ", "
    [ field "id" ("PeerId(" ++ toString id.value.toNat ++ ")"),
      field "phase" p.phase.label,
      field "head_block_both_have" p.bothHave.label,
      field "to_fetch" (toString p.toFetch.length),
      field "sync_requested" (toString p.blocksAsked.size),
      field "adv_requested" (toString p.reserved.size),
      field "need_sync_from_peer" (toString p.needFromPeer),
      field "need_sync_from_us" (toString p.needFromUs) ] ++ " \x7d"

/-- A peer is busy exactly when a summary or a block of catch-up is outstanding. -/
theorem isBusy_iff {p : Peer} :
    p.isBusy = true ↔ p.summary.isSome = true ∨ p.blocksAsked.isEmpty = false := by
  simp [isBusy]

/-- A peer that has just connected is not busy. -/
theorem isBusy_connected (genesis : BlockId) (now : Nat) :
    (connected genesis now).isBusy = false := rfl

/-- Asking for blocks changes nothing but the record of what was asked for. -/
theorem requestBlocks_eq (p : Peer) (ids : List BlockId) (now : Nat) :
    p.requestBlocks ids now = { p with blocksAsked := (p.requestBlocks ids now).blocksAsked } := by
  induction ids generalizing p with
  | nil => rfl
  | cons id rest ih =>
    rw [requestBlocks, List.foldl_cons]
    exact ih (p.requestBlock id now)

/-- Blocks that are asked for are added to those that the peer was asked for before. -/
theorem contains_blocksAsked_requestBlocks (p : Peer) (ids : List BlockId) (now : Nat)
    (hash : Hash) : (p.requestBlocks ids now).blocksAsked.contains hash = true ↔
      hash ∈ ids.map (·.hash) ∨ p.blocksAsked.contains hash = true := by
  unfold requestBlocks
  induction ids generalizing p with
  | nil => simp
  | cons id rest ih =>
    rw [List.foldl_cons, ih, requestBlock, Std.TreeMap.contains_insert, Bool.or_eq_true,
      beq_iff_eq, Std.LawfulEqCmp.compare_eq_iff_eq, List.map_cons, List.mem_cons,
      eq_comm (a := hash)]
    exact or_left_comm.trans or_assoc.symm

/-- Announcing items changes nothing but the record of what was announced. -/
theorem announceAll_eq (p : Peer) (items : List Item) (now : Nat) :
    p.announceAll items now = { p with announced := (p.announceAll items now).announced } := by
  induction items generalizing p with
  | nil => rfl
  | cons i rest ih =>
    rw [announceAll, List.foldl_cons]
    exact ih (p.announce i.hash now)

/-- Asking for blocks of catch-up reserves nothing. -/
@[simp] theorem reserved_requestBlocks (p : Peer) (ids : List BlockId) (now : Nat) :
    (p.requestBlocks ids now).reserved = p.reserved := by
  rw [requestBlocks_eq]

/-- Asking for blocks of catch-up leaves alone what the peer announced. -/
@[simp] theorem advertised_requestBlocks (p : Peer) (ids : List BlockId) (now : Nat) :
    (p.requestBlocks ids now).advertised = p.advertised := by
  rw [requestBlocks_eq]

/-- Blocks that are asked for are still to be fetched. -/
@[simp] theorem toFetch_requestBlocks (p : Peer) (ids : List BlockId) (now : Nat) :
    (p.requestBlocks ids now).toFetch = p.toFetch := by
  rw [requestBlocks_eq]

/-- Announcing items reserves nothing. -/
@[simp] theorem reserved_announceAll (p : Peer) (items : List Item) (now : Nat) :
    (p.announceAll items now).reserved = p.reserved := by
  rw [announceAll_eq]

/-- Announcing items to a peer leaves alone what it announced. -/
@[simp] theorem advertised_announceAll (p : Peer) (items : List Item) (now : Nat) :
    (p.announceAll items now).advertised = p.advertised := by
  rw [announceAll_eq]

/-- Announcing items leaves alone what is to be fetched. -/
@[simp] theorem toFetch_announceAll (p : Peer) (items : List Item) (now : Nat) :
    (p.announceAll items now).toFetch = p.toFetch := by
  rw [announceAll_eq]

end Peer

end BlockRelay
