/-
# The state of the engine

An engine relays blocks and transactions between a ledger and the peers that are
registered with it.  Its state is one value.  Every operation maps a state to the
next one, and appends to the journal what can be seen from outside: messages that
are queued for peers, sessions that begin and end, and calls that change the ledger.

Objects that peers announce pass through three records.  They are candidates until
somebody is asked for them, then reserved on one peer, and once accepted they wait
in the spread set to be announced in turn.  Blocks of a catch-up are requested,
arrive, and wait until they are next in line.
-/
import BlockRelay.Config
import BlockRelay.AgingCache
import BlockRelay.CandidateQueue
import BlockRelay.FloodWindow
import BlockRelay.Ledger
import BlockRelay.Metrics
import BlockRelay.Peer
import BlockRelay.RecentBlocks

namespace BlockRelay

/-- What can be seen of an engine from outside. -/
inductive Event where
  /-- A session with a peer begins, with a new and empty queue of messages for it. -/
  | opened (peer : PeerId)
  /-- The session with a peer ends: no further message is queued. -/
  | closed (peer : PeerId)
  /-- A message is queued for a peer. -/
  | sent (peer : PeerId) (message : Message)
  /-- The ledger is asked to apply a block, received during catch-up or not. -/
  | appliedBlock (id : BlockId) (sync : Bool)
  /-- The ledger is asked to apply a transaction. -/
  | appliedTransaction (hash : Hash)
  /-- The ledger is told how many blocks are still to be fetched. -/
  | notified (remaining : Nat)
  deriving DecidableEq, Repr

/-- The time: milliseconds since the start, and milliseconds of the wall clock. -/
structure Clock where
  now : Nat := 0
  wall : Nat := 0
  deriving DecidableEq, Repr, Inhabited

/-- Let time pass; both readings advance together. -/
def Clock.advance (c : Clock) (ms : Nat) : Clock := ⟨c.now + ms, c.wall + ms⟩

/-- The wall clock as it is read, a word. -/
def Clock.wallTime (c : Clock) : Nat := c.wall % wordBound

/-- A fetched block that waits to be applied, and the peer that delivered it. -/
structure WaitingBlock where
  block : Block
  origin : PeerId
  deriving DecidableEq, Repr, Inhabited

/-- The state of an engine over a ledger. -/
structure Engine (σ : Type) where
  config : Config
  ledger : σ
  /-- The first block of the chain, where every catch-up starts. -/
  genesis : BlockId
  /-- The registered peers. -/
  peers : Std.TreeMap PeerId Peer := ∅
  /-- Accepted objects that are still to be announced. -/
  spread : Std.TreeMap Hash ItemKind := ∅
  /-- Announced objects that nobody has been asked for. -/
  candidates : CandidateQueue := {}
  /-- Refused objects, with the times of their refusal. -/
  quarantine : Std.TreeMap Hash Nat := ∅
  recent : RecentBlocks
  /-- Blocks of a catch-up that some peer was asked for and that are not settled. -/
  requested : AgingCache Hash Unit
  /-- The number of blocks still to be fetched, when it was last computed. -/
  unsynced : Nat := 0
  blockCache : AgingCache Hash Block
  transactionCache : AgingCache Hash Transaction
  flood : FloodWindow
  /-- Blocks of a catch-up that have just arrived, oldest first. -/
  arrived : List WaitingBlock := []
  /-- Blocks of a catch-up that wait to be applied, by hash and so by height. -/
  waiting : Std.TreeMap Hash WaitingBlock := ∅
  /-- Whether blocks of a catch-up may be asked for at the next occasion. -/
  issueDue : Bool := false
  /-- Whether waiting blocks may be applied at the next occasion. -/
  applyDue : Bool := false
  /-- Whether asking for blocks is suspended until fewer are waiting. -/
  suspended : Bool := false
  metrics : Metrics := {}
  clock : Clock := {}
  /-- Everything that was visible so far, oldest first. -/
  journal : List Event := []

namespace Engine

variable {σ : Type}

/-- An engine without peers.  It aborts when the size of the flood window is no word. -/
def start [Ledger σ] (config : Config) (ledger : σ) (clock : Clock) : Checked (Engine σ) := do
  let slots ← config.net.floodSlots
  let c := config.cache
  return {
    config := config
    ledger := ledger
    genesis := (Ledger.genesis ledger).id
    recent := .empty config.sync.recentCap
    requested := .empty c.requestSize (c.requestSeconds * 1000)
    blockCache := .empty c.blockSize (c.blockSeconds * 1000)
    transactionCache := .empty c.transactionSize (c.transactionSeconds * 1000)
    flood := .empty slots
    clock := clock }

/-- An engine starts without peers. -/
theorem peers_of_start [Ledger σ] {config : Config} {ledger : σ} {clock : Clock} {e : Engine σ}
    (started : start config ledger clock = .ok e) (id : PeerId) : e.peers[id]? = none := by
  obtain ⟨_, -, eq⟩ := Checked.bind_eq_ok_iff.1 started
  cases eq
  exact Std.TreeMap.getElem?_emptyc

/-- The current time in milliseconds. -/
def now (e : Engine σ) : Nat := e.clock.now

/-! ## The journal -/

/-- Append to the journal. -/
def record (e : Engine σ) (ev : Event) : Engine σ := { e with journal := e.journal ++ [ev] }

/-- Queue a message for a peer. -/
def send (e : Engine σ) (id : PeerId) (m : Message) : Engine σ := e.record (.sent id m)

/-- Queueing messages only makes the journal longer. -/
theorem foldl_send {α : Type} (receiver : α → PeerId) (what : α → Message) (list : List α)
    (e : Engine σ) :
    list.foldl (fun e a => e.send (receiver a) (what a)) e =
      { e with journal := e.journal ++ list.map fun a => .sent (receiver a) (what a) } := by
  induction list generalizing e with
  | nil => simp
  | cons a rest ih =>
    rw [List.foldl_cons, ih]
    simp [send, record]

/-- What the journal holds, and the engine with an empty journal. -/
def takeJournal (e : Engine σ) : List Event × Engine σ := (e.journal, { e with journal := [] })

/-! ## Peers -/

/-- Whether a peer is registered. -/
def isRegistered (e : Engine σ) (id : PeerId) : Bool := e.peers.contains id

/-- Change what is remembered about a peer, if it is registered. -/
def modifyPeer (e : Engine σ) (id : PeerId) (f : Peer → Peer) : Engine σ :=
  { e with peers := e.peers.modify id f }

/-- Change what is remembered about every peer. -/
def mapPeers (e : Engine σ) (f : PeerId → Peer → Peer) : Engine σ :=
  { e with peers := e.peers.map f }

/-- Whether some registered peer satisfies `p`. -/
def anyPeer (e : Engine σ) (p : Peer → Bool) : Bool := e.peers.values.any p

/-- The largest number of blocks that a registered peer still has for us. -/
def maxUnsynced (e : Engine σ) : Checked Nat :=
  e.peers.values.foldlM (fun most p => do return max most (← p.unsynced)) 0

/-- Changing one record changes no other record. -/
@[simp] theorem peers_modifyPeer (e : Engine σ) (id : PeerId) (f : Peer → Peer) (other : PeerId) :
    (e.modifyPeer id f).peers[other]? =
      if other = id then (e.peers[other]?).map f else e.peers[other]? := by
  simp only [modifyPeer, Std.TreeMap.getElem?_modify, Std.LawfulEqCmp.compare_eq_iff_eq]
  by_cases h : other = id
  · simp [h]
  · simp [h, Ne.symm h]

/-- Changing every record changes the record of a peer by its own change. -/
@[simp] theorem peers_mapPeers (e : Engine σ) (f : PeerId → Peer → Peer) (id : PeerId) :
    (e.mapPeers f).peers[id]? = (e.peers[id]?).map (f id) :=
  Std.TreeMap.getElem?_map

/-- What `f` shows of the record of a registered peer. -/
def view {α : Type} (e : Engine σ) (f : Peer → α) (id : PeerId) : Option α :=
  (e.peers[id]?).map f

section View

variable {α : Type} {f : Peer → α} {e e' : Engine σ} {id : PeerId}

/-- A record shows nothing but itself. -/
theorem view_congr (h : e'.peers[id]? = e.peers[id]?) : e'.view f id = e.view f id :=
  congrArg (Option.map f) h

/-- Changing a record in a way that does not show. -/
theorem view_modify {g : Peer → Peer} (peers : e'.peers = e.peers.modify id g)
    (keeps : ∀ p, f (g p) = f p) (other : PeerId) : e'.view f other = e.view f other := by
  have changed := peers_modifyPeer e id g other
  simp only [modifyPeer, ← peers] at changed
  rw [view, changed, view]
  split
  · rw [Option.map_map]
    exact congrArg (Option.map · _) (funext keeps)
  · rfl

/-- Changing every record in a way that does not show. -/
theorem view_map {g : PeerId → Peer → Peer} (peers : e'.peers = e.peers.map g)
    (keeps : ∀ id p, f (g id p) = f p) (id : PeerId) : e'.view f id = e.view f id := by
  rw [view, peers, Std.TreeMap.getElem?_map, Option.map_map, view]
  exact congrArg (Option.map · _) (funext (keeps id))

/-- Replacing a record by one that shows the same. -/
theorem view_insert {p q : Peer} (hp : e.peers[id]? = some p)
    (peers : e'.peers = e.peers.insert id q) (keeps : f q = f p) (other : PeerId) :
    e'.view f other = e.view f other := by
  simp only [view, peers, Std.TreeMap.getElem?_insert, Std.LawfulEqCmp.compare_eq_iff_eq]
  split
  next eq =>
    subst eq
    rw [hp, Option.map_some, Option.map_some, keeps]
  next => rfl

/-- Once a record is replaced, it shows what the new one shows. -/
theorem view_of_insert {q : Peer} (peers : e'.peers = e.peers.insert id q) (other : PeerId) :
    e'.view f other = if other = id then some (f q) else e.view f other := by
  simp only [view, peers, Std.TreeMap.getElem?_insert, Std.LawfulEqCmp.compare_eq_iff_eq]
  by_cases h : other = id
  · simp [h]
  · simp [h, Ne.symm h]

/-- Once a record is changed, it shows what the changed one shows. -/
theorem view_of_modify {p : Peer} {g : Peer → Peer} (hp : e.peers[id]? = some p)
    (peers : e'.peers = e.peers.modify id g) (other : PeerId) :
    e'.view f other = if other = id then some (f (g p)) else e.view f other := by
  have changed := peers_modifyPeer e id g other
  simp only [modifyPeer, ← peers] at changed
  rw [view, changed, view]
  by_cases h : other = id
  · simp [h, hp]
  · simp [h]

end View

/-- A peer is registered exactly when there is a record of it. -/
theorem isRegistered_iff {e : Engine σ} {id : PeerId} :
    e.isRegistered id = true ↔ ∃ p, e.peers[id]? = some p := by
  rw [isRegistered, contains_iff_exists]

/-- Changing a record registers nobody and ends no session. -/
@[simp] theorem isRegistered_modifyPeer (e : Engine σ) (id : PeerId) (f : Peer → Peer)
    (other : PeerId) : (e.modifyPeer id f).isRegistered other = e.isRegistered other := by
  simp only [isRegistered, Std.TreeMap.contains_eq_isSome_getElem?, peers_modifyPeer]
  split <;> simp

/-- The records are the values of the registered peers. -/
theorem mem_values_peers {e : Engine σ} {p : Peer} :
    p ∈ e.peers.values ↔ ∃ id : PeerId, e.peers[id]? = some p := by
  have values_eq : e.peers.values = e.peers.toList.map (·.2) := by
    show e.peers.foldr (fun _ p rest => p :: rest) [] = _
    rw [Std.TreeMap.foldr_eq_foldr_toList, List.map_eq_foldr]
  rw [values_eq]
  simp

/-- Each registered peer has one record. -/
theorem nodup_peers (e : Engine σ) : (e.peers.toList.map (·.1)).Nodup := by
  rw [Std.TreeMap.map_fst_toList_eq_keys]
  exact Std.TreeMap.nodup_keys

/-- Some peer satisfies a predicate exactly when a record of a registered peer does. -/
theorem anyPeer_iff {e : Engine σ} {p : Peer → Bool} :
    e.anyPeer p = true ↔ ∃ (id : PeerId) (q : Peer), e.peers[id]? = some q ∧ p q = true := by
  simp only [anyPeer, List.any_eq_true, mem_values_peers]
  constructor
  · rintro ⟨q, ⟨id, h⟩, hp⟩
    exact ⟨id, q, h, hp⟩
  · rintro ⟨id, q, h, hp⟩
    exact ⟨q, ⟨id, h⟩, hp⟩

/-! ## Objects -/

/-- Whether a hash is quarantined. -/
def isQuarantined (e : Engine σ) (hash : Hash) : Bool := e.quarantine.contains hash

/-- Quarantine an object if the refusal is a fault of the object. -/
def quarantineFor (e : Engine σ) (error : Refusal) (hash : Hash) : Engine σ :=
  if error.blamesObject then { e with quarantine := e.quarantine.insert hash e.now } else e

/-- Quarantining an object changes nothing but the quarantine. -/
theorem quarantineFor_eq (e : Engine σ) (error : Refusal) (hash : Hash) :
    ∃ quarantine, e.quarantineFor error hash = { e with quarantine := quarantine } := by
  unfold quarantineFor
  split <;> exact ⟨_, rfl⟩

/-- Whether the content that an item names is in the cache of its kind. -/
def isCached (e : Engine σ) (i : Item) : Bool :=
  match i.kind with
  | .block => e.blockCache.contains i.hash e.now
  | .transaction => e.transactionCache.contains i.hash e.now

/-- Queue an accepted block for announcement. -/
def broadcastBlock (e : Engine σ) (b : Block) : Engine σ :=
  { e with
    recent := e.recent.push b.id
    blockCache := e.blockCache.insert b.id.hash b e.now
    spread := e.spread.insert b.id.hash .block }

/-- Queue an accepted transaction for announcement. -/
def broadcastTransaction (e : Engine σ) (t : Transaction) : Engine σ :=
  { e with
    transactionCache := e.transactionCache.insert t.hash t e.now
    spread := e.spread.insert t.hash .transaction }

/-- Queue what a message carries for announcement; only blocks and single transactions can
be announced. -/
def broadcast (e : Engine σ) : Message → Engine σ
  | .block b => e.broadcastBlock b
  | .transaction t => e.broadcastTransaction t
  | _ => e

/-! ## The ledger -/

/-- Apply a block to the ledger. -/
def applyBlock [Ledger σ] (e : Engine σ) (b : Block) (sync : Bool) :
    Checked (Except Refusal (List Hash) × Engine σ) := do
  let (r, ledger) ← Ledger.applyBlock e.ledger b sync
  return (r, { e with ledger := ledger }.record (.appliedBlock b.id sync))

/-- Applying a block changes the ledger, also when it is refused, and is visible. -/
theorem applyBlock_eq_ok_iff [Ledger σ] {e e' : Engine σ} {b : Block} {sync : Bool}
    {r : Except Refusal (List Hash)} :
    e.applyBlock b sync = .ok (r, e') ↔
      ∃ ledger, Ledger.applyBlock e.ledger b sync = .ok (r, ledger) ∧
        e' = { e with ledger := ledger }.record (.appliedBlock b.id sync) := by
  unfold applyBlock
  rw [Checked.bind_eq_ok_iff]
  constructor
  · rintro ⟨⟨r', ledger⟩, applied, eq⟩
    cases eq
    exact ⟨ledger, applied, rfl⟩
  · rintro ⟨ledger, applied, rfl⟩
    exact ⟨(r, ledger), applied, rfl⟩

/-- Apply a transaction to the ledger. -/
def applyTransaction [Ledger σ] (e : Engine σ) (t : Transaction) :
    Except Refusal Bool × Engine σ :=
  let (r, ledger) := Ledger.applyTransaction e.ledger t
  (r, { e with ledger := ledger }.record (.appliedTransaction t.hash))

/-- Tell the ledger how many blocks are still to be fetched. -/
def notify [Ledger σ] (e : Engine σ) (remaining : Nat) : Engine σ :=
  { e with ledger := Ledger.noteProgress e.ledger remaining }.record (.notified remaining)

end Engine

end BlockRelay
