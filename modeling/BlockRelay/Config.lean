/-
# Configuration

All limits, periods and sizes, by section, with their defaults; and the quantities
that are derived from them.  Times are in milliseconds unless a name says
otherwise.  A derived quantity that does not fit in a word aborts the operation
that needs it, and no other.
-/
import BlockRelay.Checked

namespace BlockRelay

/-- Limits of the exchange with the network. -/
structure Config.Net where
  /-- The time between two blocks. -/
  blockInterval : Nat := 3000
  /-- For how many block intervals an announced object stays worth fetching. -/
  fetchableBlocks : Nat := 5
  /-- How many announced objects one peer is asked for at a time. -/
  maxReserved : Nat := 200
  /-- How many transactions per second the whole network may announce. -/
  maxTransactionRate : Nat := 700
  /-- How long a peer may take to deliver an announced object. -/
  advTimeout : Nat := 20000
  /-- How long a peer may take to answer during catch-up. -/
  syncTimeout : Nat := 5000
  /-- For how many minutes announcements are remembered. -/
  retentionMinutes : Nat := 2
  /-- How far the clocks of two peers may be apart. -/
  clockMaxDelay : Nat := 3600000
  deriving DecidableEq, Repr, Inhabited

/-- Limits of catch-up. -/
structure Config.Sync where
  /-- How many identities one reply to a summary may add. -/
  batch : Nat := 2000
  /-- How many blocks one peer is asked for at a time. -/
  maxPerPeer : Nat := 1000
  /-- How many fetched blocks one pass applies. -/
  applyBudget : Nat := 400
  /-- With how many fetched blocks waiting no more are asked for. -/
  backlogCap : Nat := 800
  /-- How many accepted blocks are remembered as recent. -/
  recentCap : Nat := 200
  deriving DecidableEq, Repr, Inhabited

/-- Sizes and lifetimes of the caches, and limits of a batch of transactions.  A size is a
number of entries, and a lifetime is in seconds. -/
structure Config.Cache where
  blockSize : Nat := 10
  blockSeconds : Nat := 60
  transactionSize : Nat := 100000
  transactionSeconds : Nat := 3600
  requestSize : Nat := 10000
  requestSeconds : Nat := 3600
  /-- For how long a refused object is quarantined. -/
  quarantineSeconds : Nat := 3600
  maxBatchCount : Nat := 100
  maxBatchBytes : Nat := 1000000
  deriving DecidableEq, Repr, Inhabited

/-- Periods of the background tasks. -/
structure Config.Tasks where
  /-- How long announcing and reserving rest when there is nothing to do. -/
  idleSleep : Nat := 100
  /-- How long applying rests when there is nothing to do. -/
  applySleep : Nat := 1000
  issuePeriod : Nat := 1000
  floodPeriod : Nat := 100
  statusPeriod : Nat := 10000
  /-- When the first sweep of inactive peers takes place. -/
  sweepDelay : Nat := 30000
  /-- Zero stands for half a block interval. -/
  sweepPeriod : Nat := 0
  /-- Zero stands for half the inventory retention. -/
  cleaningPeriod : Nat := 0
  deriving DecidableEq, Repr, Inhabited

/-- Where metrics are offered. -/
structure Config.Metrics where
  bind : String := "127.0.0.1:9100"
  deriving DecidableEq, Repr, Inhabited

/-- The whole configuration. -/
structure Config where
  net : Config.Net := {}
  sync : Config.Sync := {}
  cache : Config.Cache := {}
  tasks : Config.Tasks := {}
  metrics : Config.Metrics := {}
  deriving DecidableEq, Repr, Inhabited

/-! ## Derived quantities -/

namespace Config.Net

/-- For how long an announced object stays worth fetching. -/
def fetchableFor (c : Net) : Checked Nat :=
  Checked.mul c.fetchableBlocks c.blockInterval

/-- The number of slots of 100 milliseconds in the flood window, at least one. -/
def floodSlots (c : Net) : Checked Nat := do
  let span ← Checked.mul c.blockInterval c.fetchableBlocks
  return max (span / 100) 1

/-- How many transaction announcements the whole network may make within one window. -/
def floodCeiling (c : Net) : Checked Nat := do
  let perMille ← Checked.mul c.blockInterval c.maxTransactionRate
  let total ← Checked.mul perMille c.fetchableBlocks
  return total / 1000

/-- How many announcements of one peer are remembered before its transactions are refused. -/
def inventoryCap (c : Net) : Checked Nat := do
  let seconds ← Checked.mul c.retentionMinutes 60
  Checked.mul seconds c.maxTransactionRate

/-- For how long announcements are remembered. -/
def retention (c : Net) : Checked Nat := do
  let seconds ← Checked.mul c.retentionMinutes 60
  return seconds * 1000

end Config.Net

namespace Config

/-- The time between two sweeps of inactive peers. -/
def sweepPeriod (c : Config) : Nat :=
  if c.tasks.sweepPeriod = 0 then max (c.net.blockInterval / 2) 1 else c.tasks.sweepPeriod

/-- The time between two cleanings of the inventory. -/
def cleaningPeriod (c : Config) : Checked Nat :=
  if c.tasks.cleaningPeriod = 0 then do
    let retention ← c.net.retention
    return retention / 2
  else return c.tasks.cleaningPeriod

end Config

/-! ## Settings by name -/

/-- A numeric setting: its section and key in a configuration file, and its place in a
configuration. -/
structure Setting where
  group : String
  key : String
  get : Config → Nat
  set : Nat → Config → Config

namespace Setting

/-- A setting of the section `net`. -/
def net (key : String) (get : Config.Net → Nat) (set : Nat → Config.Net → Config.Net) : Setting :=
  ⟨"net", key, fun c => get c.net, fun n c => { c with net := set n c.net }⟩

/-- A setting of the section `sync`. -/
def sync (key : String) (get : Config.Sync → Nat) (set : Nat → Config.Sync → Config.Sync) :
    Setting :=
  ⟨"sync", key, fun c => get c.sync, fun n c => { c with sync := set n c.sync }⟩

/-- A setting of the section `cache`. -/
def cache (key : String) (get : Config.Cache → Nat) (set : Nat → Config.Cache → Config.Cache) :
    Setting :=
  ⟨"cache", key, fun c => get c.cache, fun n c => { c with cache := set n c.cache }⟩

/-- A setting of the section `tasks`. -/
def tasks (key : String) (get : Config.Tasks → Nat) (set : Nat → Config.Tasks → Config.Tasks) :
    Setting :=
  ⟨"tasks", key, fun c => get c.tasks, fun n c => { c with tasks := set n c.tasks }⟩

end Setting

/-- Every numeric setting, section by section. -/
def Config.settings : List Setting :=
  [ .net "block_interval_ms" (·.blockInterval) fun n c => { c with blockInterval := n },
    .net "msg_cache_duration_in_blocks" (·.fetchableBlocks) fun n c =>
      { c with fetchableBlocks := n },
    .net "max_trx_per_peer" (·.maxReserved) fun n c => { c with maxReserved := n },
    .net "net_max_trx_per_second" (·.maxTransactionRate) fun n c =>
      { c with maxTransactionRate := n },
    .net "adv_timeout_ms" (·.advTimeout) fun n c => { c with advTimeout := n },
    .net "sync_timeout_ms" (·.syncTimeout) fun n c => { c with syncTimeout := n },
    .net "inventory_retention_minutes" (·.retentionMinutes) fun n c =>
      { c with retentionMinutes := n },
    .net "clock_max_delay_ms" (·.clockMaxDelay) fun n c => { c with clockMaxDelay := n },
    .sync "fetch_batch_num" (·.batch) fun n c => { c with batch := n },
    .sync "max_blocks_from_one_peer" (·.maxPerPeer) fun n c => { c with maxPerPeer := n },
    .sync "max_blocks_in_process" (·.applyBudget) fun n c => { c with applyBudget := n },
    .sync "max_blocks_already_fetched" (·.backlogCap) fun n c => { c with backlogCap := n },
    .sync "recent_block_ids_cap" (·.recentCap) fun n c => { c with recentCap := n },
    .cache "block_cache_size" (·.blockSize) fun n c => { c with blockSize := n },
    .cache "block_cache_ttl_secs" (·.blockSeconds) fun n c => { c with blockSeconds := n },
    .cache "tx_cache_size" (·.transactionSize) fun n c => { c with transactionSize := n },
    .cache "tx_cache_ttl_secs" (·.transactionSeconds) fun n c =>
      { c with transactionSeconds := n },
    .cache "sync_request_cache_size" (·.requestSize) fun n c => { c with requestSize := n },
    .cache "sync_request_ttl_secs" (·.requestSeconds) fun n c => { c with requestSeconds := n },
    .cache "bad_object_ttl_secs" (·.quarantineSeconds) fun n c =>
      { c with quarantineSeconds := n },
    .cache "max_trxs_batch_count" (·.maxBatchCount) fun n c => { c with maxBatchCount := n },
    .cache "max_trxs_batch_bytes" (·.maxBatchBytes) fun n c => { c with maxBatchBytes := n },
    .tasks "idle_sleep_ms" (·.idleSleep) fun n c => { c with idleSleep := n },
    .tasks "sync_apply_ms" (·.applySleep) fun n c => { c with applySleep := n },
    .tasks "fetch_issue_ms" (·.issuePeriod) fun n c => { c with issuePeriod := n },
    .tasks "flood_advance_ms" (·.floodPeriod) fun n c => { c with floodPeriod := n },
    .tasks "status_log_ms" (·.statusPeriod) fun n c => { c with statusPeriod := n },
    .tasks "inactivity_initial_delay_ms" (·.sweepDelay) fun n c => { c with sweepDelay := n },
    .tasks "inactivity_sweep_ms" (·.sweepPeriod) fun n c => { c with sweepPeriod := n },
    .tasks "inventory_gc_ms" (·.cleaningPeriod) fun n c => { c with cleaningPeriod := n } ]

end BlockRelay
