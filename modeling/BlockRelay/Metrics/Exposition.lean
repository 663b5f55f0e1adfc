/-
# The text form of metrics

Metrics are offered as text, family by family in alphabetical order: two lines that
describe the family, and a line for each of its values.  A family that is split by
a label and has no values yet is left out.
-/
import BlockRelay.Metrics
import BlockRelay.Metrics.Decimal

namespace BlockRelay

/-- A metric with a name, an explanation and a type, and its values, each after the label
that sets it apart. -/
structure MetricFamily where
  name : String
  help : String
  type : String
  samples : List (String × Int)

namespace MetricFamily

/-- The text of a family. -/
def text (f : MetricFamily) : String :=
  if f.samples.isEmpty then ""
  else
    "# HELP " ++ f.name ++ " " ++ f.help ++ "\n" ++
    "# TYPE " ++ f.name ++ " " ++ f.type ++ "\n" ++
    String.join (f.samples.map fun (label, value) =>
      f.name ++ label ++ " " ++ Decimal.intText value ++ "\n")

/-- A family with a single value that may go up and down.  The value is kept in 64 bits with
a sign, so one beyond them turns negative. -/
def gauge (name help : String) (value : Nat) : MetricFamily :=
  ⟨name, help, "gauge", [("", (value : Int).bmod 0x10000000000000000)]⟩

/-- A family with a single value that only goes up. -/
def counter (name help : String) (value : Nat) : MetricFamily :=
  ⟨name, help, "counter", [("", value)]⟩

end MetricFamily

namespace Metrics

/-- The label that names a reason. -/
def reasonLabel (r : Reason) : String := "\x7breason=\"" ++ r.label ++ "\"\x7d"

/-- Every family, in alphabetical order. -/
def families (m : Metrics) : List MetricFamily :=
  [ .gauge "chainsync_bad_objects" "Quarantined object hashes" m.gauges.badObjects,
    .counter "chainsync_blocks_applied_total" "Blocks accepted by the ledger" m.blocksApplied,
    { name := "chainsync_disconnects_total"
      help := "Peers disconnected by the engine"
      type := "counter"
      samples := (Reason.all.filter (m.disconnectsFor · ≠ 0)).map fun r =>
        (reasonLabel r, (m.disconnectsFor r : Int)) },
    .gauge "chainsync_fetch_candidates" "Announced objects not yet requested"
      m.gauges.fetchCandidates,
    .counter "chainsync_flood_rejections_total" "Inventory messages dropped as flooding"
      m.floodRejections,
    .gauge "chainsync_peer_count" "Registered peers" m.gauges.peers,
    .gauge "chainsync_pending_sync_blocks" "Fetched sync blocks not yet applied"
      m.gauges.pendingBlocks,
    .gauge "chainsync_spread_pending" "Objects waiting to be announced" m.gauges.spreadPending,
    .gauge "chainsync_sync_requests" "Sync blocks requested and not yet resolved"
      m.gauges.syncRequests,
    .counter "chainsync_transactions_applied_total" "Transactions accepted by the ledger"
      m.transactionsApplied,
    .gauge "chainsync_unsync_blocks" "Largest count of blocks some peer still has for us"
      m.gauges.unsynced ]

/-- The text of all metrics. -/
def text (m : Metrics) : String := String.join (m.families.map MetricFamily.text)

end Metrics

end BlockRelay
