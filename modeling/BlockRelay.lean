import BlockRelay.Config.Reading
import BlockRelay.Engine.Run
import BlockRelay.Ledger.Faulty
import BlockRelay.Metrics.Exposition
import BlockRelay.Network.Stepped
import BlockRelay.Network.Timed
import BlockRelay.Proofs.Origins
import BlockRelay.Proofs.Outruns
import BlockRelay.Proofs.Records
import BlockRelay.Proofs.Offers
import BlockRelay.Proofs.Quarantine
import BlockRelay.Proofs.Prefixes
import BlockRelay.Proofs.Completion
import BlockRelay.Proofs.Relay
import BlockRelay.Proofs.Agreement
import BlockRelay.Proofs.Counts
import BlockRelay.Proofs.Sharing
import BlockRelay.Proofs.Stranded
import BlockRelay.Proofs.Departures
import BlockRelay.Proofs.ValidChain
import BlockRelay.Proofs.Readmission
import BlockRelay.Proofs.Wakeups
import BlockRelay.Proofs.Releases
import BlockRelay.Proofs.HonestReplies
import BlockRelay.Proofs.Markers
import BlockRelay.Proofs.Phases
import BlockRelay.Proofs.Exchanges
import BlockRelay.Proofs.Rounds
import BlockRelay.Proofs.Convergence
import BlockRelay.Proofs.Passes
import BlockRelay.Proofs.Spreading
import BlockRelay.Proofs.Batching
import BlockRelay.Proofs.Intake
import BlockRelay.Proofs.Issues
import BlockRelay.Proofs.Assignment
import BlockRelay.Proofs.Backlog
import BlockRelay.Proofs.Sweeps
import BlockRelay.Proofs.Leftovers
import BlockRelay.Proofs.Retreats
import BlockRelay.Proofs.Recency
import BlockRelay.Proofs.Sampling
import BlockRelay.Proofs.Progress
import BlockRelay.Proofs.Turns
import BlockRelay.Proofs.Stillness
import BlockRelay.Proofs.Sightings
import BlockRelay.Proofs.Ages
import BlockRelay.Proofs.Identity
