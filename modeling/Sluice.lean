import Sluice.Probe
import Sluice.Proofs.Audience.Refinement
import Sluice.Proofs.Audits.Shown
import Sluice.Proofs.Deferral.Unseen
import Sluice.Proofs.Demand.Ledger
import Sluice.Proofs.Driver.Delivery
import Sluice.Proofs.Driver.Pacing
import Sluice.Proofs.Gates.Handle
import Sluice.Proofs.Gates.Interchange
import Sluice.Proofs.Machine.Failure
import Sluice.Proofs.Machine.Released
import Sluice.Proofs.Machine.SecondPublisher
import Sluice.Proofs.Machine.Writes
import Sluice.Proofs.Resumable.Gate
import Sluice.Proofs.Resumable.Lifecycle
import Sluice.Proofs.Sequence.Delivery
import Sluice.Proofs.Sequence.Reading
import Sluice.Proofs.Sources.Agreement
import Sluice.Proofs.Subject.Completion
import Sluice.Proofs.Subject.Delivery
import Sluice.Proofs.Subject.Stranded
import Sluice.Proofs.Ticking.Punctual
import Sluice.Scenario.Play
