import FuzzyMotion.Pilot
import FuzzyMotion.Proofs.Angle.Wrapping
import FuzzyMotion.Proofs.Behavior.Caution
import FuzzyMotion.Proofs.Behavior.Doors
import FuzzyMotion.Proofs.Behavior.Doorway
import FuzzyMotion.Proofs.Behavior.Failing
import FuzzyMotion.Proofs.Behavior.Heading
import FuzzyMotion.Proofs.Behavior.Reliable
import FuzzyMotion.Proofs.Behavior.Standstill
import FuzzyMotion.Proofs.Behavior.Steering
import FuzzyMotion.Proofs.Decimal.Shortest
import FuzzyMotion.Proofs.Fault.Genuine
import FuzzyMotion.Proofs.Inference.Bounded
import FuzzyMotion.Proofs.Inference.Construction
import FuzzyMotion.Proofs.Inference.Dyadic
import FuzzyMotion.Proofs.Inference.Feasible
import FuzzyMotion.Proofs.Inference.Indexing
import FuzzyMotion.Proofs.Inference.Records
import FuzzyMotion.Proofs.Inference.Reordering
import FuzzyMotion.Proofs.Membership.Halves
import FuzzyMotion.Proofs.Membership.Support
import FuzzyMotion.Proofs.Observation.Clearance
import FuzzyMotion.Proofs.Pilot.Engaging
import FuzzyMotion.Proofs.Pilot.Following
import FuzzyMotion.Proofs.Pilot.Kept
import FuzzyMotion.Proofs.Pilot.Swap
import FuzzyMotion.Proofs.Pilot.Verbosity
import FuzzyMotion.Proofs.RuleBase.Refusals
import FuzzyMotion.Proofs.Statement.Defects
import FuzzyMotion.Proofs.Statement.Layout
import FuzzyMotion.Proofs.Statement.Polarity
import FuzzyMotion.Proofs.Statement.Rendering
import FuzzyMotion.Proofs.Statement.Truncation
import FuzzyMotion.Proofs.Table.History
