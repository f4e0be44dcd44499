import PureCalls.Annotate
import PureCalls.Proofs.Heads
import PureCalls.Proofs.Reach
import PureCalls.Proofs.Verdict
import PureCalls.Proofs.Visits
import PureCalls.Proofs.Unchanged
import PureCalls.Proofs.Leading
import PureCalls.Proofs.Relocation
import PureCalls.Proofs.Erasure
import PureCalls.Proofs.Conservation
import PureCalls.Proofs.Placement
import PureCalls.Proofs.Exactness
import PureCalls.Proofs.Idempotence
import PureCalls.Proofs.Matching
import PureCalls.Proofs.Parentheses
import PureCalls.Proofs.Outcome
import PureCalls.Proofs.Wrapping
import PureCalls.Proofs.Renumbering
import PureCalls.Proofs.Composition
import PureCalls.Proofs.Lockstep
import PureCalls.Proofs.Sequence
import PureCalls.Proofs.Translation
import PureCalls.Proofs.Relabelling
import PureCalls.Proofs.Renaming
import PureCalls.Proofs.Supply
import PureCalls.Proofs.Spelling
import PureCalls.Proofs.Format
import PureCalls.Proofs.Magnitude
import PureCalls.Proofs.Effect
import PureCalls.Proofs.Agreement
import PureCalls.Proofs.Framing
import PureCalls.Proofs.Layout
import PureCalls.Proofs.Types
import PureCalls.Proofs.Items
import PureCalls.Proofs.Reordering
import PureCalls.Proofs.Decisions
import PureCalls.Proofs.Changed
import PureCalls.Proofs.Meaning
import PureCalls.Proofs.Cutting
import PureCalls.Proofs.Truncation
