import Rewind.Draft
import Rewind.Grammar.Parse
import Rewind.LineReader
import Rewind.Proofs.Plan
import Rewind.Proofs.Parts
import Rewind.Proofs.Invocation
import Rewind.Proofs.Lookahead
import Rewind.Proofs.Nodes
import Rewind.Proofs.Evaluation
import Rewind.Proofs.Echo
import Rewind.Proofs.Rewinding
import Rewind.Proofs.Walk
import Rewind.Proofs.Finality
import Rewind.Proofs.Cutting
import Rewind.Proofs.Reading
import Rewind.Proofs.Nesting
import Rewind.Proofs.Residual
import Rewind.Proofs.Ending
import Rewind.Proofs.Derivation
import Rewind.Proofs.Acceptance
import Rewind.Proofs.Lines
import Rewind.Proofs.Agreement
import Rewind.Proofs.Exhaustion
import Rewind.Proofs.Transcript
import Rewind.Proofs.Listing
import Rewind.Proofs.Provenance
import Rewind.Proofs.Relocation
import Rewind.Proofs.Ownership
import Rewind.Proofs.SelfReference
import Rewind.Proofs.Sequencing
import Rewind.Proofs.Alternatives
import Rewind.Proofs.Iteration
import Rewind.Proofs.Halting
import Rewind.Proofs.Poisoning
import Rewind.Proofs.Delivery
import Rewind.Proofs.Pulling
import Rewind.Proofs.Rationing
import Rewind.Proofs.Matching
import Rewind.Proofs.Scanning
import Rewind.Proofs.Counting
import Rewind.Proofs.Ordering
import Rewind.Proofs.Spelling
import Rewind.Proofs.Delayed
import Rewind.Proofs.Collecting
import Rewind.Proofs.Declarations
