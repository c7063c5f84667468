import Chomsky.Generation
import Chomsky.Grammar.Description
import Chomsky.Main
import Chomsky.Proofs.Derivation
import Chomsky.Proofs.Producers
import Chomsky.Random.Keystream
import Chomsky.Recognition
import Chomsky.Proofs.Cells
import Chomsky.Proofs.Membership
import Chomsky.Proofs.Alphabet
import Chomsky.Proofs.Choice
import Chomsky.Proofs.Growth
import Chomsky.Proofs.Heights
import Chomsky.Proofs.DepthLimit
import Chomsky.Proofs.Generated
import Chomsky.Proofs.History
import Chomsky.Proofs.Progress
import Chomsky.Proofs.RuleMap
import Chomsky.Proofs.Recurrence
import Chomsky.Proofs.Search
import Chomsky.Proofs.Rebuilding
import Chomsky.Proofs.Useless
import Chomsky.Proofs.Reordering
import Chomsky.Proofs.Outcomes
import Chomsky.Proofs.Safety
import Chomsky.Proofs.Decisions
import Chomsky.Proofs.Sweeps
import Chomsky.Proofs.ClosedTrees
import Chomsky.Proofs.Layout
import Chomsky.Proofs.TableText
import Chomsky.Proofs.Queries
import Chomsky.Proofs.Transcript
import Chomsky.Proofs.Batches
import Chomsky.Proofs.Draws
import Chomsky.Proofs.Extension
import Chomsky.Proofs.Padding
import Chomsky.Proofs.Slots
import Chomsky.Proofs.Inspection
