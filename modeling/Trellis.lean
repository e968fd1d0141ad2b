import Trellis.Host.Bodies
import Trellis.Language.Build
import Trellis.Language.Constraint
import Trellis.Language.Describe
import Trellis.Session.Host
import Trellis.Proofs.Solver.Reading
import Trellis.Proofs.Solver.Runs
import Trellis.Proofs.Solver.Fixpoint
import Trellis.Proofs.Solver.Labelling
import Trellis.Proofs.Solver.Solutions
import Trellis.Proofs.Solver.Gathering
import Trellis.Proofs.Solver.Confluence
import Trellis.Proofs.Solver.Simulation
import Trellis.Proofs.Solver.Walks
import Trellis.Proofs.Solver.Budget
import Trellis.Proofs.Solver.Caching
import Trellis.Proofs.Solver.Flattening
import Trellis.Proofs.Solver.Turns
import Trellis.Proofs.Solver.Stability
import Trellis.Proofs.Solver.Watching
import Trellis.Proofs.Solver.Shrinking
import Trellis.Proofs.Solver.Explanations
import Trellis.Proofs.Scope
import Trellis.Proofs.Rebindings
import Trellis.Proofs.Session.Calls
import Trellis.Proofs.Session.Evaluation
import Trellis.Proofs.Session.Changes
import Trellis.Proofs.Session.Operations
import Trellis.Proofs.Session.Growth
import Trellis.Proofs.Session.Reachable
import Trellis.Proofs.Session.Binding
import Trellis.Proofs.Session.Solving
import Trellis.Proofs.Session.Loading
import Trellis.Proofs.Session.Attempts
import Trellis.Proofs.Session.Searches
import Trellis.Proofs.Session.Precedence
import Trellis.Proofs.Session.Sifting
import Trellis.Proofs.Session.Crossings
import Trellis.Proofs.Session.Marks
import Trellis.Proofs.Session.Following
import Trellis.Proofs.Session.Plain
import Trellis.Proofs.Session.Answering
import Trellis.Proofs.Session.Uncached
import Trellis.Proofs.Session.Onward
import Trellis.Proofs.Session.Shapes
import Trellis.Proofs.Session.Dispatching
import Trellis.Proofs.Session.Review
import Trellis.Proofs.Session.Hindsight
import Trellis.Proofs.Session.Probing
import Trellis.Proofs.Session.Stopping
import Trellis.Proofs.Session.Staleness
import Trellis.Proofs.Session.Recall
import Trellis.Proofs.Session.Frames
import Trellis.Proofs.Session.Interpretation
import Trellis.Proofs.Session.Lexical
import Trellis.Proofs.Language.Declarations
import Trellis.Proofs.Language.Accepted
import Trellis.Proofs.Language.Refusals
import Trellis.Proofs.Language.Lineage
import Trellis.Proofs.Language.Naming
import Trellis.Proofs.Language.Findings
import Trellis.Proofs.Session.Naming
import Trellis.Proofs.Session.Trusted
import Trellis.Proofs.Session.Readings
import Trellis.Proofs.Session.Nesting
import Trellis.Proofs.Session.Guarded
import Trellis.Proofs.Solver.Asked
import Trellis.Proofs.Session.Constraints
import Trellis.Proofs.Session.Distinct
import Trellis.Proofs.Forest
import Trellis.Proofs.Checkpoints
import Trellis.Proofs.Context
import Trellis.Proofs.Session.Repeats
import Trellis.Proofs.Session.Layout
import Trellis.Proofs.Session.Completions
import Trellis.Proofs.Session.Termination
import Trellis.Proofs.Session.Visibility
import Trellis.Proofs.Session.Resolutions
import Trellis.Proofs.Session.Surroundings
import Trellis.Proofs.Session.Inquiries
import Trellis.Proofs.Session.Widening
import Trellis.Proofs.Session.Appending
import Trellis.Proofs.Session.Repopulation
import Trellis.Proofs.Session.Opening
import Trellis.Proofs.Session.Provisions
import Trellis.Proofs.Session.Typing
import Trellis.Proofs.DynVars
import Trellis.Proofs.Language.Needs
import Trellis.Proofs.Session.Unsolved
import Trellis.Proofs.Session.Unneeded
import Trellis.Proofs.Bag
import Trellis.Proofs.Session.Constructions
import Trellis.Proofs.Session.Origins
