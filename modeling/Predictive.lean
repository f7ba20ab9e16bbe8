import Predictive.Session
import Predictive.Solver.Network
import Predictive.Limits.Json
import Predictive.Proofs.Derivation
import Predictive.Proofs.Solver.Evaluation
import Predictive.Proofs.Solver.Clearing
import Predictive.Proofs.Grammar.Finality
import Predictive.Proofs.Grammar.Kept
import Predictive.Proofs.Grammar.Potential
import Predictive.Proofs.Grammar.Termination
import Predictive.Proofs.Grammar.Clarity
import Predictive.Proofs.Grammar.Exactness
import Predictive.Proofs.Grammar.Staleness
import Predictive.Proofs.Grammar.Table
import Predictive.Proofs.Grammar.Ambiguity
import Predictive.Proofs.Grammar.Continuation
import Predictive.Proofs.Safety
import Predictive.Proofs.Image
import Predictive.Proofs.Viability
import Predictive.Proofs.Grammar.Outcome
import Predictive.Proofs.Solver.Fixpoint
import Predictive.Proofs.Solver.Rules
import Predictive.Proofs.Grammar.Origins
import Predictive.Proofs.Grammar.Ending
import Predictive.Proofs.Cutoff
import Predictive.Proofs.Solver.Twin
import Predictive.Proofs.Grammar.Twin
import Predictive.Proofs.Grammar.Lockstep
import Predictive.Proofs.Grammar.Homomorphism
import Predictive.Proofs.Grammar.Binding
import Predictive.Proofs.Rearrangement
import Predictive.Proofs.Grammar.Rearranging
import Predictive.Proofs.Grammar.Holding
import Predictive.Proofs.Grammar.Readiness
import Predictive.Proofs.Grammar.Regrouping
import Predictive.Proofs.Zipper.Composition
import Predictive.Proofs.Grammar.Allowance
import Predictive.Proofs.Grammar.Guarding
import Predictive.Proofs.Grammar.Enduring
import Predictive.Proofs.Grammar.Unguarded
import Predictive.Proofs.Repetition
import Predictive.Proofs.Grammar.Sugaring
import Predictive.Proofs.Grammar.Repetition
import Predictive.Proofs.Solver.Abandoning
import Predictive.Proofs.Zipper.Depth
import Predictive.Proofs.Iteration
import Predictive.Proofs.Grammar.Iteration
import Predictive.Proofs.Zipper.Nesting
import Predictive.Proofs.Grammar.Nesting
import Predictive.Proofs.Grammar.Retention
import Predictive.Proofs.Grammar.Searching
import Predictive.Proofs.Grammar.Rendering
import Predictive.Proofs.Grammar.Diagnosis
import Predictive.Proofs.Solver.Stack
import Predictive.Proofs.Grammar.Depiction
