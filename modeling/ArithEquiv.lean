import ArithEquiv.Journal.Program
import ArithEquiv.Main
import ArithEquiv.Proofs.DigestEvaluation
import ArithEquiv.Proofs.Interpretation
import ArithEquiv.Proofs.Runs
import ArithEquiv.Proofs.Tracing
import ArithEquiv.Proofs.SignLaws
import ArithEquiv.Proofs.Arithmetic
import ArithEquiv.Proofs.Cancellation
import ArithEquiv.Proofs.Soundness
import ArithEquiv.Proofs.Grouping
import ArithEquiv.Proofs.Ordering
import ArithEquiv.Proofs.Collisions
import ArithEquiv.Proofs.Rearrangement
import ArithEquiv.Proofs.MultipliedOut
import ArithEquiv.Proofs.Shape
import ArithEquiv.Proofs.Vocabulary
import ArithEquiv.Proofs.Sweeps
import ArithEquiv.Proofs.Stages
import ArithEquiv.Proofs.SignedTerms
import ArithEquiv.Proofs.ReducedTerms
import ArithEquiv.Proofs.FormalSums
import ArithEquiv.Proofs.Uncancelled
import ArithEquiv.Proofs.Words
import ArithEquiv.Proofs.Polynomials
import ArithEquiv.Proofs.UnitTerms
import ArithEquiv.Proofs.Completeness
import ArithEquiv.Proofs.NormalForms
import ArithEquiv.Proofs.Desugaring
import ArithEquiv.Proofs.Undisturbed
import ArithEquiv.Proofs.SteadyNumerators
import ArithEquiv.Proofs.NormalShape
import ArithEquiv.Proofs.Resorting
import ArithEquiv.Proofs.Sizes
import ArithEquiv.Proofs.Convergence
import ArithEquiv.Proofs.Restructuring
import ArithEquiv.Proofs.Tidying
import ArithEquiv.Proofs.Termination
import ArithEquiv.Proofs.Idempotence
import ArithEquiv.Proofs.Ledgers
import ArithEquiv.Proofs.Regrouping
import ArithEquiv.Proofs.Spelling
import ArithEquiv.Proofs.Opposites
import ArithEquiv.Proofs.Ceilings
import ArithEquiv.Proofs.Integers
import ArithEquiv.Proofs.CanonicalForm
import ArithEquiv.Proofs.NetValues
import ArithEquiv.Proofs.Renaming
import ArithEquiv.Proofs.SizeLimit
import ArithEquiv.Proofs.Grammar
import ArithEquiv.Proofs.Scanning
import ArithEquiv.Proofs.Lexemes
import ArithEquiv.Proofs.Parentheses
import ArithEquiv.Proofs.Prefixes
import ArithEquiv.Proofs.Reading
import ArithEquiv.Proofs.Blame
import ArithEquiv.Proofs.Locating
import ArithEquiv.Proofs.Pinpointing
import ArithEquiv.Proofs.Acceptance
import ArithEquiv.Proofs.RoundTrip
import ArithEquiv.Proofs.Guards
import ArithEquiv.Proofs.Failures
import ArithEquiv.Proofs.Blending
import ArithEquiv.Proofs.PermutedSums
import ArithEquiv.Proofs.Remainders
import ArithEquiv.Proofs.Scaling
import ArithEquiv.Proofs.Neutral
import ArithEquiv.Proofs.Iteration
import ArithEquiv.Proofs.Crossing
import ArithEquiv.Proofs.Reassociation
import ArithEquiv.Proofs.Nesting
import ArithEquiv.Proofs.Comparison
import ArithEquiv.Proofs.Offsets
import ArithEquiv.Proofs.OneSweep
import ArithEquiv.Proofs.Negations
import ArithEquiv.Proofs.Traversal
import ArithEquiv.Proofs.SumsOfOnes
import ArithEquiv.Proofs.Messages
import ArithEquiv.Proofs.Enclosures
import ArithEquiv.Proofs.Blocks
