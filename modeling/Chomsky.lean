import Chomsky.Grammar.Derivation
import Chomsky.Grammar.Tree
import Chomsky.Main
import Chomsky.Proofs.Grammar.Lookup
import Chomsky.Proofs.Grammar.WellFormed
import Chomsky.Proofs.Grammar.Literal
import Chomsky.Proofs.Grammar.Simulation
import Chomsky.Proofs.Name.Distinct
import Chomsky.Proofs.Name.Supply
import Chomsky.Proofs.Analysis.Nullable
import Chomsky.Proofs.Analysis.Reachable
import Chomsky.Proofs.Analysis.Worklist
import Chomsky.Proofs.Name.Table
import Chomsky.Proofs.Normal.NullFree
import Chomsky.Proofs.Normal.Known
import Chomsky.Proofs.Normal.IsolatedStart
import Chomsky.Proofs.Normal.Pruned
import Chomsky.Proofs.Normal.UnitFree
import Chomsky.Proofs.Normal.Naming
import Chomsky.Proofs.Normal.IsolatedTerminals
import Chomsky.Proofs.Normal.Binary
import Chomsky.Proofs.Normal.Stages
import Chomsky.Proofs.Normal.Language
import Chomsky.Proofs.Normal.NormalForm
import Chomsky.Proofs.Normal.Outcome
import Chomsky.Proofs.Normal.FixedPoint
import Chomsky.Proofs.Normal.Invariant
import Chomsky.Proofs.Membership.Earley
import Chomsky.Proofs.Grammar.Renaming
import Chomsky.Proofs.Normal.Renaming
import Chomsky.Proofs.Analysis.Height
import Chomsky.Proofs.Analysis.HeightLoop
import Chomsky.Proofs.Sampling.Sentence
import Chomsky.Proofs.Membership.SpanTable
import Chomsky.Proofs.Membership.Words
import Chomsky.Proofs.Normal.UnitClosure
import Chomsky.Proofs.Normal.Violation
import Chomsky.Proofs.Command.Checks
import Chomsky.Proofs.Analysis.UnitSearch
import Chomsky.Proofs.Membership.Comparison
import Chomsky.Proofs.Normal.Expansion
import Chomsky.Proofs.Normal.Invertible
import Chomsky.Proofs.Normal.Repeated
import Chomsky.Proofs.Name.Inquiry
import Chomsky.Proofs.Normal.InTurn
import Chomsky.Proofs.Normal.InPlace
import Chomsky.Proofs.Normal.Failing
import Chomsky.Proofs.Name.Scheme
import Chomsky.Proofs.Normal.MoreNames
import Chomsky.Proofs.Sampling.Script
import Chomsky.Proofs.Analysis.NullableLoop
import Chomsky.Proofs.Analysis.Removals
import Chomsky.Proofs.Analysis.LeastHeight
import Chomsky.Proofs.Normal.UnitScan
import Chomsky.Proofs.Membership.SpanGrid
import Chomsky.Proofs.Membership.ItemWalk
