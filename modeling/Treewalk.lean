import Treewalk.Main
import Treewalk.Proofs.Lexical.Refinement
import Treewalk.Proofs.Inheritance.Refinement
import Treewalk.Proofs.Surface.Refinement
import Treewalk.Proofs.Resolution.Positions
import Treewalk.Proofs.Session.Truncated
import Treewalk.Proofs.Tree.Accepts
import Treewalk.Proofs.Tree.Inverse
import Treewalk.Proofs.Tree.Concatenation
import Treewalk.Proofs.Session.Rejected
import Treewalk.Proofs.Token.Lines
import Treewalk.Proofs.Token.Separated
import Treewalk.Proofs.Session.Cursor
import Treewalk.Proofs.Evaluation.Containment
import Treewalk.Proofs.Construction.Instances
import Treewalk.Proofs.Tree.Progress
import Treewalk.Proofs.Tree.Recovered
import Treewalk.Proofs.Heap.Chains
import Treewalk.Proofs.Session.Diagnostics
import Treewalk.Proofs.Tree.Distinct
import Treewalk.Proofs.Resolution.Balance
import Treewalk.Proofs.Calling.Arguments
