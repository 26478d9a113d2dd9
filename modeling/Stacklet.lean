import Stacklet.CommandLine.Surroundings
import Stacklet.Main
import Stacklet.Proofs.Correctness
import Stacklet.Proofs.Expressions
import Stacklet.Proofs.Parsing
import Stacklet.Proofs.Wire
import Stacklet.Proofs.Bytes
import Stacklet.Proofs.Postorder
import Stacklet.Proofs.Depth
import Stacklet.Proofs.RoundTrip
import Stacklet.Proofs.Sessions
import Stacklet.Proofs.Renumbering
import Stacklet.Proofs.Recursion
import Stacklet.Proofs.Prediction
import Stacklet.Proofs.Views
import Stacklet.Proofs.SourceTrees
import Stacklet.Proofs.PoolGrowth
import Stacklet.Proofs.Viability
import Stacklet.Proofs.Limits
import Stacklet.Proofs.ScanFaults
import Stacklet.Proofs.Layout
import Stacklet.Proofs.Assignments
import Stacklet.Proofs.Interning
import Stacklet.Proofs.Literals
import Stacklet.Proofs.Reuse
import Stacklet.Proofs.Powers
import Stacklet.Proofs.Nesting
import Stacklet.Proofs.Resaving
import Stacklet.Proofs.Grouping
import Stacklet.Proofs.Columns
import Stacklet.Proofs.DecodeFaults
import Stacklet.Proofs.Listings
import Stacklet.Proofs.Rescanning
import Stacklet.Proofs.NetEffect
import Stacklet.Proofs.Numerals
