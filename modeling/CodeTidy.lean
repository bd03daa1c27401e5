import CodeTidy.Engine
import CodeTidy.Catalog
import CodeTidy.Workbench
import CodeTidy.Store.Ownership
import CodeTidy.Tree.Text
import CodeTidy.Tree.Matching
import CodeTidy.Proofs.Termination
import CodeTidy.Proofs.Replacement
import CodeTidy.Proofs.DanglingElse
import CodeTidy.Proofs.Grouping
import CodeTidy.Proofs.Scoping
import CodeTidy.Proofs.Preservation
import CodeTidy.Proofs.Coverage
import CodeTidy.Proofs.Idle
import CodeTidy.Proofs.Forgetting
import CodeTidy.Proofs.Caution
import CodeTidy.Proofs.Splice
import CodeTidy.Proofs.EditOrder
import CodeTidy.Proofs.Reporting
import CodeTidy.Proofs.Inversion
import CodeTidy.Proofs.Retyping
import CodeTidy.Proofs.Membership
import CodeTidy.Proofs.LabelTest
import CodeTidy.Proofs.Search
import CodeTidy.Proofs.Jumps
import CodeTidy.Proofs.DeadEnds
import CodeTidy.Proofs.Calculation
import CodeTidy.Proofs.Droppable
import CodeTidy.Proofs.Copy
import CodeTidy.Proofs.Wrapping
import CodeTidy.Proofs.Decoding
import CodeTidy.Proofs.Locality
import CodeTidy.Proofs.Erasure
import CodeTidy.Proofs.Slots
