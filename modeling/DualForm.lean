import DualForm.Host.Registry
import DualForm.Proofs.Application.FreeParams
import DualForm.Proofs.Application.Substitution
import DualForm.Proofs.Dual.Choices
import DualForm.Proofs.Dual.Hygiene
import DualForm.Proofs.Dual.Operators
import DualForm.Proofs.Dual.Publication
import DualForm.Proofs.Dual.Reads
import DualForm.Proofs.Dual.References
import DualForm.Proofs.Dual.Removal
import DualForm.Proofs.Dual.Scope
import DualForm.Proofs.Dual.Typing
import DualForm.Proofs.Factory.Currying
import DualForm.Proofs.Factory.Independence
import DualForm.Proofs.Factory.Partial
import DualForm.Proofs.Factory.Reach
import DualForm.Proofs.Factory.Resolution
import DualForm.Proofs.Factory.Timing
import DualForm.Proofs.Folding
import DualForm.Proofs.Laziness.Families
import DualForm.Proofs.Laziness.Transparency
import DualForm.Proofs.Printing.Grouping
import DualForm.Proofs.Rewriting.Commutation
import DualForm.Proofs.Rewriting.Foreign
import DualForm.Proofs.Rewriting.Termination
import DualForm.Proofs.Rewriting.Verification
import DualForm.Proofs.Tree.Associativity
import DualForm.Proofs.Tree.Counting
import DualForm.Proofs.Tree.Freshening
import DualForm.Proofs.Tree.Preorder
import DualForm.Proofs.Tree.Renaming
import DualForm.Proofs.Typing
import DualForm.Rewriting.Pass
import DualForm.Tree.Comparison
import DualForm.Value.Inspection
