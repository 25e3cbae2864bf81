import ObjLet.Compile
import ObjLet.Syntax.Builder
import ObjLet.Proofs.Meaning.Eval
import ObjLet.Proofs.Machine.Step
import ObjLet.Proofs.Binding.Recorded
import ObjLet.Proofs.Class.Evolve
import ObjLet.Proofs.Typing.Fits
import ObjLet.Proofs.Typing.Checked
import ObjLet.Proofs.Class.Laid
import ObjLet.Proofs.Class.Body
import ObjLet.Proofs.Typing.Members
import ObjLet.Proofs.Typing.Declared
import ObjLet.Proofs.Code.Total
import ObjLet.Proofs.Typing.Value
import ObjLet.Proofs.Typing.Object
import ObjLet.Proofs.Typing.Sound
import ObjLet.Proofs.Machine.Trace
import ObjLet.Proofs.Code.Marked
import ObjLet.Proofs.Code.Listed
import ObjLet.Proofs.Simulation.Snapshot
import ObjLet.Proofs.Class.Packed
import ObjLet.Proofs.Class.Inherit
import ObjLet.Proofs.Binding.Scoping
import ObjLet.Proofs.Binding.Static
import ObjLet.Proofs.Typing.Parts
import ObjLet.Proofs.Balance.Path
import ObjLet.Proofs.Code.Inner
import ObjLet.Proofs.Code.Emission
import ObjLet.Proofs.Balance.Flow
import ObjLet.Proofs.Balance.Sequence
import ObjLet.Proofs.Balance.Expr
import ObjLet.Proofs.Balance.Balanced
import ObjLet.Proofs.Code.Blocks
import ObjLet.Proofs.Simulation.Leads
import ObjLet.Proofs.Simulation.Represent
import ObjLet.Proofs.Simulation.Implements
import ObjLet.Proofs.Simulation.Expr
import ObjLet.Proofs.Simulation.Decl
import ObjLet.Proofs.Simulation.Preserves
import ObjLet.Proofs.Simulation.Store
import ObjLet.Proofs.Typing.Join
import ObjLet.Proofs.Class.Slots
import ObjLet.Proofs.Class.Dispatch
import ObjLet.Proofs.Renaming.Compile
import ObjLet.Proofs.Simulation.Object
import ObjLet.Proofs.Simulation.Return
import ObjLet.Proofs.Binding.Uses
import ObjLet.Proofs.Class.Kept
import ObjLet.Proofs.Binding.Reach
import ObjLet.Proofs.Binding.Accounted
import ObjLet.Proofs.Class.Answers
import ObjLet.Proofs.Binding.Frames
import ObjLet.Proofs.Binding.Sites
import ObjLet.Proofs.Binding.Duplicates
import ObjLet.Proofs.Class.First
import ObjLet.Proofs.Binding.First
import ObjLet.Proofs.Code.OutOfLine
import ObjLet.Proofs.Code.Operations
import ObjLet.Proofs.Class.Ancestors
import ObjLet.Proofs.Binding.Later
import ObjLet.Proofs.Binding.Shaped
import ObjLet.Proofs.Typing.Told
import ObjLet.Proofs.Typing.Compared
import ObjLet.Proofs.Code.Reading
import ObjLet.Proofs.Syntax.Numbered
import ObjLet.Proofs.Links.Program
