import ObjLet.Code.Instruction

/-!
# Code units

The code of a program: the main part, which ends with `halt`, and then the functions and methods,
each of which starts with its label. Written out, every instruction and every label is a line.
-/

namespace ObjLet

structure CodeUnit where
  code : Code
deriving DecidableEq

namespace CodeUnit

/-- Number of instructions that are executed, labels left out. -/
def size (u : CodeUnit) : Nat := u.code.countP (!·.isPlacement)

def isEmpty (u : CodeUnit) : Bool := u.size == 0

/-- The labels put in the unit, in order. -/
def labels (u : CodeUnit) : List Label := u.code.filterMap Instruction.placed?

/-- Number of functions and methods. -/
def functionCount (u : CodeUnit) : Nat := u.labels.countP (·.kind == .function)

/-- The assembly text. -/
def text (u : CodeUnit) : String := String.join (u.code.map fun i => i.text ++ "\n")

end CodeUnit

end ObjLet
