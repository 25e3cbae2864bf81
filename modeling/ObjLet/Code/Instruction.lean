/-!
# Instructions

The target is a stack machine with one memory, in which the stack grows downwards and the heap
upwards, and with the registers `fp` (frame), `sp` (stack), `hp` (heap), `ra` (return address) and
`tm` (temporary). Code addresses are symbolic: a label stands for the instruction after the place
where it is put.
-/

namespace ObjLet

inductive LabelKind where
  /-- A branch target inside the code of an expression. -/
  | branch
  /-- The entry of a function or a method. -/
  | function
deriving DecidableEq

structure Label where
  kind : LabelKind
  index : Nat
deriving DecidableEq

def LabelKind.text : LabelKind → String
  | branch => "label"
  | function => "function"

def Label.text (l : Label) : String := l.kind.text ++ toString l.index

/-- The registers that can be pushed and popped. -/
inductive Register where
  | fp
  | ra
  | tm
  | hp
deriving DecidableEq

def Register.text : Register → String
  | fp => "fp"
  | ra => "ra"
  | tm => "tm"
  | hp => "hp"

inductive ArithOp where
  | add
  | sub
  | mult
  | div
deriving DecidableEq

def ArithOp.text : ArithOp → String
  | add => "add"
  | sub => "sub"
  | mult => "mult"
  | div => "div"

inductive Instruction where
  | push (value : Int)
  /-- Push the code address of a label. -/
  | pushLabel (label : Label)
  | pop
  /-- Pop `b`, then `a`, and push `a op b`. -/
  | arith (op : ArithOp)
  | branch (target : Label)
  /-- Pop two values and branch if they are equal. -/
  | branchEqual (target : Label)
  /-- Pop `b`, then `a`, and branch if `a ≤ b`. -/
  | branchLessEqual (target : Label)
  /-- Pop a code address, save the address of the next instruction in `ra` and jump. -/
  | jump
  /-- Put a label; nothing is executed. -/
  | place (label : Label)
  /-- Push a register. -/
  | load (r : Register)
  /-- Pop into a register. -/
  | store (r : Register)
  /-- Copy `sp` to `fp`. -/
  | copyFp
  /-- Pop an address and push the word that is there. -/
  | loadWord
  /-- Pop an address, then a value, and store the value there. -/
  | storeWord
  /-- Print the top of the stack, which stays. -/
  | print
  | halt
deriving DecidableEq

namespace Instruction

def mnemonic : Instruction → String
  | push _ | pushLabel _ => "push"
  | pop => "pop"
  | arith op => op.text
  | branch _ => "b"
  | branchEqual _ => "beq"
  | branchLessEqual _ => "bleq"
  | jump => "js"
  | place _ => "label"
  | load r => "l" ++ r.text
  | store r => "s" ++ r.text
  | copyFp => "cfp"
  | loadWord => "lw"
  | storeWord => "sw"
  | print => "print"
  | halt => "halt"

/-- The label that an instruction puts. -/
def placed? : Instruction → Option Label
  | place label => some label
  | _ => none

/-- The label that an instruction refers to. -/
def target? : Instruction → Option Label
  | pushLabel label | branch label | branchEqual label | branchLessEqual label => some label
  | _ => none

/-- The label that an instruction puts or refers to. -/
def label? (i : Instruction) : Option Label := i.placed?.or i.target?

def isPlacement (i : Instruction) : Bool := i.placed?.isSome

/-- A line of assembly. -/
def text : Instruction → String
  | place label => label.text ++ ":"
  | push value => "push " ++ toString value
  | pushLabel label => "push " ++ label.text
  | branch target => "b " ++ target.text
  | branchEqual target => "beq " ++ target.text
  | branchLessEqual target => "bleq " ++ target.text
  | i => i.mnemonic

end Instruction

/-- A sequence of instructions. -/
abbrev Code := List Instruction

end ObjLet
