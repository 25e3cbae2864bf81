/-!
# Operators

Binary operators fall into three disjoint families: arithmetic, logical and comparison. The logical
ones do not evaluate their right operand when the left one decides.
-/

namespace ObjLet

inductive BinaryOp where
  | add | sub | mul | div
  | equal | lessEqual | greaterEqual
  | and | or
deriving DecidableEq

inductive UnaryOp where
  | not
deriving DecidableEq

namespace BinaryOp

def text : BinaryOp → String
  | add => "+"
  | sub => "-"
  | mul => "*"
  | div => "/"
  | equal => "=="
  | lessEqual => "<="
  | greaterEqual => ">="
  | and => "&&"
  | or => "||"

/-- Integer operands, integer result. -/
def isArithmetic : BinaryOp → Bool
  | add | sub | mul | div => true
  | _ => false

/-- Boolean operands, boolean result. -/
def isLogical : BinaryOp → Bool
  | and | or => true
  | _ => false

/-- Boolean result. -/
def isComparison : BinaryOp → Bool
  | equal | lessEqual | greaterEqual => true
  | _ => false

end BinaryOp

def UnaryOp.text : UnaryOp → String
  | not => "!"

end ObjLet
