import ObjLet.Code.Gen
import ObjLet.Code.Sequence

/-!
# Code of expressions

The code of an expression leaves its value on the stack. Operands are evaluated from left to right,
except that `a >= b` is `b <= a`. The arguments of a call are evaluated from last to first, so that
the first one lies lowest; those of `new` from first to last, so that the last one goes to the heap
first.
-/

namespace ObjLet

/-- How a literal is represented: booleans are 0 and 1, and null is -1, which is no address. -/
def Literal.word : Literal → Int
  | int value => value
  | bool value => if value then 1 else 0
  | null => -1

namespace Code

/-- Call what a name stands for, with its frame on the stack. A method is called on the object
around the caller. -/
def callEntry (entry : Entry) : Code :=
  if entry.kind = .method then dispatchCall entry.offset else valueCall entry.offset

end Code

namespace Expr

open Gen

mutual

/-- The code of an expression; class slots are at offsets from the memory size `mem`. -/
def gen (t : Tables) (mem : Int) : Expr → Gen Code
  | literal value _ => return [.push value.word]
  | ident id name => do
    let use ← t.use id name.span
    if use.entry.kind.isValue then
      return Code.loadValue use.hops use.entry.offset use.entry.ty.words
    else
      fail (.notAValue name.text use.entry.kind) name.span
  | call id callee args _ => do
    let use ← t.use id callee.span
    if use.entry.kind = .cls then
      fail (.classCalled callee.text) callee.span
    else
      let args ← genLastFirst t mem args
      return .load .fp :: args ++ Code.frame use.hops ++ Code.callEntry use.entry
  | new id cls args _ => do
    let use ← t.use id cls.span
    let layout ← orFail (use.entry.declaredClass?.bind t.classes.layout?) (.notAClass cls.text)
      cls.span
    let args ← genFirstLast t mem args
    return args ++ Code.newObject layout.fieldWords (mem + use.entry.offset)
  | methodCall id _ _ args span => do
    let call ← t.methodCall id span
    let args ← genLastFirst t mem args
    return .load .fp :: args ++ Code.frame call.object.hops ++
      Code.loadAt call.object.entry.offset ++ Code.dispatchCall call.method.offset
  | binary .add left right _ => return (← gen t mem left) ++ (← gen t mem right) ++ [.arith .add]
  | binary .sub left right _ => return (← gen t mem left) ++ (← gen t mem right) ++ [.arith .sub]
  | binary .mul left right _ => return (← gen t mem left) ++ (← gen t mem right) ++ [.arith .mult]
  | binary .div left right _ => return (← gen t mem left) ++ (← gen t mem right) ++ [.arith .div]
  | binary .equal left right _ => do
    let left ← gen t mem left
    let right ← gen t mem right
    return left ++ right ++ Code.select (← freshBranch) (← freshBranch) 0 1
  | binary .lessEqual left right _ => do
    let left ← gen t mem left
    let right ← gen t mem right
    return left ++ right ++ Code.lessEqual (← freshBranch) (← freshBranch)
  | binary .greaterEqual left right _ => do
    let right ← gen t mem right
    let left ← gen t mem left
    return right ++ left ++ Code.lessEqual (← freshBranch) (← freshBranch)
  | binary .and left right _ => do
    let decidedLabel ← freshBranch
    let endLabel ← freshBranch
    return Code.shortCircuit decidedLabel endLabel 0 (← gen t mem left) (← gen t mem right)
  | binary .or left right _ => do
    let decidedLabel ← freshBranch
    let endLabel ← freshBranch
    return Code.shortCircuit decidedLabel endLabel 1 (← gen t mem left) (← gen t mem right)
  | unary .not operand _ => do
    let operand ← gen t mem operand
    return operand ++ [.push 0] ++ Code.select (← freshBranch) (← freshBranch) 0 1
  | cond condition thenExpr elseExpr _ => do
    let thenLabel ← freshBranch
    let endLabel ← freshBranch
    let condition ← gen t mem condition
    let elseCode ← gen t mem elseExpr
    let thenCode ← gen t mem thenExpr
    return Code.cond thenLabel endLabel condition thenCode elseCode
  | print value _ => return (← gen t mem value) ++ [.print]

/-- The code of expressions, from the first to the last. -/
def genFirstLast (t : Tables) (mem : Int) : List Expr → Gen Code
  | [] => return []
  | e :: es => do
    let first ← gen t mem e
    return first ++ (← genFirstLast t mem es)

/-- The code of expressions, from the last to the first. -/
def genLastFirst (t : Tables) (mem : Int) : List Expr → Gen Code
  | [] => return []
  | e :: es => do
    let others ← genLastFirst t mem es
    return others ++ (← gen t mem e)

end

end Expr

end ObjLet
