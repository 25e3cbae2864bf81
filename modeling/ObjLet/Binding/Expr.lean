import ObjLet.Binding.Env

/-!
# Binding in expressions

An expression declares nothing, so its findings depend on the environment only. A call binds its
callee before its arguments; `new` and method calls bind their arguments first.
-/

namespace ObjLet

namespace Expr

mutual

/-- What the names in an expression are bound to. -/
def findings (env : Env) : Expr → Findings
  | literal _ _ => []
  | ident id name => [env.bindName id name]
  | call id callee args _ => env.bindName id callee :: findingsAll env args
  | new id cls args _ => findingsAll env args ++ [env.bindNew id cls]
  | methodCall id object method args _ =>
    findingsAll env args ++ [env.bindMethodCall id object method]
  | binary _ left right _ => findings env left ++ findings env right
  | unary _ operand _ => findings env operand
  | cond condition thenExpr elseExpr _ =>
    findings env condition ++ findings env thenExpr ++ findings env elseExpr
  | print value _ => findings env value

def findingsAll (env : Env) : List Expr → Findings
  | [] => []
  | e :: es => findings env e ++ findingsAll env es

end

theorem findingsAll_eq_flatMap (env : Env) (es : List Expr) :
    findingsAll env es = es.flatMap (findings env) := by
  induction es with
  | nil => rfl
  | cons e es ih => simp [findingsAll, ih]

end Expr

end ObjLet
