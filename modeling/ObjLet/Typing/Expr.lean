import ObjLet.Class.Subtype
import ObjLet.Error.Semantic
import ObjLet.Tables

/-!
# Types of expressions

`type?` gives the type of an expression and `typeErrors` what is wrong in it, its parts from left to
right and then itself. An expression whose type cannot be told has none. A missing type fits, so
that one mistake is reported once.
-/

namespace ObjLet

/-- The type of both operands. The operands of `==` only have to be related. -/
def BinaryOp.operandType? : BinaryOp → Option Ty
  | add | sub | mul | div | lessEqual | greaterEqual => some .int
  | and | or => some .bool
  | equal => none

def BinaryOp.resultType (op : BinaryOp) : Ty :=
  if op.isArithmetic then .int else .bool

def Literal.type : Literal → Ty
  | int _ => .int
  | bool _ => .bool
  | null => .null

namespace Tables

/-- A problem with both types unless `sub` is a subtype of `sup`. -/
def require (t : Tables) (sub sup : Ty) (problem : TypeName → TypeName → Problem) (span : Span) :
    SemanticErrors :=
  if t.classes.isSubtype sub sup then []
  else [⟨problem (t.classes.typeName sub) (t.classes.typeName sup), span⟩]

/-- A mismatch unless a value, where its type is known, fits the expected type. -/
def fit (t : Tables) (expected : Ty) (found : Option Ty)
    (mismatch : (expected found : TypeName) → Mismatch) (span : Span) : SemanticErrors :=
  match found with
  | none => []
  | some ty => t.require ty expected (fun f e => .typeMismatch (mismatch e f)) span

/-- What is wrong with arguments: their number or else the type of each. -/
def fitArgs (t : Tables) (callee : String) (params : List Ty) (args : List (Option Ty))
    (span : Span) : SemanticErrors :=
  if params.length = args.length then
    (params.zip args).zipIdx.flatMap fun ((param, arg), i) =>
      t.fit param arg (.argument (i + 1) callee) span
  else [⟨.argumentCount callee params.length args.length, span⟩]

/-- Function values cannot be compared, and other values only with values of a related type. -/
def comparable (t : Tables) (a b : Ty) : Bool :=
  !a.isArrow && !b.isArrow && (t.classes.isSubtype a b || t.classes.isSubtype b a)

def fitComparison (t : Tables) (left right : Option Ty) (span : Span) : SemanticErrors :=
  match left, right with
  | some l, some r =>
    if t.comparable l r then []
    else [⟨.typeMismatch (.comparison (t.classes.typeName l) (t.classes.typeName r)), span⟩]
  | _, _ => []

/-- What is wrong with the operands of an operator: the left one first. -/
def fitOperands (t : Tables) (op : BinaryOp) (left right : Option Ty) (span : Span) :
    SemanticErrors :=
  match op.operandType? with
  | some ty => t.fit ty left (.operand op.text) span ++ t.fit ty right (.operand op.text) span
  | none => t.fitComparison left right span

/-- Both branches of a conditional need a common supertype. -/
def fitBranches (t : Tables) (thenType elseType : Option Ty) (span : Span) : SemanticErrors :=
  match thenType, elseType with
  | some a, some b =>
    if (t.classes.join? a b).isSome then []
    else [⟨.typeMismatch (.branches (t.classes.typeName a) (t.classes.typeName b)), span⟩]
  | _, _ => []

/-- The class that a `new` was bound to. -/
def newClass? (t : Tables) (id : NodeId) : Option ClassLayout := do
  let cls ← (← t.resolutions.use? id).entry.declaredClass?
  t.classes.layout? cls

/-- The signature of the method that a method call was bound to. -/
def methodSignature? (t : Tables) (id : NodeId) : Option Signature := do
  Ty.signature? (← t.resolutions.methodCall? id).method.ty

end Tables

namespace Expr

/-- The type of an expression, as far as its names have one. -/
def type? (t : Tables) : Expr → Option Ty
  | literal value _ => some value.type
  | ident id _ => do
    let use ← t.resolutions.use? id
    if use.entry.kind.isValue then some use.entry.ty else none
  | call id _ _ _ => do return (← Ty.signature? (← t.resolutions.use? id).entry.ty).ret
  | new id _ _ _ => do
    let cls ← (← t.resolutions.use? id).entry.declaredClass?
    if (t.classes.layout? cls).isSome then some (.ref cls) else none
  | methodCall id _ _ _ _ => do return (← t.methodSignature? id).ret
  | binary op _ _ _ => some op.resultType
  | unary .not _ _ => some .bool
  | cond _ thenExpr elseExpr _ => do t.classes.join? (← type? t thenExpr) (← type? t elseExpr)
  | print value _ => type? t value

mutual

/-- What is wrong in an expression. -/
def typeErrors (t : Tables) : Expr → SemanticErrors
  | literal _ _ => []
  | ident id name =>
    match t.resolutions.use? id with
    | some use => if use.entry.kind.isValue then [] else [⟨.notAValue name.text, name.span⟩]
    | none => []
  | call id callee args span =>
    typeErrorsAll t args ++
      match t.resolutions.use? id with
      | none => []
      | some use =>
        match Ty.signature? use.entry.ty with
        | some sig => t.fitArgs callee.text sig.params (args.map (type? t)) span
        | none => [⟨.notCallable callee.text, callee.span⟩]
  | new id cls args span =>
    typeErrorsAll t args ++
      match t.newClass? id with
      | some layout => t.fitArgs cls.text layout.fields (args.map (type? t)) span
      | none => []
  | methodCall id _ method args span =>
    typeErrorsAll t args ++
      match t.methodSignature? id with
      | some sig => t.fitArgs method.text sig.params (args.map (type? t)) span
      | none => []
  | binary op left right span =>
    typeErrors t left ++ typeErrors t right ++
      t.fitOperands op (type? t left) (type? t right) span
  | unary op operand span =>
    typeErrors t operand ++ t.fit .bool (type? t operand) (.operand op.text) span
  | cond condition thenExpr elseExpr span =>
    typeErrors t condition ++
      t.fit .bool (type? t condition) (fun _ found => .condition found) condition.span ++
      typeErrors t thenExpr ++ typeErrors t elseExpr ++
      t.fitBranches (type? t thenExpr) (type? t elseExpr) span
  | print value _ => typeErrors t value

def typeErrorsAll (t : Tables) : List Expr → SemanticErrors
  | [] => []
  | e :: es => typeErrors t e ++ typeErrorsAll t es

end

theorem typeErrorsAll_eq_flatMap (t : Tables) (es : List Expr) :
    typeErrorsAll t es = es.flatMap (typeErrors t) := by
  induction es with
  | nil => rfl
  | cons e es ih => simp [typeErrorsAll, ih]

end Expr

end ObjLet
