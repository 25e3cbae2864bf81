import ObjLet.Syntax

/-!
# Building trees

A `Builder` hands out node ids in order and remembers the line that new nodes stand on. The line
stays in force until the next `atLine`. Nodes are built from finished parts, so the id of a node is
larger than the ids of the nodes inside it; literals, operators, conditionals, `print` and types
take no id.
-/

namespace ObjLet

/-- What is carried from node to node while a tree is built. -/
structure Builder where
  /-- The next id, which is also the number of ids handed out. -/
  nextId : NodeId := 0
  line : Nat := 1

/-- A step of building: it may take ids and move to another line. -/
abbrev Build := StateM Builder

namespace Build

/-- Nodes built from now on stand on `line`. -/
def atLine (line : Nat) : Build Unit :=
  modify fun b => { b with line }

/-- Take the next node id. -/
def freshId : Build NodeId :=
  modifyGet fun b => (b.nextId, { b with nextId := b.nextId + 1 })

/-- The position given to everything built on the current line. -/
def here : Build Span :=
  return Span.ofLine (← get).line

def name (text : String) : Build Name :=
  return ⟨text, ← here⟩

/-! ## Declarations -/

def program (decls : List Decl) (body : Expr) : Build Program :=
  return ⟨decls, body, ← here⟩

/-- A program without declarations. -/
def bareProgram (body : Expr) : Build Program := program [] body

def var (text : String) (type : TypeExpr) (init : Expr) : Build Decl :=
  return .var (← freshId) (← name text) type init (← here)

/-- A parameter of a function or a field of a class. -/
def param (text : String) (type : TypeExpr) : Build Param :=
  return ⟨← freshId, ← name text, type, ← here⟩

/-- A function or a method. -/
def function (text : String) (params : List Param) (ret : TypeExpr) (decls : List Decl)
    (body : Expr) : Build FunDecl :=
  return ⟨← freshId, ← name text, params, ret, decls, body, ← here⟩

def cls (text : String) (superclass : Option String) (fields : List Param)
    (methods : List FunDecl) : Build ClassDecl :=
  return ⟨← freshId, ← name text, ← superclass.mapM name, fields, methods, ← here⟩

/-! ## Types -/

def refType (cls : String) : Build TypeExpr :=
  return .ref (← name cls)

/-! ## Expressions -/

def literal (value : Literal) : Build Expr :=
  return .literal value (← here)

def ident (text : String) : Build Expr :=
  return .ident (← freshId) (← name text)

def call (callee : String) (args : List Expr) : Build Expr :=
  return .call (← freshId) (← name callee) args (← here)

def new (cls : String) (args : List Expr) : Build Expr :=
  return .new (← freshId) (← name cls) args (← here)

def methodCall (object method : String) (args : List Expr) : Build Expr :=
  return .methodCall (← freshId) (← name object) (← name method) args (← here)

def binary (op : BinaryOp) (left right : Expr) : Build Expr :=
  return .binary op left right (← here)

def unary (op : UnaryOp) (operand : Expr) : Build Expr :=
  return .unary op operand (← here)

def cond (condition thenExpr elseExpr : Expr) : Build Expr :=
  return .cond condition thenExpr elseExpr (← here)

def print (value : Expr) : Build Expr :=
  return .print value (← here)

end Build

end ObjLet
