import ObjLet.Operator
import ObjLet.Span

/-!
# Syntax trees

A program is a block of declarations and a body. Declarations are variables, functions and classes;
a method has the shape of a function, and fields have the shape of parameters.

Every declaration and every use of a name (identifiers, calls, `new`, method calls) carries a
`NodeId`. What is found out about a node is kept in tables keyed by that id, never in the tree.
-/

namespace ObjLet

/-- Identifies a declaration or a use of a name. -/
abbrev NodeId := Nat

/-- How a node id is written in messages. -/
def NodeId.text (id : NodeId) : String := s!"node_{id}"

/-- A name as it stands in the source. -/
structure Name where
  text : String
  span : Span
deriving DecidableEq

/-- A type as written in a declaration; classes are still names. -/
inductive TypeExpr where
  | int
  | bool
  | null
  | ref (cls : Name)
  | arrow (params : List TypeExpr) (ret : TypeExpr)

inductive Literal where
  | int (value : Int)
  | bool (value : Bool)
  | null
deriving DecidableEq

inductive Expr where
  | literal (value : Literal) (span : Span)
  | ident (id : NodeId) (name : Name)
  | call (id : NodeId) (callee : Name) (args : List Expr) (span : Span)
  | new (id : NodeId) (cls : Name) (args : List Expr) (span : Span)
  | methodCall (id : NodeId) (object method : Name) (args : List Expr) (span : Span)
  | binary (op : BinaryOp) (left right : Expr) (span : Span)
  | unary (op : UnaryOp) (operand : Expr) (span : Span)
  | cond (condition thenExpr elseExpr : Expr) (span : Span)
  | print (value : Expr) (span : Span)

/-- Where an expression stands; an identifier stands where its name does. -/
def Expr.span : Expr → Span
  | literal _ span => span
  | ident _ name => name.span
  | call _ _ _ span => span
  | new _ _ _ span => span
  | methodCall _ _ _ _ span => span
  | binary _ _ _ span => span
  | unary _ _ span => span
  | cond _ _ _ span => span
  | print _ span => span

/-- A parameter of a function or a field of a class. -/
structure Param where
  id : NodeId
  name : Name
  type : TypeExpr
  span : Span

mutual

/-- A function or a method: its local declarations are evaluated before its body. -/
structure FunDecl where
  id : NodeId
  name : Name
  params : List Param
  ret : TypeExpr
  decls : List Decl
  body : Expr
  span : Span

/-- A class with an optional superclass. `new` gives every field its value. -/
structure ClassDecl where
  id : NodeId
  name : Name
  superclass : Option Name
  fields : List Param
  methods : List FunDecl
  span : Span

inductive Decl where
  | var (id : NodeId) (name : Name) (type : TypeExpr) (init : Expr) (span : Span)
  | func (f : FunDecl)
  | cls (c : ClassDecl)

end

namespace Decl

def id : Decl → NodeId
  | var id _ _ _ _ => id
  | func f => f.id
  | cls c => c.id

def name : Decl → Name
  | var _ name _ _ _ => name
  | func f => f.name
  | cls c => c.name

def span : Decl → Span
  | var _ _ _ _ span => span
  | func f => f.span
  | cls c => c.span

end Decl

structure Program where
  decls : List Decl
  body : Expr
  span : Span

namespace Program

def hasDecls (p : Program) : Bool := !p.decls.isEmpty

/-- The classes declared in the outermost block, in order. -/
def classes (p : Program) : List ClassDecl :=
  p.decls.filterMap fun
    | .cls c => some c
    | _ => none

end Program

end ObjLet
