import ObjLet.Binding.Program

/-!
# Lexical scoping

What a name stands for, told from its position alone. Around every position of a program stand scopes,
innermost first. Each offers names, in the order in which they are declared:

* a block its parameters and the declarations of it before the position; a function counts from its own
  body on, a variable behind its initializer;
* a class what it inherits, its fields and its methods up to the one around the position.

A name stands for what the innermost scope that offers it declares, and there for what was declared last.
-/

namespace ObjLet

/-- The names that a scope offers, each with the node that declares it. -/
abbrev Names := List (String × NodeId)

/-- The node that a name stands for in a scope. -/
def Names.node? (ns : Names) (name : String) : Option NodeId := ns.reverse.lookup name

/-- Going outward, the level of the first scope that offers a name, and the node there. -/
def lexical? : List Names → String → Option (Nat × NodeId)
  | [], _ => none
  | ns :: outer, name =>
    match ns.node? name with
    | some node => some (outer.length, node)
    | none => lexical? outer name

theorem Names.node?_concat (ns : Names) (n : String) (node : NodeId) (name : String) :
    Names.node? (ns ++ [(n, node)]) name = if n = name then some node else ns.node? name := by
  rw [node?, List.reverse_concat, List.lookup_cons]
  by_cases h : n = name
  · simp [h]
  · rw [if_neg h, beq_false_of_ne (Ne.symm h)]
    rfl

theorem Names.node?_ne_none {ns : Names} {name : String} {node : NodeId} (h : (name, node) ∈ ns) :
    ns.node? name ≠ none := by
  rw [node?, Ne, List.lookup_eq_none_iff]
  intro hnone
  simpa using hnone _ (List.mem_reverse.2 h)

/-! ## What scopes offer -/

def Param.named (p : Param) : String × NodeId := (p.name.text, p.id)

def FunDecl.named (f : FunDecl) : String × NodeId := (f.name.text, f.id)

def Decl.named (d : Decl) : String × NodeId := (d.name.text, d.id)

/-- The scope of a class that inherits the given members, at its methods so far. -/
def ClassDecl.scope (c : ClassDecl) (inherited : Names) (methods : List FunDecl) : Names :=
  inherited ++ c.fields.map Param.named ++ methods.map FunDecl.named

/-- The members of the class of a name among declarations, which are listed from the last to the first. -/
def classMembers : List Decl → String → Names
  | [], _ => []
  | .cls c :: before, name =>
    if c.name.text = name then
      c.scope (c.superclass.elim [] fun sup => classMembers before sup.text) c.methods
    else classMembers before name
  | _ :: before, name => classMembers before name

/-- The members that a class behind other declarations inherits. -/
def ClassDecl.inherited (c : ClassDecl) (before : List Decl) : Names :=
  c.superclass.elim [] fun sup => classMembers before.reverse sup.text

/-! ## Positions -/

/-- The outermost block of a program or that of a function. -/
structure Block where
  params : Names
  /-- What the scopes around the block offer. -/
  outer : List Names
  decls : List Decl
  body : Expr

/-- What the scopes offer behind some declarations of a block. -/
def Block.scopes (b : Block) (before : List Decl) : List Names :=
  (b.params ++ before.map Decl.named) :: b.outer

def FunDecl.block (f : FunDecl) (outer : List Names) : Block :=
  ⟨f.params.map Param.named, outer, f.decls, f.body⟩

def Program.block (p : Program) : Block := ⟨[], [], p.decls, p.body⟩

/-- The blocks of a program. -/
inductive Program.HasBlock (p : Program) : Block → Prop where
  | top : p.HasBlock p.block
  | func {b : Block} {before after : List Decl} {f : FunDecl} (hb : p.HasBlock b)
      (hf : b.decls = before ++ .func f :: after) :
      p.HasBlock (f.block (b.scopes (before ++ [.func f])))
  | method {b : Block} {before after : List Decl} {c : ClassDecl} {pre post : List FunDecl}
      {m : FunDecl} (hb : p.HasBlock b) (hc : b.decls = before ++ .cls c :: after)
      (hm : c.methods = pre ++ m :: post) :
      p.HasBlock
        (m.block (c.scope (c.inherited before) (pre ++ [m]) :: b.scopes (before ++ [.cls c])))

/-- The expressions that an expression is put together from. -/
def Expr.parts : Expr → List Expr
  | .literal _ _ | .ident _ _ => []
  | .call _ _ args _ | .new _ _ args _ | .methodCall _ _ _ args _ => args
  | .binary _ left right _ => [left, right]
  | .unary _ operand _ => [operand]
  | .cond condition thenExpr elseExpr _ => [condition, thenExpr, elseExpr]
  | .print value _ => [value]

/-- An expression of a program, and what the scopes around it offer. -/
inductive Program.Stands (p : Program) : List Names → Expr → Prop where
  | body {b : Block} (hb : p.HasBlock b) : p.Stands (b.scopes b.decls) b.body
  | init {b : Block} {before after : List Decl} {id : NodeId} {name : Name} {type : TypeExpr}
      {init : Expr} {span : Span} (hb : p.HasBlock b)
      (hd : b.decls = before ++ .var id name type init span :: after) : p.Stands (b.scopes before) init
  | part {scopes : List Names} {e e' : Expr} (h : p.Stands scopes e) (he : e' ∈ e.parts) :
      p.Stands scopes e'

/-! ## Static binding -/

/-- A use is bound to the entry of the declaration that lexical scoping selects. -/
structure Resolution.Lexical (r : Resolutions) (scopes : List Names) (name : String)
    (use : Resolution) : Prop where
  useLevel : use.useLevel + 1 = scopes.length
  entry : ∃ node, lexical? scopes name = some (use.entry.level, node) ∧
    r.declaration? node = some use.entry

/-- A `new` is bound to the entry of the class that the outermost block declares with the name. -/
structure Resolution.OfClass (r : Resolutions) (p : Program) (scopes : List Names) (name : String)
    (use : Resolution) : Prop where
  useLevel : use.useLevel + 1 = scopes.length
  level : use.entry.level = 0
  entry : ∃ c ∈ p.classes, c.name.text = name ∧ r.declaration? c.id = some use.entry ∧
    scopes.getLast?.bind (·.node? name) = some c.id

/-- The name that an expression uses, if any, is bound statically. -/
def Expr.Static (r : Resolutions) (p : Program) (scopes : List Names) : Expr → Prop
  | .ident id name | .call id name _ _ =>
    ∃ use, r.use? id = some use ∧ use.Lexical r scopes name.text
  | .new id cls _ _ => ∃ use, r.use? id = some use ∧ use.OfClass r p scopes cls.text
  | .methodCall id object _ _ _ =>
    ∃ call, r.methodCall? id = some call ∧ call.object.Lexical r scopes object.text
  | _ => True

end ObjLet
