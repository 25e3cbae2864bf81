import Mathlib.Data.List.Nodup
import Mathlib.Data.List.Perm.Basic
import Mathlib.Logic.Relation
import ObjLet.Proofs.Binding.Recorded
import ObjLet.Syntax.Builder

/-!
# Trees are numbered

A tree is assembled by operations of one new builder, from the leaves upwards and in any order: every node is
made of nodes that are ready, and uses them up. If nothing but a program is ready in the end, its ids are the
numbers that were handed out, each once, in the order in which the nodes were finished (`Program.numbered`).

After any operations, the nodes that are ready hold the numbers so far, and in each of them ids increase from
the leaves upwards (`Builder.Tally`).
-/

namespace ObjLet

open scoped List

/-! ## Nodes -/

inductive Node where
  /-- A parameter or a field. -/
  | param (p : Param)
  | expr (e : Expr)
  /-- A method. -/
  | method (f : FunDecl)
  | decl (d : Decl)
  | program (p : Program)

/-- The id of a use of a name. -/
def Expr.id? : Expr → Option NodeId
  | ident id _ | call id _ _ _ | new id _ _ _ | methodCall id _ _ _ _ => some id
  | _ => none

def Expr.children : Expr → List Node
  | literal _ _ | ident _ _ => []
  | call _ _ args _ | new _ _ args _ | methodCall _ _ _ args _ => args.map .expr
  | binary _ left right _ => [.expr left, .expr right]
  | unary _ operand _ => [.expr operand]
  | cond condition thenExpr elseExpr _ => [.expr condition, .expr thenExpr, .expr elseExpr]
  | print value _ => [.expr value]

def FunDecl.children (f : FunDecl) : List Node :=
  f.params.map .param ++ f.decls.map .decl ++ [.expr f.body]

def Decl.children : Decl → List Node
  | var _ _ _ init _ => [.expr init]
  | func f => f.children
  | cls c => c.fields.map .param ++ c.methods.map .method

namespace Node

/-- The id of a declaration or a use. -/
def id? : Node → Option NodeId
  | param p => some p.id
  | expr e => e.id?
  | method f => some f.id
  | decl d => some d.id
  | program _ => none

/-- The nodes that a node is made of. -/
def children : Node → List Node
  | param _ => []
  | expr e => e.children
  | method f => f.children
  | decl d => d.children
  | program p => p.decls.map .decl ++ [.expr p.body]

/-- The ids of a node and of all nodes below it. -/
def ids : Node → List NodeId
  | param p => [p.id]
  | expr e => e.ids
  | method f => f.ids
  | decl d => d.ids
  | program p => p.ids

/-- A node is another node or stands somewhere below it. -/
def Within : Node → Node → Prop := Relation.ReflTransGen fun y x => y ∈ x.children

/-- A node stands somewhere below another one. -/
def Below : Node → Node → Prop := Relation.TransGen fun y x => y ∈ x.children

/-- In a node, every id is larger than the ids below it. -/
def Ordered (x : Node) : Prop :=
  ∀ y z : Node, y.Within x → z.Below y → ∀ i ∈ y.id?, ∀ j ∈ z.id?, j < i

end Node

/-! ## Ids, node by node -/

theorem Expr.idsAll_eq_flatMap (es : List Expr) : idsAll es = (es.map Node.expr).flatMap Node.ids := by
  induction es with
  | nil => rfl
  | cons e es ih => exact congrArg (e.ids ++ ·) ih

theorem Decl.idsAll_eq_flatMap (ds : List Decl) : idsAll ds = (ds.map Node.decl).flatMap Node.ids := by
  induction ds with
  | nil => rfl
  | cons d ds ih => exact congrArg (d.ids ++ ·) ih

theorem FunDecl.idsAll_eq_flatMap (ms : List FunDecl) : idsAll ms = (ms.map Node.method).flatMap Node.ids := by
  induction ms with
  | nil => rfl
  | cons m ms ih => exact congrArg (m.ids ++ ·) ih

theorem Param.ids_eq_flatMap (ps : List Param) : ps.map (·.id) = (ps.map Node.param).flatMap Node.ids := by
  induction ps with
  | nil => rfl
  | cons p ps ih => exact congrArg (p.id :: ·) ih

theorem FunDecl.ids_eq_flatMap (f : FunDecl) : f.ids = f.id :: f.children.flatMap Node.ids := by
  obtain ⟨id, name, params, ret, decls, body, span⟩ := f
  simp only [FunDecl.ids, FunDecl.children, List.flatMap_append, ← Param.ids_eq_flatMap, ← Decl.idsAll_eq_flatMap]
  simp [Node.ids]

namespace Node

/-- The ids in a node are its own id and those in its children, in some order. -/
theorem ids_perm (x : Node) : x.ids ~ x.id?.toList ++ x.children.flatMap Node.ids := by
  cases x with
  | param p => exact .refl _
  | expr e =>
    cases e with
    | new id cls args span | methodCall id object method args span =>
      -- The arguments of `new` and of method calls are numbered first, those of other calls behind.
      simp only [ids, Expr.ids, Expr.idsAll_eq_flatMap]
      exact List.perm_append_comm
    | call id callee args span =>
      simp only [ids, Expr.ids, Expr.idsAll_eq_flatMap]
      exact .refl _
    | _ => simp [ids, Expr.ids, id?, Expr.id?, children, Expr.children]
  | method f => exact .of_eq f.ids_eq_flatMap
  | decl d =>
    cases d with
    | var id name type init span =>
      simp only [ids, Decl.ids, id?, Decl.id, children, Decl.children, List.flatMap_singleton]
      exact List.perm_append_comm
    | func f => exact .of_eq f.ids_eq_flatMap
    | cls c =>
      obtain ⟨id, name, superclass, fields, methods, span⟩ := c
      simp only [ids, Decl.ids, Param.ids_eq_flatMap, FunDecl.idsAll_eq_flatMap, children, Decl.children,
        List.flatMap_append]
      exact .refl _
  | program p => simp [ids, Program.ids, id?, children, Decl.idsAll_eq_flatMap]

/-- The same of nodes side by side: their own ids can be put first. -/
theorem flatMap_ids_perm (xs : List Node) :
    xs.flatMap ids ~ xs.filterMap id? ++ (xs.flatMap children).flatMap ids := calc
  xs.flatMap ids ~ xs.flatMap fun x => x.id?.toList ++ x.children.flatMap ids := .flatMap_left _ fun x _ => x.ids_perm
  _ ~ (xs.flatMap fun x => x.id?.toList) ++ xs.flatMap fun x => x.children.flatMap ids :=
    (List.flatMap_append_perm ..).symm
  _ = xs.filterMap id? ++ (xs.flatMap children).flatMap ids := by
    rw [List.filterMap_eq_flatMap_toList, List.flatMap_assoc]

/-- The id of a node is one of the ids of any node that it is part of. -/
theorem mem_ids_of_within {x y : Node} (h : y.Within x) {j : NodeId} (hj : j ∈ y.id?) : j ∈ x.ids := by
  induction h with
  | refl => exact y.ids_perm.mem_iff.2 (List.mem_append_left _ (Option.mem_toList.2 hj))
  | @tail c x _ hc ih => exact x.ids_perm.mem_iff.2 (List.mem_append_right _ (List.mem_flatMap.2 ⟨c, hc, ih⟩))

/-- A node is ordered if its children are and its own id is larger than all ids in them. -/
theorem Ordered.of_children {x : Node} (h : ∀ c ∈ x.children, c.Ordered)
    (hid : ∀ i ∈ x.id?, ∀ c ∈ x.children, ∀ j ∈ c.ids, j < i) : x.Ordered := by
  intro y z hy hz i hi j hj
  rcases hy.cases_tail with rfl | ⟨c, hy, hc⟩
  · obtain ⟨c, hz, hc⟩ := Relation.TransGen.tail'_iff.1 hz
    exact hid i hi c hc j (mem_ids_of_within hz hj)
  · exact h c hc y z hy hz i hi j hj

end Node

/-! ## Assembling -/

namespace Builder

/-- What a builder is asked for. A function that is declared and a method are built alike, as are a parameter and a
field. -/
inductive Operation where
  | atLine (line : Nat)
  | program (decls : List Decl) (body : Expr)
  | bareProgram (body : Expr)
  | var (text : String) (type : TypeExpr) (init : Expr)
  | func (text : String) (params : List Param) (ret : TypeExpr) (decls : List Decl) (body : Expr)
  | method (text : String) (params : List Param) (ret : TypeExpr) (decls : List Decl) (body : Expr)
  | param (text : String) (type : TypeExpr)
  | cls (text : String) (superclass : Option String) (fields : List Param) (methods : List FunDecl)
  | refType (name : String)
  | literal (value : Literal)
  | ident (text : String)
  | call (callee : String) (args : List Expr)
  | new (name : String) (args : List Expr)
  | methodCall (object name : String) (args : List Expr)
  | binary (op : BinaryOp) (left right : Expr)
  | unary (op : UnaryOp) (operand : Expr)
  | cond (condition thenExpr elseExpr : Expr)
  | print (value : Expr)

namespace Operation

/-- What an operation does, with the node that it finishes. Types are no nodes: they hold no ids, and one type may
be written into many nodes. -/
def perform : Operation → Build (List Node)
  | atLine line => do
    Build.atLine line
    return []
  | program decls body => return [.program (← Build.program decls body)]
  | bareProgram body => return [.program (← Build.bareProgram body)]
  | var text type init => return [.decl (← Build.var text type init)]
  | func text params ret decls body => return [.decl (.func (← Build.function text params ret decls body))]
  | method text params ret decls body => return [.method (← Build.function text params ret decls body)]
  | param text type => return [.param (← Build.param text type)]
  | cls text superclass fields methods => return [.decl (.cls (← Build.cls text superclass fields methods))]
  | refType name => do
    let _ ← Build.refType name
    return []
  | literal value => return [.expr (← Build.literal value)]
  | ident text => return [.expr (← Build.ident text)]
  | call callee args => return [.expr (← Build.call callee args)]
  | new name args => return [.expr (← Build.new name args)]
  | methodCall object name args => return [.expr (← Build.methodCall object name args)]
  | binary op left right => return [.expr (← Build.binary op left right)]
  | unary op operand => return [.expr (← Build.unary op operand)]
  | cond condition thenExpr elseExpr => return [.expr (← Build.cond condition thenExpr elseExpr)]
  | print value => return [.expr (← Build.print value)]

/-- A declaration or a use of a name is built. -/
def isNumbered : Operation → Bool
  | var .. | func .. | method .. | param .. | cls .. | ident .. | call .. | new .. | methodCall .. => true
  | _ => false

/-- An operation takes one id or none. -/
theorem nextId_perform (op : Operation) (b : Builder) :
    (op.perform.run b).2.nextId = b.nextId + [op].countP isNumbered := by
  cases op with
  | cls text superclass fields methods => cases superclass <;> rfl
  | _ => rfl

/-- The ids of the nodes that an operation finishes are those that it takes. -/
theorem range_perform (op : Operation) (b : Builder) :
    List.range (op.perform.run b).2.nextId = List.range b.nextId ++ (op.perform.run b).1.filterMap Node.id? := by
  rw [nextId_perform]
  cases op with
  | cls text superclass fields methods => cases superclass <;> exact List.range_succ
  | var | func | method | param | ident | call | new | methodCall => exact List.range_succ
  | _ => exact (List.append_nil _).symm

/-- Ids that were handed out before are not taken again. -/
theorem le_of_mem_perform {op : Operation} {b : Builder} {x : Node} (hx : x ∈ (op.perform.run b).1) {i : NodeId}
    (hi : i ∈ x.id?) : b.nextId ≤ i := by
  have hnodup : (List.range b.nextId ++ (op.perform.run b).1.filterMap Node.id?).Nodup :=
    op.range_perform b ▸ List.nodup_range
  have hmem : i ∈ (op.perform.run b).1.filterMap Node.id? := List.mem_filterMap.2 ⟨x, hx, hi⟩
  by_contra hlt
  exact (List.nodup_append.1 hnodup).2.2 i (List.mem_range.2 (Nat.lt_of_not_le hlt)) i hmem rfl

end Operation

/-- What operations make of a new builder. Of the nodes that were finished, in order, some are ready to be used:
a node is made of nodes that are ready, each of which is used up. -/
inductive Assembles : List Operation → Builder → List Node → List Node → Prop where
  | start : Assembles [] {} [] []
  | step {ops : List Operation} {b : Builder} {finished ready rest : List Node} (op : Operation) :
    Assembles ops b finished ready → ready ~ (op.perform.run b).1.flatMap Node.children ++ rest →
      Assembles (ops ++ [op]) (op.perform.run b).2 (finished ++ (op.perform.run b).1)
        ((op.perform.run b).1 ++ rest)

/-- How ids and nodes stand after some operations. -/
structure Tally (ops : List Operation) (b : Builder) (finished ready : List Node) : Prop where
  taken : b.nextId = ops.countP Operation.isNumbered
  finished_ids : finished.filterMap Node.id? = List.range b.nextId
  ready_ids : ready.flatMap Node.ids ~ List.range b.nextId
  ordered : ∀ x ∈ ready, x.Ordered
  mem_finished : ∀ x, x ∈ finished ↔ ∃ y ∈ ready, x.Within y

namespace Tally

variable {ops : List Operation} {b : Builder} {finished ready rest : List Node}

theorem start : Tally [] {} [] [] where
  taken := rfl
  finished_ids := rfl
  ready_ids := .refl _
  ordered := nofun
  mem_finished := by simp

/-- The ids in what is ready have been handed out. -/
theorem lt_of_ready (h : Tally ops b finished ready) {x : Node} (hx : x ∈ ready) {j : NodeId} (hj : j ∈ x.ids) :
    j < b.nextId :=
  List.mem_range.1 (h.ready_ids.mem_iff.1 (List.mem_flatMap.2 ⟨x, hx, hj⟩))

/-- One more operation. What it uses up goes into the node that it makes, so no id is lost and none comes twice. -/
theorem step (h : Tally ops b finished ready) (op : Operation)
    (hused : ready ~ (op.perform.run b).1.flatMap Node.children ++ rest) :
    Tally (ops ++ [op]) (op.perform.run b).2 (finished ++ (op.perform.run b).1) ((op.perform.run b).1 ++ rest) := by
  have hchild {x c : Node} (hx : x ∈ (op.perform.run b).1) (hc : c ∈ x.children) : c ∈ ready :=
    hused.mem_iff.2 (List.mem_append_left _ (List.mem_flatMap.2 ⟨x, hx, hc⟩))
  have hrest {x : Node} (hx : x ∈ rest) : x ∈ ready := hused.mem_iff.2 (List.mem_append_right _ hx)
  constructor
  case taken => rw [op.nextId_perform, List.countP_append, h.taken]
  case finished_ids => rw [List.filterMap_append, h.finished_ids, op.range_perform]
  case ready_ids =>
    rw [op.range_perform, List.flatMap_append]
    -- Ids of what was used up are those of the children of what is made.
    generalize (op.perform.run b).1 = made at hused
    have hready : ready.flatMap Node.ids ~ (made.flatMap Node.children).flatMap Node.ids ++ rest.flatMap Node.ids :=
      List.flatMap_append ▸ hused.flatMap_right _
    calc
      made.flatMap Node.ids ++ rest.flatMap Node.ids
      _ ~ made.filterMap Node.id? ++ (made.flatMap Node.children).flatMap Node.ids ++ rest.flatMap Node.ids :=
        (Node.flatMap_ids_perm made).append_right _
      _ = made.filterMap Node.id? ++ ((made.flatMap Node.children).flatMap Node.ids ++ rest.flatMap Node.ids) :=
        List.append_assoc ..
      _ ~ made.filterMap Node.id? ++ List.range b.nextId := (hready.symm.trans h.ready_ids).append_left _
      _ ~ List.range b.nextId ++ made.filterMap Node.id? := List.perm_append_comm
  case ordered =>
    intro x hx
    rcases List.mem_append.1 hx with hx | hx
    · -- h.ordered c (hchild hx hc)) fun i hi c hc j hj => ?_ => A new node takes the next id, which is larger
      -- than all that were handed out.
      refine .of_children (fun c hc => h.ordered c (hchild hx hc)) fun i hi c hc j hj => ?_
      exact Nat.lt_of_lt_of_le (h.lt_of_ready (hchild hx hc) hj) (Operation.le_of_mem_perform hx hi)
    · exact h.ordered x (hrest hx)
  case mem_finished =>
    intro x
    rw [List.mem_append, h.mem_finished]
    constructor
    · rintro (⟨y, hy, hxy⟩ | hx)
      · -- What was ready is still ready or has been used up, and then it is within the new node.
        rcases List.mem_append.1 (hused.mem_iff.1 hy) with hy | hy
        · obtain ⟨z, hz, hyz⟩ := List.mem_flatMap.1 hy
          exact ⟨z, List.mem_append_left _ hz, hxy.tail hyz⟩
        · exact ⟨y, List.mem_append_right _ hy, hxy⟩
      · exact ⟨x, List.mem_append_left _ hx, .refl⟩
    · rintro ⟨y, hy, hxy⟩
      rcases List.mem_append.1 hy with hy | hy
      · rcases hxy.cases_tail with rfl | ⟨c, hxc, hc⟩
        · exact .inr hy
        · exact .inl ⟨c, hchild hy hc, hxc⟩
      · exact .inl ⟨y, hrest hy, hxy⟩

end Tally

/-- By induction on the operations. -/
theorem Assembles.tally {ops : List Operation} {b : Builder} {finished ready : List Node}
    (h : Assembles ops b finished ready) : Tally ops b finished ready := by
  induction h with
  | start => exact .start
  | step op _ hused ih => exact ih.step op hused

end Builder

/-! ## Programs -/

/-- The ids of a program that operations made with a builder `b`, which finished `finished` in order. -/
structure Program.Numbered (p : Program) (ops : List Builder.Operation) (b : Builder) (finished : List Node) :
    Prop where
  /-- What was finished is the program and what it is made of. -/
  mem_finished : ∀ x, x ∈ finished ↔ x.Within (.program p)
  /-- Nodes are numbered in the order in which they are finished. -/
  in_order : finished.filterMap Node.id? = List.range b.nextId
  /-- Only declarations and uses of names take an id. -/
  taken : b.nextId = ops.countP Builder.Operation.isNumbered
  nodup : p.ids.Nodup
  perm : p.ids ~ List.range b.nextId
  /-- Every id is larger than the ids below it. -/
  ordered : (Node.program p).Ordered

/-- However a program is assembled with one new builder, its ids are a numbering of its declarations and uses. -/
theorem Program.numbered {ops : List Builder.Operation} {b : Builder} {finished : List Node} {p : Program}
    (h : Builder.Assembles ops b finished [.program p]) : p.Numbered ops b finished := by
  have ht := h.tally
  have hperm : p.ids ~ List.range b.nextId := by simpa [Node.ids] using ht.ready_ids
  exact
    { mem_finished := by simpa using ht.mem_finished
      in_order := ht.finished_ids
      taken := ht.taken
      nodup := hperm.nodup_iff.2 List.nodup_range
      perm := hperm
      ordered := ht.ordered _ List.mem_cons_self }

/-! A program that is not assembled from left to right: the body and an argument in it are finished before the class,
and the body of the method before the field. -/

namespace Scattered

def one : Expr := .literal (.int 1) (.ofLine 4)

def x : Expr := .ident 0 ⟨"x", .ofLine 4⟩

def field : Param := ⟨1, ⟨"x", .ofLine 4⟩, .int, .ofLine 4⟩

def get : FunDecl := ⟨2, ⟨"get", .ofLine 2⟩, [], .int, [], x, .ofLine 2⟩

def body : Expr := .new 3 ⟨"A", .ofLine 2⟩ [one] (.ofLine 2)

def cls : ClassDecl := ⟨4, ⟨"A", .ofLine 2⟩, none, [field], [get], .ofLine 2⟩

def program : Program := ⟨[.cls cls], body, .ofLine 2⟩

def operations : List Builder.Operation :=
  [.atLine 4, .literal (.int 1), .ident "x", .param "x" .int, .atLine 2, .method "get" [] .int [] x,
    .new "A" [one], .cls "A" none [field] [get], .program [.cls cls] body]

def finished : List Node :=
  [.expr one, .expr x, .param field, .method get, .expr body, .decl (.cls cls), .program program]

theorem assembles : Builder.Assembles operations ⟨5, 2⟩ finished [.program program] := by
  have hleaves : Builder.Assembles (operations.take 5) ⟨2, 2⟩ [.expr one, .expr x, .param field]
      [.param field, .expr x, .expr one] :=
    ((((Builder.Assembles.start.step (.atLine 4) (.refl _)).step (.literal (.int 1)) (.refl _)).step
      (.ident "x") (.refl _)).step (.param "x" .int) (.refl _)).step (.atLine 2) (.refl _)
  have hget := hleaves.step (.method "get" [] .int [] x) (.swap ..)
  -- Nodes that are ready may be used in any order.
  have hbody := hget.step (.new "A" [one]) (@List.perm_append_comm Node [.method get, .param field] [.expr one])
  have hcls := hbody.step (.cls "A" none [field] [get]) (List.reverse_perm _).symm
  exact hcls.step (.program [.cls cls] body) (.refl _)

end Scattered

/-- What is required can be met, and the ids are then not in the order of the text. -/
theorem Program.numbered_scattered :
    Builder.Assembles Scattered.operations ⟨5, 2⟩ Scattered.finished [.program Scattered.program] ∧
      Scattered.program.Numbered Scattered.operations ⟨5, 2⟩ Scattered.finished ∧
        Scattered.program.ids = [4, 1, 2, 0, 3] :=
  ⟨Scattered.assembles, numbered Scattered.assembles, rfl⟩

end ObjLet
