import Mathlib.Algebra.GroupWithZero.Nat
import Mathlib.Data.List.Forall2
import ObjLet.Proofs.Machine.Trace
import ObjLet.Code.Program

/-!
# Code with its marks

`Expr.Coded`, `Decl.Coded` and `FunDecl.Coded` say which code belongs to a tree, without regard to the
labels that its parts take, and which of its instructions are marked: the last one on the way to a frame or
object, the last one of a `new`, and the one that sets up the frame of a function.

`At l code` stands for the code of a function with its entry at the label `l`, and `dispatch` for the finished
dispatch tables.
-/

namespace ObjLet

namespace Code

/-- Code without marks. -/
def plain (c : Code) : Listing := c.map fun i => ⟨i, none⟩

/-- Code with a mark on its last instruction. -/
def ending (m : Mark) : Code → Listing
  | [] => []
  | [i] => [⟨i, some m⟩]
  | i :: j :: c => ⟨i, none⟩ :: ending m (j :: c)

@[simp] theorem plain_nil : plain [] = [] := rfl

@[simp] theorem plain_cons (i : Instruction) (c : Code) : plain (i :: c) = ⟨i, none⟩ :: plain c := rfl

@[simp] theorem plain_append (a b : Code) : plain (a ++ b) = plain a ++ plain b := List.map_append

/-- Marks are no part of the code. -/
@[simp] theorem code_plain (c : Code) : (plain c).map (·.instruction) = c := by
  simp [plain, Function.comp_def]

/-- Nor is the mark on the last instruction of a sequence. -/
@[simp] theorem code_ending (m : Mark) : (c : Code) → (ending m c).map (·.instruction) = c
  | [] => rfl
  | [_] => rfl
  | i :: j :: c => by rw [ending, List.map_cons, code_ending m (j :: c)]

/-- The way to the frame or object that holds what a site uses. -/
def walk (site : NodeId) (hops : Nat) : Listing := ending (.reached site) (frame hops)

/-- `loadValue` with its ways marked. -/
def readValue (site : NodeId) (hops : Nat) (offset : Int) (words : Nat) : Listing :=
  walk site hops ++ plain (loadAt offset) ++
    if words = 2 then walk site hops ++ plain (loadAt (offset - 1)) else []

/-- Reading a value is marked where its links are followed; for a function value there are two such places. -/
theorem code_readValue (site : NodeId) (hops : Nat) (offset : Int) (words : Nat) :
    (readValue site hops offset words).map (·.instruction) = loadValue hops offset words := by
  unfold readValue loadValue
  split <;> simp [walk]

/-- `shortCircuit` with marked operands. -/
def shortCircuited (decidedLabel endLabel : Label) (decisive : Int) (left right : Listing) : Listing :=
  left ++ plain [.push decisive, .branchEqual decidedLabel] ++
    right ++ plain [.push decisive, .branchEqual decidedLabel] ++
    plain [.push (1 - decisive), .branch endLabel, .place decidedLabel, .push decisive, .place endLabel]

theorem code_shortCircuited (decidedLabel endLabel : Label) (decisive : Int) (left right : Listing) :
    (shortCircuited decidedLabel endLabel decisive left right).map (·.instruction) =
      shortCircuit decidedLabel endLabel decisive (left.map (·.instruction))
        (right.map (·.instruction)) := by
  simp [shortCircuited, shortCircuit]

end Code

/-- The operators that one instruction stands for. -/
def BinaryOp.instruction? : BinaryOp → Option ArithOp
  | add => some .add
  | sub => some .sub
  | mul => some .mult
  | div => some .div
  | _ => none

open Code

/-! ## Expressions -/

/-- The code of an expression. -/
inductive Expr.Coded (t : Tables) (mem : Int) : Expr → Listing → Prop where
  | literal {value : Literal} {span : Span} :
    Expr.Coded t mem (.literal value span) (plain [.push value.word])
  | ident {id : NodeId} {name : Name} {use : Resolution} (huse : t.resolutions.use? id = some use) :
    Expr.Coded t mem (.ident id name) (readValue id use.hops use.entry.offset use.entry.ty.words)
  | call {id : NodeId} {callee : Name} {args : List Expr} {span : Span} {use : Resolution}
    {codes : List Listing} (huse : t.resolutions.use? id = some use)
    (hargs : List.Forall₂ (Expr.Coded t mem) args codes) :
    Expr.Coded t mem (.call id callee args span)
      (⟨.load .fp, none⟩ :: codes.reverse.flatten ++ walk id use.hops ++ plain (callEntry use.entry))
  | new {id : NodeId} {cls : Name} {args : List Expr} {span : Span} {use : Resolution} {c : ClassId}
    {layout : ClassLayout} {codes : List Listing} (huse : t.resolutions.use? id = some use)
    (hc : use.entry.declaredClass? = some c) (hl : t.classes.layout? c = some layout)
    (hargs : List.Forall₂ (Expr.Coded t mem) args codes) :
    Expr.Coded t mem (.new id cls args span)
      (codes.flatten ++ ending (.created id) (newObject layout.fieldWords (mem + use.entry.offset)))
  | methodCall {id : NodeId} {object method : Name} {args : List Expr} {span : Span}
    {call : MethodResolution} {codes : List Listing} (hcall : t.resolutions.methodCall? id = some call)
    (hargs : List.Forall₂ (Expr.Coded t mem) args codes) :
    Expr.Coded t mem (.methodCall id object method args span)
      (⟨.load .fp, none⟩ :: codes.reverse.flatten ++ walk id call.object.hops ++
        plain (loadAt call.object.entry.offset ++ dispatchCall call.method.offset))
  | arith {op : BinaryOp} {left right : Expr} {span : Span} {ls rs : Listing} {i : ArithOp}
    (hop : op.instruction? = some i) (hl : Expr.Coded t mem left ls) (hr : Expr.Coded t mem right rs) :
    Expr.Coded t mem (.binary op left right span) (ls ++ rs ++ plain [.arith i])
  | equal {left right : Expr} {span : Span} {ls rs : Listing} (equalLabel endLabel : Label)
    (hl : Expr.Coded t mem left ls) (hr : Expr.Coded t mem right rs) :
    Expr.Coded t mem (.binary .equal left right span)
      (ls ++ rs ++ plain (select equalLabel endLabel 0 1))
  | lessEqual {left right : Expr} {span : Span} {ls rs : Listing} (trueLabel endLabel : Label)
    (hl : Expr.Coded t mem left ls) (hr : Expr.Coded t mem right rs) :
    Expr.Coded t mem (.binary .lessEqual left right span)
      (ls ++ rs ++ plain (Code.lessEqual trueLabel endLabel))
  | greaterEqual {left right : Expr} {span : Span} {ls rs : Listing} (trueLabel endLabel : Label)
    (hl : Expr.Coded t mem left ls) (hr : Expr.Coded t mem right rs) :
    Expr.Coded t mem (.binary .greaterEqual left right span)
      (rs ++ ls ++ plain (Code.lessEqual trueLabel endLabel))
  | and {left right : Expr} {span : Span} {ls rs : Listing} (decidedLabel endLabel : Label)
    (hl : Expr.Coded t mem left ls) (hr : Expr.Coded t mem right rs) :
    Expr.Coded t mem (.binary .and left right span) (shortCircuited decidedLabel endLabel 0 ls rs)
  | or {left right : Expr} {span : Span} {ls rs : Listing} (decidedLabel endLabel : Label)
    (hl : Expr.Coded t mem left ls) (hr : Expr.Coded t mem right rs) :
    Expr.Coded t mem (.binary .or left right span) (shortCircuited decidedLabel endLabel 1 ls rs)
  | not {operand : Expr} {span : Span} {ls : Listing} (equalLabel endLabel : Label)
    (h : Expr.Coded t mem operand ls) :
    Expr.Coded t mem (.unary .not operand span)
      (ls ++ plain (.push 0 :: select equalLabel endLabel 0 1))
  | cond {condition thenExpr elseExpr : Expr} {span : Span} {cs ts es : Listing}
    (thenLabel endLabel : Label) (hc : Expr.Coded t mem condition cs) (ht : Expr.Coded t mem thenExpr ts)
    (he : Expr.Coded t mem elseExpr es) :
    Expr.Coded t mem (.cond condition thenExpr elseExpr span)
      (cs ++ plain [.push 1, .branchEqual thenLabel] ++ es ++
        plain [.branch endLabel, .place thenLabel] ++ ts ++ plain [.place endLabel])
  | print {value : Expr} {span : Span} {ls : Listing} (h : Expr.Coded t mem value ls) :
    Expr.Coded t mem (.print value span) (ls ++ plain [.print])

/-! ## Declarations -/

/-- The words that declarations take in a frame. -/
def Tables.frameWords (t : Tables) (ds : List Decl) : Nat :=
  (ds.map fun d => ((t.resolutions.declaration? d.id).map (·.ty.words)).getD 0).sum

/-- The dispatch table that a class starts with. -/
def Tables.inheritedTable? (t : Tables) (dispatch : ClassId → Option (List Label)) (c : ClassId) :
    Option (List Label) :=
  match (t.classes.layout? c).bind (·.superclass) with
  | none => some []
  | some parent => dispatch parent

mutual

/-- The code that a declaration runs where it stands. -/
inductive Decl.Coded (t : Tables) (mem : Int) (At : Label → Listing → Prop)
    (dispatch : ClassId → Option (List Label)) : Decl → Listing → Prop where
  | var {id : NodeId} {name : Name} {type : TypeExpr} {init : Expr} {span : Span} {ls : Listing}
    (h : init.Coded t mem ls) : Decl.Coded t mem At dispatch (.var id name type init span) ls
  | func {f : FunDecl} {entry : Label} {ls : Listing} (hat : At entry ls)
    (hf : FunDecl.Coded t mem At dispatch f ls) :
    Decl.Coded t mem At dispatch (.func f) (plain [.load .fp, .pushLabel entry])
  | cls {c : ClassDecl} {e : Entry} {id : ClassId} {inherited table : List Label}
    (he : t.resolutions.declaration? c.id = some e) (hc : e.declaredClass? = some id)
    (hi : t.inheritedTable? dispatch id = some inherited)
    (hm : FunDecl.CodedAll t mem At dispatch inherited c.methods table)
    (hd : dispatch id = some table) :
    Decl.Coded t mem At dispatch (.cls c) (plain (dispatchTable table))

/-- The code of a function, behind the label at its entry. -/
inductive FunDecl.Coded (t : Tables) (mem : Int) (At : Label → Listing → Prop)
    (dispatch : ClassId → Option (List Label)) : FunDecl → Listing → Prop where
  | mk {f : FunDecl} {e : Entry} {sig : Signature} {ds bs : Listing}
    (he : t.resolutions.declaration? f.id = some e) (hsig : e.ty = sig.ty)
    (hds : Decl.CodedAll t mem At dispatch f.decls ds) (hbs : f.body.Coded t mem bs) :
    FunDecl.Coded t mem At dispatch f
      (⟨.copyFp, some (.entered f.id)⟩ :: ⟨.load .ra, none⟩ :: ds ++ bs ++
        plain (epilogue sig.paramWords (t.frameWords f.decls) sig.returnsFunction))

/-- The code of methods, whose entries go into a dispatch table. -/
inductive FunDecl.CodedAll (t : Tables) (mem : Int) (At : Label → Listing → Prop)
    (dispatch : ClassId → Option (List Label)) :
    List Label → List FunDecl → List Label → Prop where
  | nil {table : List Label} : FunDecl.CodedAll t mem At dispatch table [] table
  | cons {table table' table'' : List Label} {m : FunDecl} {ms : List FunDecl} {e : Entry}
    {entry : Label} {ls : Listing} (he : t.resolutions.declaration? m.id = some e) (hat : At entry ls)
    (hm : FunDecl.Coded t mem At dispatch m ls)
    (hplace : placeMethod? table e.offset entry = some table')
    (h : FunDecl.CodedAll t mem At dispatch table' ms table'') :
    FunDecl.CodedAll t mem At dispatch table (m :: ms) table''

inductive Decl.CodedAll (t : Tables) (mem : Int) (At : Label → Listing → Prop)
    (dispatch : ClassId → Option (List Label)) : List Decl → Listing → Prop where
  | nil : Decl.CodedAll t mem At dispatch [] []
  | cons {d : Decl} {ds : List Decl} {ls lss : Listing} (h : Decl.Coded t mem At dispatch d ls)
    (hs : Decl.CodedAll t mem At dispatch ds lss) : Decl.CodedAll t mem At dispatch (d :: ds) (ls ++ lss)

end

/-! ## Programs -/

/-- The code of functions, each with its label. -/
def Listing.ofFunctions (functions : List (Label × Listing)) : Listing :=
  functions.flatMap fun (l, code) => ⟨.place l, none⟩ :: code

/-- The code of a program, with its marks: the main part and then the functions. -/
def Program.Listed (t : Tables) (mem : Int) (p : Program) (ls : Listing) : Prop :=
  ∃ (functions : List (Label × Listing)) (dispatch : ClassId → Option (List Label)) (ds bs : Listing),
    Decl.CodedAll t mem (fun l code => (l, code) ∈ functions) dispatch p.decls ds ∧
    p.body.Coded t mem bs ∧
    ls = plain (if p.hasDecls then [.push 0] else []) ++ ds ++ bs ++ plain [.halt] ++
      .ofFunctions functions

end ObjLet
