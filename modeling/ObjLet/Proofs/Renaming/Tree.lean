import Mathlib.Logic.Function.Basic
import ObjLet.Syntax

/-!
# Renamed trees

A `Renaming` gives a tree other names, other node ids and other positions. Names and ids that differ go on
differing; positions are replaced one by one, whatever stood there before, since what replaces a position may
depend on the place of it in the tree.

Renaming twice is renaming once (`rename_rename`), and the renaming that keeps everything leaves every tree as
it is (`rename_refl`).
-/

namespace ObjLet

/-- The way to a place in a tree: which part to go to at each step. The parts of a node are numbered from 0;
those of a list are its first element and the rest of it. -/
abbrev Route := List Nat

/-- Other names, node ids and positions for a tree. -/
structure Renaming where
  name : String → String
  node : NodeId → NodeId
  /-- The new position at a place with an old position. -/
  move : Route → Span → Span
  name_injective : name.Injective
  node_injective : node.Injective

namespace Renaming

/-- The same names and ids with other new positions. -/
def moving (r : Renaming) (move : Route → Span → Span) : Renaming := { r with move }

/-- What a renaming does to a part of a tree. -/
def part (r : Renaming) (i : Nat) : Renaming := r.moving fun q => r.move (i :: q)

/-- Keep everything. -/
def refl : Renaming := ⟨id, id, fun _ s => s, fun _ _ h => h, fun _ _ h => h⟩

/-- First one renaming, then another. -/
def trans (r r' : Renaming) : Renaming where
  name := r'.name ∘ r.name
  node := r'.node ∘ r.node
  move q s := r'.move q (r.move q s)
  name_injective := r'.name_injective.comp r.name_injective
  node_injective := r'.node_injective.comp r.node_injective

/-- A part of a tree that is kept is kept. -/
@[simp] theorem part_refl (i : Nat) : refl.part i = refl := rfl

/-- Two renamings after each other meet the same places, since neither changes the shape of a tree. -/
@[simp] theorem part_trans (r r' : Renaming) (i : Nat) : (r.trans r').part i = (r.part i).trans (r'.part i) := rfl

end Renaming

/-! ## Types and expressions -/

def Name.rename (r : Renaming) (n : Name) : Name := ⟨r.name n.text, r.move [] n.span⟩

namespace TypeExpr

mutual

def rename (r : Renaming) : TypeExpr → TypeExpr
  | int => int
  | bool => bool
  | null => null
  | ref c => ref (c.rename r)
  | arrow params ret => arrow (renameAll (r.part 0) params) (rename (r.part 1) ret)

def renameAll (r : Renaming) : List TypeExpr → List TypeExpr
  | [] => []
  | ty :: tys => rename (r.part 0) ty :: renameAll (r.part 1) tys

end

end TypeExpr

namespace Expr

mutual

def rename (r : Renaming) : Expr → Expr
  | literal value span => literal value (r.move [] span)
  | ident id name => ident (r.node id) (name.rename r)
  | call id callee args span =>
    call (r.node id) (callee.rename (r.part 0)) (renameAll (r.part 1) args) (r.move [] span)
  | new id cls args span => new (r.node id) (cls.rename (r.part 0)) (renameAll (r.part 1) args) (r.move [] span)
  | methodCall id object method args span =>
    methodCall (r.node id) (object.rename (r.part 0)) (method.rename (r.part 1)) (renameAll (r.part 2) args)
      (r.move [] span)
  | binary op left right span => binary op (rename (r.part 0) left) (rename (r.part 1) right) (r.move [] span)
  | unary op operand span => unary op (rename (r.part 0) operand) (r.move [] span)
  | cond condition thenExpr elseExpr span =>
    cond (rename (r.part 0) condition) (rename (r.part 1) thenExpr) (rename (r.part 2) elseExpr) (r.move [] span)
  | print value span => print (rename (r.part 0) value) (r.move [] span)

def renameAll (r : Renaming) : List Expr → List Expr
  | [] => []
  | e :: es => rename (r.part 0) e :: renameAll (r.part 1) es

end

end Expr

/-! ## Declarations and programs -/

namespace Param

def rename (r : Renaming) (p : Param) : Param :=
  ⟨r.node p.id, p.name.rename (r.part 0), p.type.rename (r.part 1), r.move [] p.span⟩

def renameAll (r : Renaming) : List Param → List Param
  | [] => []
  | p :: ps => p.rename (r.part 0) :: renameAll (r.part 1) ps

end Param

mutual

def Decl.rename (r : Renaming) : Decl → Decl
  | .var id name type init span =>
    .var (r.node id) (name.rename (r.part 0)) (type.rename (r.part 1)) (init.rename (r.part 2)) (r.move [] span)
  | .func f => .func (f.rename r)
  | .cls ⟨id, name, superclass, fields, methods, span⟩ =>
    .cls ⟨r.node id, name.rename (r.part 0), superclass.map (·.rename (r.part 1)),
      Param.renameAll (r.part 2) fields, FunDecl.renameAll (r.part 3) methods, r.move [] span⟩

def FunDecl.rename (r : Renaming) : FunDecl → FunDecl
  | ⟨id, name, params, ret, decls, body, span⟩ =>
    ⟨r.node id, name.rename (r.part 0), Param.renameAll (r.part 1) params, ret.rename (r.part 2),
      Decl.renameAll (r.part 3) decls, body.rename (r.part 4), r.move [] span⟩

def FunDecl.renameAll (r : Renaming) : List FunDecl → List FunDecl
  | [] => []
  | m :: ms => m.rename (r.part 0) :: FunDecl.renameAll (r.part 1) ms

def Decl.renameAll (r : Renaming) : List Decl → List Decl
  | [] => []
  | d :: ds => d.rename (r.part 0) :: Decl.renameAll (r.part 1) ds

end

def Program.rename (r : Renaming) (p : Program) : Program :=
  ⟨Decl.renameAll (r.part 0) p.decls, p.body.rename (r.part 1), r.move [] p.span⟩

/-! ## Renaming twice -/

/-- A name has no parts: its position stands at the place of the name itself. -/
theorem Name.rename_rename (r r' : Renaming) (n : Name) : (n.rename r).rename r' = n.rename (r.trans r') := rfl

mutual

/-- By recursion over types and lists of types, as `rename` goes. -/
theorem TypeExpr.rename_rename (r r' : Renaming) :
    (ty : TypeExpr) → (ty.rename r).rename r' = ty.rename (r.trans r')
  | .int | .bool | .null | .ref _ => rfl
  | .arrow params ret => by
    simp only [TypeExpr.rename, Renaming.part_trans, TypeExpr.rename_rename _ _ ret,
      TypeExpr.renameAll_renameAll _ _ params]

theorem TypeExpr.renameAll_renameAll (r r' : Renaming) :
    (tys : List TypeExpr) → TypeExpr.renameAll r' (TypeExpr.renameAll r tys) = TypeExpr.renameAll (r.trans r') tys
  | [] => rfl
  | ty :: tys => by
    simp only [TypeExpr.renameAll, Renaming.part_trans, TypeExpr.rename_rename _ _ ty,
      TypeExpr.renameAll_renameAll _ _ tys]

end

mutual

/-- By recursion over expressions and lists of arguments. Operators and literals have no names, so only their
positions are at stake. -/
theorem Expr.rename_rename (r r' : Renaming) : (e : Expr) → (e.rename r).rename r' = e.rename (r.trans r')
  | .literal _ _ | .ident _ _ => rfl
  | .call _ _ args _ | .new _ _ args _ | .methodCall _ _ _ args _ => by
    simp only [Expr.rename, Renaming.part_trans, Name.rename_rename, Expr.renameAll_renameAll _ _ args]
    rfl
  | .binary _ left right _ => by
    simp only [Expr.rename, Renaming.part_trans, Expr.rename_rename _ _ left, Expr.rename_rename _ _ right]
    rfl
  | .unary _ operand _ => by
    simp only [Expr.rename, Renaming.part_trans, Expr.rename_rename _ _ operand]
    rfl
  | .cond condition thenExpr elseExpr _ => by
    simp only [Expr.rename, Renaming.part_trans, Expr.rename_rename _ _ condition,
      Expr.rename_rename _ _ thenExpr, Expr.rename_rename _ _ elseExpr]
    rfl
  | .print value _ => by
    simp only [Expr.rename, Renaming.part_trans, Expr.rename_rename _ _ value]
    rfl

theorem Expr.renameAll_renameAll (r r' : Renaming) :
    (es : List Expr) → Expr.renameAll r' (Expr.renameAll r es) = Expr.renameAll (r.trans r') es
  | [] => rfl
  | e :: es => by
    simp only [Expr.renameAll, Renaming.part_trans, Expr.rename_rename _ _ e, Expr.renameAll_renameAll _ _ es]

end

theorem Param.rename_rename (r r' : Renaming) (p : Param) : (p.rename r).rename r' = p.rename (r.trans r') := by
  simp only [Param.rename, Renaming.part_trans, Name.rename_rename, TypeExpr.rename_rename]
  rfl

/-- The renamings go on to be taken apart along the list, so they are not fixed in the induction. -/
theorem Param.renameAll_renameAll (ps : List Param) :
    ∀ r r' : Renaming, Param.renameAll r' (Param.renameAll r ps) = Param.renameAll (r.trans r') ps := by
  induction ps with
  | nil => exact fun _ _ => rfl
  | cons p ps ih =>
    intro r r'
    simp only [Param.renameAll, Renaming.part_trans, Param.rename_rename, ih]

mutual

/-- By recursion over declarations, functions and methods. -/
theorem Decl.rename_rename (r r' : Renaming) : (d : Decl) → (d.rename r).rename r' = d.rename (r.trans r')
  | .var _ _ _ _ _ => by
    simp only [Decl.rename, Renaming.part_trans, Name.rename_rename, TypeExpr.rename_rename, Expr.rename_rename]
    rfl
  | .func f => by
    simp only [Decl.rename, FunDecl.rename_rename _ _ f]
  | .cls ⟨_, _, superclass, _, methods, _⟩ => by
    simp only [Decl.rename, Renaming.part_trans, Name.rename_rename, Param.renameAll_renameAll,
      FunDecl.renameAll_renameAll _ _ methods, Option.map_map]
    rfl

theorem FunDecl.rename_rename (r r' : Renaming) : (f : FunDecl) → (f.rename r).rename r' = f.rename (r.trans r')
  | ⟨_, _, _, _, decls, _, _⟩ => by
    simp only [FunDecl.rename, Renaming.part_trans, Name.rename_rename, Param.renameAll_renameAll,
      TypeExpr.rename_rename, Decl.renameAll_renameAll _ _ decls, Expr.rename_rename]
    rfl

theorem FunDecl.renameAll_renameAll (r r' : Renaming) :
    (ms : List FunDecl) → FunDecl.renameAll r' (FunDecl.renameAll r ms) = FunDecl.renameAll (r.trans r') ms
  | [] => rfl
  | m :: ms => by
    simp only [FunDecl.renameAll, Renaming.part_trans, FunDecl.rename_rename _ _ m,
      FunDecl.renameAll_renameAll _ _ ms]

theorem Decl.renameAll_renameAll (r r' : Renaming) :
    (ds : List Decl) → Decl.renameAll r' (Decl.renameAll r ds) = Decl.renameAll (r.trans r') ds
  | [] => rfl
  | d :: ds => by
    simp only [Decl.renameAll, Renaming.part_trans, Decl.rename_rename _ _ d, Decl.renameAll_renameAll _ _ ds]

end

/-- With this, a renaming may be factored through a tagged program. -/
theorem Program.rename_rename (r r' : Renaming) (p : Program) :
    (p.rename r).rename r' = p.rename (r.trans r') := by
  simp only [Program.rename, Renaming.part_trans, Decl.renameAll_renameAll, Expr.rename_rename]
  rfl

/-! ## Keeping everything -/

@[simp] theorem Name.rename_refl (n : Name) : n.rename .refl = n := rfl

mutual

/-- Keeping everything is no renaming, however deep a type is. -/
theorem TypeExpr.rename_refl : (ty : TypeExpr) → ty.rename .refl = ty
  | .int | .bool | .null | .ref _ => rfl
  | .arrow params ret => by
    simp only [TypeExpr.rename, Renaming.part_refl, TypeExpr.rename_refl ret, TypeExpr.renameAll_refl params]

theorem TypeExpr.renameAll_refl : (tys : List TypeExpr) → TypeExpr.renameAll .refl tys = tys
  | [] => rfl
  | ty :: tys => by
    simp only [TypeExpr.renameAll, Renaming.part_refl, TypeExpr.rename_refl ty, TypeExpr.renameAll_refl tys]

end

mutual

theorem Expr.rename_refl : (e : Expr) → e.rename .refl = e
  | .literal _ _ | .ident _ _ => rfl
  | .call _ _ args _ | .new _ _ args _ | .methodCall _ _ _ args _ => by
    simp only [Expr.rename, Renaming.part_refl, Name.rename_refl, Expr.renameAll_refl args]
    rfl
  | .binary _ left right _ => by
    simp only [Expr.rename, Renaming.part_refl, Expr.rename_refl left, Expr.rename_refl right]
    rfl
  | .unary _ operand _ => by
    simp only [Expr.rename, Renaming.part_refl, Expr.rename_refl operand]
    rfl
  | .cond condition thenExpr elseExpr _ => by
    simp only [Expr.rename, Renaming.part_refl, Expr.rename_refl condition, Expr.rename_refl thenExpr,
      Expr.rename_refl elseExpr]
    rfl
  | .print value _ => by
    simp only [Expr.rename, Renaming.part_refl, Expr.rename_refl value]
    rfl

theorem Expr.renameAll_refl : (es : List Expr) → Expr.renameAll .refl es = es
  | [] => rfl
  | e :: es => by
    simp only [Expr.renameAll, Renaming.part_refl, Expr.rename_refl e, Expr.renameAll_refl es]

end

theorem Param.rename_refl (p : Param) : p.rename .refl = p := by
  simp only [Param.rename, Renaming.part_refl, Name.rename_refl, TypeExpr.rename_refl]
  rfl

theorem Param.renameAll_refl (ps : List Param) : Param.renameAll .refl ps = ps := by
  induction ps with
  | nil => rfl
  | cons p ps ih => simp only [Param.renameAll, Renaming.part_refl, Param.rename_refl, ih]

mutual

theorem Decl.rename_refl : (d : Decl) → d.rename .refl = d
  | .var _ _ _ _ _ => by
    simp only [Decl.rename, Renaming.part_refl, Name.rename_refl, TypeExpr.rename_refl, Expr.rename_refl]
    rfl
  | .func f => by
    simp only [Decl.rename, FunDecl.rename_refl f]
  | .cls ⟨_, _, superclass, _, methods, _⟩ => by
    simp only [Decl.rename, Renaming.part_refl, Name.rename_refl, Param.renameAll_refl,
      FunDecl.renameAll_refl methods, Option.map_id']
    rfl

theorem FunDecl.rename_refl : (f : FunDecl) → f.rename .refl = f
  | ⟨_, _, _, _, decls, _, _⟩ => by
    simp only [FunDecl.rename, Renaming.part_refl, Name.rename_refl, Param.renameAll_refl, TypeExpr.rename_refl,
      Decl.renameAll_refl decls, Expr.rename_refl]
    rfl

theorem FunDecl.renameAll_refl : (ms : List FunDecl) → FunDecl.renameAll .refl ms = ms
  | [] => rfl
  | m :: ms => by
    simp only [FunDecl.renameAll, Renaming.part_refl, FunDecl.rename_refl m, FunDecl.renameAll_refl ms]

theorem Decl.renameAll_refl : (ds : List Decl) → Decl.renameAll .refl ds = ds
  | [] => rfl
  | d :: ds => by
    simp only [Decl.renameAll, Renaming.part_refl, Decl.rename_refl d, Decl.renameAll_refl ds]

end

/-- So a program is one of its own renamed programs. -/
theorem Program.rename_refl (p : Program) : p.rename .refl = p := by
  simp only [Program.rename, Renaming.part_refl, Decl.renameAll_refl, Expr.rename_refl]
  rfl

/-! ## Parts of renamed trees -/

/-- What a renaming does to a node is read off its parts. These are the parts that binding and checking look at. -/
@[simp] theorem Name.text_rename (r : Renaming) (n : Name) : (n.rename r).text = r.name n.text := rfl

@[simp] theorem Name.span_rename (r : Renaming) (n : Name) : (n.rename r).span = r.move [] n.span := rfl

section

variable (r : Renaming)

/-- The position of an expression stands at its own place, not at one of its parts. -/
theorem Expr.span_rename (e : Expr) : (e.rename r).span = r.move [] e.span := by
  cases e <;> rfl

/-- Nodes are recorded in tables under their ids. -/
theorem FunDecl.id_rename (f : FunDecl) : (f.rename r).id = r.node f.id := by
  cases f
  rfl

theorem FunDecl.text_rename (f : FunDecl) : (f.rename r).name.text = r.name f.name.text := by
  cases f
  rfl

theorem FunDecl.span_rename (f : FunDecl) : (f.rename r).span = r.move [] f.span := by
  cases f
  rfl

/-- All declarations have an id, whichever kind they are of. -/
theorem Decl.id_rename (d : Decl) : (d.rename r).id = r.node d.id := by
  cases d with
  | var => rfl
  | func f => exact f.id_rename r
  | cls c => cases c; rfl

theorem Decl.span_rename (d : Decl) : (d.rename r).span = r.move [] d.span := by
  cases d with
  | var => rfl
  | func f => exact f.span_rename r
  | cls c => cases c; rfl

end

/-! ## Uniform renamings -/

/-- The new position depends on the old one only. -/
def Renaming.Uniform (r : Renaming) : Prop := ∀ q s, r.move q s = r.move [] s

section

variable {r : Renaming} (hr : r.Uniform)
include hr

/-- A uniform renaming does the same to all parts of a tree. -/
theorem Renaming.Uniform.part (i : Nat) : r.part i = r := by
  have hmove : (fun q => r.move (i :: q)) = r.move := by
    funext q s
    rw [hr, hr q]
  rw [Renaming.part, hmove, moving]

/-- A uniform renaming does not look at places, so it goes over a list like any function. -/
theorem Expr.renameAll_eq (es : List Expr) : Expr.renameAll r es = es.map (Expr.rename r) := by
  induction es with
  | nil => rfl
  | cons e es ih => rw [Expr.renameAll, hr.part, hr.part, ih, List.map_cons]

theorem Param.renameAll_eq (ps : List Param) : Param.renameAll r ps = ps.map (Param.rename r) := by
  induction ps with
  | nil => rfl
  | cons p ps ih => rw [Param.renameAll, hr.part, hr.part, ih, List.map_cons]

theorem FunDecl.renameAll_eq (ms : List FunDecl) : FunDecl.renameAll r ms = ms.map (FunDecl.rename r) := by
  induction ms with
  | nil => rfl
  | cons m ms ih => rw [FunDecl.renameAll, hr.part, hr.part, ih, List.map_cons]

/-- A function under a uniform renaming, part by part. -/
theorem FunDecl.rename_eq (f : FunDecl) :
    f.rename r = ⟨r.node f.id, f.name.rename r, f.params.map (Param.rename r), f.ret.rename r,
      Decl.renameAll r f.decls, f.body.rename r, r.move [] f.span⟩ := by
  cases f
  simp only [FunDecl.rename, hr.part, Param.renameAll_eq hr]

end

end ObjLet
