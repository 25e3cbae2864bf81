import ObjLet.Proofs.Binding.Recorded

/-!
# Uses of names

What a program mentions, in the order of its text: the names that its expressions use, the class names in its
types and the classes that it declares. An expression is bound use by use (`Expr.findings_eq`), since it
declares nothing, and the ids in an expression are those of its uses (`Expr.ids_eq`).
-/

namespace ObjLet

/-- A use of a name in an expression. -/
inductive Use where
  /-- An identifier, alone or as the callee of a call. -/
  | ident (id : NodeId) (name : Name)
  | new (id : NodeId) (cls : Name)
  | methodCall (id : NodeId) (object method : Name)

/-- The node of a use. -/
def Use.id : Use → NodeId
  | .ident id _ | .new id _ | .methodCall id _ _ => id

/-- What a use is bound to. -/
def Use.bind (env : Env) : Use → Finding
  | .ident id name => env.bindName id name
  | .new id cls => env.bindNew id cls
  | .methodCall id object method => env.bindMethodCall id object method

mutual

/-- The uses in an expression, in the order in which they are bound. -/
def Expr.uses : Expr → List Use
  | .literal _ _ => []
  | .ident id name => [.ident id name]
  | .call id callee args _ => .ident id callee :: Expr.usesAll args
  | .new id cls args _ => Expr.usesAll args ++ [.new id cls]
  | .methodCall id object method args _ => Expr.usesAll args ++ [.methodCall id object method]
  | .binary _ left right _ => left.uses ++ right.uses
  | .unary _ operand _ => operand.uses
  | .cond condition thenExpr elseExpr _ => condition.uses ++ thenExpr.uses ++ elseExpr.uses
  | .print value _ => value.uses

def Expr.usesAll : List Expr → List Use
  | [] => []
  | e :: es => e.uses ++ Expr.usesAll es

end

mutual

/-- An expression is bound use by use, since it declares nothing. -/
theorem Expr.findings_eq (env : Env) : (e : Expr) → e.findings env = e.uses.map (·.bind env)
  | .literal _ _ | .ident _ _ => rfl
  | .call id callee args _ => by
    rw [findings, uses, List.map_cons, findingsAll_eq env args]
    rfl
  | .new id cls args _ => by
    rw [findings, uses, List.map_append, findingsAll_eq env args]
    rfl
  | .methodCall id object method args _ => by
    rw [findings, uses, List.map_append, findingsAll_eq env args]
    rfl
  | .binary _ left right _ => by
    rw [findings, uses, List.map_append, left.findings_eq, right.findings_eq]
  | .unary _ operand _ => operand.findings_eq env
  | .cond condition thenExpr elseExpr _ => by
    rw [findings, uses, List.map_append, List.map_append, condition.findings_eq, thenExpr.findings_eq,
      elseExpr.findings_eq]
  | .print value _ => value.findings_eq env

theorem Expr.findingsAll_eq (env : Env) :
    (es : List Expr) → findingsAll env es = (usesAll es).map (·.bind env)
  | [] => rfl
  | e :: es => by rw [findingsAll, usesAll, List.map_append, e.findings_eq, findingsAll_eq env es]

end

mutual

/-- The ids in an expression are those of its uses. -/
theorem Expr.ids_eq : (e : Expr) → e.ids = e.uses.map Use.id
  | .literal _ _ | .ident _ _ => rfl
  | .call id callee args _ => by
    rw [ids, uses, List.map_cons, idsAll_eq args]
    rfl
  | .new _ _ args _ | .methodCall _ _ _ args _ => by
    rw [ids, uses, List.map_append, idsAll_eq args]
    rfl
  | .binary _ left right _ => by rw [ids, uses, List.map_append, left.ids_eq, right.ids_eq]
  | .unary _ operand _ => operand.ids_eq
  | .cond condition thenExpr elseExpr _ => by
    rw [ids, uses, List.map_append, List.map_append, condition.ids_eq, thenExpr.ids_eq, elseExpr.ids_eq]
  | .print value _ => value.ids_eq

theorem Expr.idsAll_eq : (es : List Expr) → idsAll es = (usesAll es).map Use.id
  | [] => rfl
  | e :: es => by rw [idsAll, usesAll, List.map_append, e.ids_eq, idsAll_eq es]

end

/-! ## Class names in types -/

namespace TypeExpr

mutual

/-- The class names in a type, from left to right. -/
def classNames : TypeExpr → List Name
  | int | bool | null => []
  | ref c => [c]
  | arrow params ret => classNamesAll params ++ classNames ret

def classNamesAll : List TypeExpr → List Name
  | [] => []
  | ty :: tys => classNames ty ++ classNamesAll tys

end

mutual

/-- The names without a class are those that the class table does not have. -/
theorem unknownClasses_eq (t : ClassTable) :
    (ty : TypeExpr) → ty.unknownClasses t = ty.classNames.filter fun c => (t.lookup? c.text).isNone
  | int | bool | null => rfl
  | ref c => by
    rw [unknownClasses, classNames]
    cases h : t.lookup? c.text <;> simp [h]
  | arrow params ret => by
    rw [unknownClasses, classNames, List.filter_append, allUnknownClasses_eq t params,
      unknownClasses_eq t ret]

theorem allUnknownClasses_eq (t : ClassTable) : (tys : List TypeExpr) →
    allUnknownClasses t tys = (classNamesAll tys).filter fun c => (t.lookup? c.text).isNone
  | [] => rfl
  | ty :: tys => by
    rw [allUnknownClasses, classNamesAll, List.filter_append, unknownClasses_eq t ty,
      allUnknownClasses_eq t tys]

end

end TypeExpr

/-- The class names in the types of the parameters and the result, in this order. -/
def FunDecl.headNames (f : FunDecl) : List Name :=
  f.params.flatMap (·.type.classNames) ++ f.ret.classNames

/-- The head of a function reports the unknown classes in it. -/
theorem FunDecl.headFindings_eq (t : ClassTable) (f : FunDecl) :
    f.headFindings t =
      (f.headNames.filter fun c => (t.lookup? c.text).isNone).map fun c =>
        c.error (.unknownClass c.text) := by
  simp only [headFindings, headNames, TypeExpr.findings, TypeExpr.unknownClasses_eq, List.filter_append,
    List.map_append, List.filter_flatMap, List.map_flatMap]

/-! ## The text of a program -/

/-- Something in the text of a program that concerns what names stand for. -/
inductive Mention where
  | use (u : Use)
  /-- A class name in a type. -/
  | type (cls : Name)
  /-- A class is declared. -/
  | cls (name : Name)

namespace Mention

def use? : Mention → Option Use
  | use u => some u
  | _ => none

/-- The name of the class that is declared. -/
def declared? : Mention → Option String
  | cls name => some name.text
  | _ => none

end Mention

mutual

/-- What a declaration mentions, in the order of the text. -/
def Decl.mentions : Decl → List Mention
  | .var _ _ type init _ => init.uses.map .use ++ type.classNames.map .type
  | .func f => f.mentions
  | .cls ⟨_, name, _, fields, methods, _⟩ =>
    .cls name :: (fields.flatMap (·.type.classNames)).map .type ++ FunDecl.mentionsAll methods

def FunDecl.mentions : FunDecl → List Mention
  | ⟨_, _, params, ret, decls, body, _⟩ =>
    (params.flatMap (·.type.classNames) ++ ret.classNames).map .type ++ Decl.mentionsAll decls ++
      body.uses.map .use

def FunDecl.mentionsAll : List FunDecl → List Mention
  | [] => []
  | m :: ms => m.mentions ++ FunDecl.mentionsAll ms

def Decl.mentionsAll : List Decl → List Mention
  | [] => []
  | d :: ds => d.mentions ++ Decl.mentionsAll ds

end

/-- What a function mentions: its head, then its block. -/
theorem FunDecl.mentions_eq (f : FunDecl) :
    f.mentions = f.headNames.map .type ++ Decl.mentionsAll f.decls ++ f.body.uses.map .use := by
  cases f
  rfl

def Program.mentions (p : Program) : List Mention := Decl.mentionsAll p.decls ++ p.body.uses.map .use

/-- The uses in a declaration. -/
def Decl.uses (d : Decl) : List Use := d.mentions.filterMap Mention.use?

/-- The uses of a program. -/
def Program.uses (p : Program) : List Use := p.mentions.filterMap Mention.use?

@[simp] theorem Mention.filterMap_use?_use (us : List Use) : (us.map use).filterMap use? = us := by
  induction us with
  | nil => rfl
  | cons u us ih =>
    rw [List.map_cons, List.filterMap_cons, ih]
    rfl

@[simp] theorem Mention.filterMap_use?_type (cs : List Name) : (cs.map type).filterMap use? = [] := by
  induction cs with
  | nil => rfl
  | cons c cs ih =>
    rw [List.map_cons, List.filterMap_cons, ih]
    rfl

mutual

/-- The uses of a declaration stand at nodes of it. -/
theorem Decl.ids_uses_sublist : (d : Decl) → (d.mentions.filterMap Mention.use?).map Use.id |>.Sublist d.ids
  | .var id name type init _ => by
    simp only [Decl.mentions, List.filterMap_append, Mention.filterMap_use?_use, Mention.filterMap_use?_type,
      List.append_nil, Decl.ids, init.ids_eq]
    exact List.sublist_append_left _ _
  | .func f => by
    rw [Decl.mentions, Decl.ids]
    exact f.ids_uses_sublist.trans (List.tail_sublist _)
  | .cls ⟨id, name, superclass, fields, methods, _⟩ => by
    simp only [Decl.mentions, List.cons_append, List.filterMap_cons, List.filterMap_append, Mention.use?,
      Mention.filterMap_use?_type, List.nil_append, Decl.ids]
    exact (FunDecl.ids_usesAll_sublist methods).trans
      ((List.sublist_append_right _ _).trans (List.sublist_cons_self _ _))

/-- The uses in a function stand at nodes inside of it, none at the node of the function. -/
theorem FunDecl.ids_uses_sublist :
    (f : FunDecl) → (f.mentions.filterMap Mention.use?).map Use.id |>.Sublist f.ids.tail
  | ⟨id, name, params, ret, decls, body, _⟩ => by
    simp only [FunDecl.mentions, List.filterMap_append, Mention.filterMap_use?_use, Mention.filterMap_use?_type,
      List.nil_append, List.map_append, FunDecl.ids, List.cons_append, List.tail_cons, body.ids_eq]
    refine List.Sublist.append ?_ (List.Sublist.refl _)
    exact (Decl.ids_usesAll_sublist decls).trans (List.sublist_append_right _ _)

theorem FunDecl.ids_usesAll_sublist : (ms : List FunDecl) →
    ((FunDecl.mentionsAll ms).filterMap Mention.use?).map Use.id |>.Sublist (FunDecl.idsAll ms)
  | [] => List.Sublist.refl []
  | m :: ms => by
    rw [FunDecl.mentionsAll, List.filterMap_append, List.map_append, FunDecl.idsAll]
    exact (m.ids_uses_sublist.trans (List.tail_sublist _)).append (FunDecl.ids_usesAll_sublist ms)

theorem Decl.ids_usesAll_sublist : (ds : List Decl) →
    ((Decl.mentionsAll ds).filterMap Mention.use?).map Use.id |>.Sublist (Decl.idsAll ds)
  | [] => List.Sublist.refl []
  | d :: ds => by
    rw [Decl.mentionsAll, List.filterMap_append, List.map_append, Decl.idsAll]
    exact d.ids_uses_sublist.append (Decl.ids_usesAll_sublist ds)

end

/-- The uses of a program stand at nodes of it, in the order of the text. -/
theorem Program.ids_uses_sublist (p : Program) : (p.uses.map Use.id).Sublist p.ids := by
  rw [uses, mentions, List.filterMap_append, Mention.filterMap_use?_use, List.map_append, ids, p.body.ids_eq]
  exact (Decl.ids_usesAll_sublist p.decls).append (List.Sublist.refl _)

end ObjLet
