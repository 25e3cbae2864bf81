import ObjLet.Proofs.Class.Known
import ObjLet.Proofs.Renaming.Table

/-!
# Binding renamed programs

Every step of binding takes related environments (`Env.Renames`) to related environments and finds the same in
both, up to the renaming (`Decl.bindAll_rename`). So a renamed program is bound to renamed tables, with renamed
errors (`Program.bind_rename`).

Names come into errors by themselves, except that a missing method is reported with the name of the class of its
object; that class has been declared (`Env.Known.class_lt`), so its name has been renamed.
-/

namespace ObjLet

variable {r : Renaming}

/-! ## Types -/

section

variable {t t' : ClassTable}

mutual

/-- A type is resolved to positions of classes, which are the same. Unknown classes are resolved alike on both
sides too. -/
theorem TypeExpr.resolve_rename (hr : r.Uniform) (ht : t.Renames r t') :
    (ty : TypeExpr) → (ty.rename r).resolve t' = ty.resolve t
  | .int | .bool | .null => rfl
  | .ref c => by
    rw [TypeExpr.rename, TypeExpr.resolve, TypeExpr.resolve, Name.text_rename, ht.lookup?]
  | .arrow params ret => by
    simp only [TypeExpr.rename, hr.part, TypeExpr.resolve, TypeExpr.resolve_rename hr ht ret,
      TypeExpr.resolveAll_rename hr ht params]

theorem TypeExpr.resolveAll_rename (hr : r.Uniform) (ht : t.Renames r t') :
    (tys : List TypeExpr) → TypeExpr.resolveAll t' (TypeExpr.renameAll r tys) = TypeExpr.resolveAll t tys
  | [] => rfl
  | ty :: tys => by
    simp only [TypeExpr.renameAll, hr.part, TypeExpr.resolveAll, TypeExpr.resolve_rename hr ht ty,
      TypeExpr.resolveAll_rename hr ht tys]

end

mutual

/-- The unknown names are the renamed unknown names, with the positions that replace theirs. -/
theorem TypeExpr.unknownClasses_rename (hr : r.Uniform) (ht : t.Renames r t') :
    (ty : TypeExpr) → (ty.rename r).unknownClasses t' = (ty.unknownClasses t).map (Name.rename r)
  | .int | .bool | .null => rfl
  | .ref c => by
    rw [TypeExpr.rename, TypeExpr.unknownClasses, TypeExpr.unknownClasses, Name.text_rename, ht.lookup?]
    split <;> rfl
  | .arrow params ret => by
    simp only [TypeExpr.rename, hr.part, TypeExpr.unknownClasses, TypeExpr.unknownClasses_rename hr ht ret,
      TypeExpr.allUnknownClasses_rename hr ht params, List.map_append]

theorem TypeExpr.allUnknownClasses_rename (hr : r.Uniform) (ht : t.Renames r t') :
    (tys : List TypeExpr) → TypeExpr.allUnknownClasses t' (TypeExpr.renameAll r tys) =
      (TypeExpr.allUnknownClasses t tys).map (Name.rename r)
  | [] => rfl
  | ty :: tys => by
    simp only [TypeExpr.renameAll, hr.part, TypeExpr.allUnknownClasses, TypeExpr.unknownClasses_rename hr ht ty,
      TypeExpr.allUnknownClasses_rename hr ht tys, List.map_append]

end

variable (hr : r.Uniform) (ht : t.Renames r t')
include hr ht

/-- Types record nothing; their findings are errors about names. -/
theorem TypeExpr.findings_rename (ty : TypeExpr) : (ty.rename r).findings t' = (ty.findings t).rename r := by
  rw [TypeExpr.findings, TypeExpr.unknownClasses_rename hr ht, TypeExpr.findings, Findings.rename, List.map_map,
    List.map_map]
  rfl

theorem Param.resolve_rename (p : Param) : (p.rename r).type.resolve t' = p.type.resolve t := by
  rw [Param.rename, hr.part, hr.part, TypeExpr.resolve_rename hr ht]

theorem Param.findings_rename (p : Param) : (p.rename r).type.findings t' = (p.type.findings t).rename r := by
  rw [Param.rename, hr.part, hr.part, TypeExpr.findings_rename hr ht]

/-- Signatures have no names in them, so they are the same and not renamed. -/
theorem FunDecl.signature_rename (f : FunDecl) : (f.rename r).signature t' = f.signature t := by
  simp only [FunDecl.rename_eq hr, FunDecl.signature, List.map_map, Function.comp_def, Param.resolve_rename hr ht,
    TypeExpr.resolve_rename hr ht]

/-- What is found in parameters and the result, in the same order. -/
theorem FunDecl.headFindings_rename (f : FunDecl) : (f.rename r).headFindings t' = (f.headFindings t).rename r := by
  rw [FunDecl.rename_eq hr, FunDecl.headFindings, FunDecl.headFindings, Findings.rename_append,
    TypeExpr.findings_rename hr ht]
  congr 1
  induction f.params with
  | nil => rfl
  | cons p ps ih =>
    rw [List.map_cons, List.flatMap_cons, List.flatMap_cons, Findings.rename_append, ih,
      Param.findings_rename hr ht]

end

/-! ## Environments -/

/-- What is known at a point of a program and at that point of the renamed program. -/
structure Env.Renames (r : Renaming) (env env' : Env) : Prop where
  scopes : env.scopes.Renames r env'.scopes
  classes : env.classes.Renames r env'.classes
  nextLocal : env'.nextLocal = env.nextLocal

namespace Env.Renames

variable {env env' : Env}

/-- Levels and offsets count scopes and words, so they are the same. -/
theorem level (h : env.Renames r env') : env'.level = env.level := h.scopes.level

/-- Scopes and classes are renamed independently of each other. -/
theorem withClasses (h : env.Renames r env') {t t' : ClassTable} (ht : t.Renames r t') :
    Env.Renames r { env with classes := t } { env' with classes := t' } :=
  ⟨h.scopes, ht, h.nextLocal⟩

/-- A new frame starts with an empty scope on both sides. -/
theorem enterFrame (h : env.Renames r env') : env.enterFrame.Renames r env'.enterFrame :=
  ⟨h.scopes.push .empty, h.classes, rfl⟩

/-- A name that is taken is taken under its new name, so the same declarations are rejected. -/
theorem declare (h : env.Renames r env') (id : NodeId) (name : Name) (e : Entry) :
    (env.declare id name e).1.Renames r (env'.declare (r.node id) (name.rename r) e).1 ∧
      (env'.declare (r.node id) (name.rename r) e).2 = Findings.rename r (env.declare id name e).2 := by
  unfold Env.declare
  rw [Name.text_rename]
  obtain ⟨s, s', hs, hs', hren⟩ | ⟨existing, hs, hs'⟩ := h.scopes.declare name.text e
  · rw [hs, hs']
    exact ⟨⟨hren, h.classes, h.nextLocal⟩, rfl⟩
  · rw [hs, hs']
    exact ⟨h, rfl⟩

theorem declareLocal (h : env.Renames r env') (id : NodeId) (name : Name) (kind : EntryKind) (ty : Ty) :
    (env.declareLocal id name kind ty).1.Renames r (env'.declareLocal (r.node id) (name.rename r) kind ty).1 ∧
      (env'.declareLocal (r.node id) (name.rename r) kind ty).2 =
        Findings.rename r (env.declareLocal id name kind ty).2 := by
  have hmoved : Env.Renames r { env with nextLocal := env.nextLocal - ty.words }
      { env' with nextLocal := env'.nextLocal - ty.words } :=
    ⟨h.scopes, h.classes, by rw [h.nextLocal]⟩
  rw [Env.declareLocal, Env.declareLocal, h.level, h.nextLocal]
  rw [h.nextLocal] at hmoved
  exact hmoved.declare id name _

/-- By induction on the parameters, each at the next offset. -/
theorem declareParams (ps : List (Param × Ty)) (hr : r.Uniform) :
    ∀ {env env' : Env} (next : Int), env.Renames r env' →
      (env.declareParams next ps).1.Renames r
          (env'.declareParams next (ps.map (Prod.map (Param.rename r) id))).1 ∧
        (env'.declareParams next (ps.map (Prod.map (Param.rename r) id))).2 =
          Findings.rename r (env.declareParams next ps).2 := by
  induction ps with
  | nil => exact fun _ h => ⟨h, rfl⟩
  | cons p ps ih =>
    intro env env' next h
    obtain ⟨hfirst, hfs⟩ := h.declare p.1.id p.1.name
      { kind := .param, level := env.level, offset := next + p.2.words - 1, ty := p.2 }
    obtain ⟨hrest, hgs⟩ := ih (next + p.2.words) hfirst
    simp only [List.map_cons, Prod.map_fst, Prod.map_snd, id_eq, Env.declareParams, Param.rename, hr.part,
      h.level] at hrest hgs ⊢
    exact ⟨hrest, by rw [hfs, hgs, Findings.rename_append]⟩

/-! ### Uses -/

/-- Either both names are found, with the same entry, or both are reported. -/
theorem bindName (h : env.Renames r env') (id : NodeId) (name : Name) :
    env'.bindName (r.node id) (name.rename r) = (env.bindName id name).rename r := by
  rw [Env.bindName, Env.bindName, Name.text_rename, h.scopes.lookup?, h.level]
  cases env.scopes.lookup? name.text <;> rfl

/-- The nearest class of the name is found on both sides, or none. -/
theorem bindNew (h : env.Renames r env') (id : NodeId) (cls : Name) :
    env'.bindNew (r.node id) (cls.rename r) = (env.bindNew id cls).rename r := by
  rw [Env.bindNew, Env.bindNew, Name.text_rename, h.scopes.lookupClass?, h.level]
  cases env.scopes.lookupClass? cls.text <;> rfl

/-- Here the name of a class comes into an error: the object has it, and the method is missing. The class is
known, so its name is the renamed one. -/
theorem bindMethodCall (h : env.Renames r env') (hk : env.Known) (id : NodeId) (object method : Name) :
    env'.bindMethodCall (r.node id) (object.rename r) (method.rename r) =
      (env.bindMethodCall id object method).rename r := by
  rw [Env.bindMethodCall, Env.bindMethodCall, Name.text_rename, Name.text_rename, h.scopes.lookup?, h.level]
  cases hobject : env.scopes.lookup? object.text with
  | none => rfl
  | some e =>
    cases hcls : e.ty.class? with
    | none => simp only [hcls]; rfl
    | some cls =>
      simp only [hcls, h.classes.member?, h.classes.nameOf (hk.class_lt hobject hcls)]
      cases (env.classes.member? cls method.text).filter (·.kind == .method) <;> rfl

end Env.Renames

mutual

/-- By recursion over expressions: findings come in the order of the walk, which is the same. -/
theorem Expr.findings_rename (hr : r.Uniform) {env env' : Env} (h : env.Renames r env') (hk : env.Known) :
    (e : Expr) → (e.rename r).findings env' = Findings.rename r (e.findings env)
  | .literal _ _ => rfl
  | .ident id name => congrArg ([·]) (h.bindName id name)
  | .call id callee args _ => by
    simp only [Expr.rename, hr.part, Expr.findings, h.bindName, Expr.findingsAll_rename hr h hk args,
      Findings.rename_cons]
  | .new id cls args _ => by
    simp only [Expr.rename, hr.part, Expr.findings, h.bindNew, Expr.findingsAll_rename hr h hk args,
      Findings.rename_append, Findings.rename_cons, Findings.rename_nil]
  | .methodCall id object method args _ => by
    simp only [Expr.rename, hr.part, Expr.findings, h.bindMethodCall hk, Expr.findingsAll_rename hr h hk args,
      Findings.rename_append, Findings.rename_cons, Findings.rename_nil]
  | .binary _ left right _ => by
    simp only [Expr.rename, hr.part, Expr.findings, Expr.findings_rename hr h hk left,
      Expr.findings_rename hr h hk right, Findings.rename_append]
  | .unary _ operand _ => by
    simp only [Expr.rename, hr.part, Expr.findings, Expr.findings_rename hr h hk operand]
  | .cond condition thenExpr elseExpr _ => by
    simp only [Expr.rename, hr.part, Expr.findings, Expr.findings_rename hr h hk condition,
      Expr.findings_rename hr h hk thenExpr, Expr.findings_rename hr h hk elseExpr, Findings.rename_append]
  | .print value _ => by
    simp only [Expr.rename, hr.part, Expr.findings, Expr.findings_rename hr h hk value]

theorem Expr.findingsAll_rename (hr : r.Uniform) {env env' : Env} (h : env.Renames r env') (hk : env.Known) :
    (es : List Expr) → Expr.findingsAll env' (Expr.renameAll r es) = Findings.rename r (Expr.findingsAll env es)
  | [] => rfl
  | e :: es => by
    simp only [Expr.renameAll, hr.part, Expr.findingsAll, Expr.findings_rename hr h hk e,
      Expr.findingsAll_rename hr h hk es, Findings.rename_append]

end

/-! ## Class bodies -/

/-- A class while its members are declared, and the renamed one. -/
structure ClassBody.Renames (r : Renaming) (b b' : ClassBody) : Prop where
  cls : b'.cls = b.cls
  name : b'.name = r.name b.name
  env : b.env.Renames r b'.env
  declared : b'.declared = b.declared.map r.name
  nextField : b'.nextField = b.nextField

namespace ClassBody.Renames

variable {b b' : ClassBody}

/-- The body starts from what the class inherits, which is the same up to the renaming. -/
theorem enter {env env' : Env} (h : env.Renames r env') (cls : ClassId) (name : String) :
    (ClassBody.enter env cls name).Renames r (ClassBody.enter env' cls (r.name name)) where
  cls := rfl
  name := rfl
  env := ⟨h.scopes.push (h.classes.members cls), h.classes, h.nextLocal⟩
  declared := rfl
  nextField := by
    change ((env'.classes.layout? cls).map _).getD _ = ((env.classes.layout? cls).map _).getD _
    rw [h.classes.layout?, Option.map_map]
    rfl

/-- The environment may be replaced by a renamed one, as it is behind each method. -/
theorem withEnv (h : b.Renames r b') {env env' : Env} (henv : env.Renames r env') :
    ClassBody.Renames r { b with env } { b' with env := env' } :=
  ⟨h.cls, h.name, henv, h.declared, h.nextField⟩

/-- The next slot is a number of methods. -/
theorem nextSlot (h : b.Renames r b') : b'.nextSlot = b.nextSlot := by
  rw [ClassBody.nextSlot, ClassBody.nextSlot, h.cls, h.env.classes.layout?, Option.map_map]
  rfl

/-- Whether a member is new, overrides or collides depends on which names are equal, and a renaming keeps that. -/
theorem placement (h : b.Renames r b') (kind : EntryKind) (name : String) :
    b'.placement kind (r.name name) = b.placement kind name := by
  rw [ClassBody.placement, ClassBody.placement, h.declared, h.env.scopes.lookupLocal?]
  simp only [List.mem_map_of_injective r.name_injective]

theorem reserve (h : b.Renames r b') (name : String) : (b.reserve name).Renames r (b'.reserve (r.name name)) :=
  ⟨h.cls, h.name, h.env, congrArg (r.name name :: ·) h.declared, h.nextField⟩

/-- What is done to the layout must not look at names. -/
theorem modifyLayout (h : b.Renames r b') {f : ClassLayout → ClassLayout} (hf : ∀ l, (f l).rename r = f (l.rename r)) :
    (b.modifyLayout f).Renames r (b'.modifyLayout f) := by
  refine h.withEnv (h.env.withClasses ?_)
  rw [h.cls]
  exact h.env.classes.modifyLayout b.cls hf

/-- The member's entry is recorded under its new id. -/
theorem addMember (h : b.Renames r b') (id : NodeId) (name : Name) (kind : EntryKind) (ty : Ty) (offset : Int) :
    (b.addMember id name kind ty offset).1.Renames r (b'.addMember (r.node id) (name.rename r) kind ty offset).1 ∧
      (b'.addMember (r.node id) (name.rename r) kind ty offset).2 =
        Findings.rename r (b.addMember id name kind ty offset).2 := by
  simp only [ClassBody.addMember, Name.text_rename, h.cls, h.env.level]
  exact ⟨(h.reserve name.text).withEnv
    ⟨h.env.scopes.overwrite name.text _, h.env.classes.insertMember b.cls name.text _, h.env.nextLocal⟩, rfl⟩

/-- The three cases of a member are the same on both sides, by `placement`. -/
theorem declareField (h : b.Renames r b') (hr : r.Uniform) (f : Param) (ty : Ty) :
    (b.declareField f ty).1.Renames r (b'.declareField (f.rename r) ty).1 ∧
      (b'.declareField (f.rename r) ty).2 = Findings.rename r (b.declareField f ty).2 := by
  rw [Param.rename, hr.part, hr.part, ClassBody.declareField, ClassBody.declareField, Name.text_rename, h.placement]
  cases b.placement .field f.name.text with
  | duplicate => exact ⟨h, rfl⟩
  | collision inherited =>
    refine ⟨h.reserve f.name.text, ?_⟩
    simp only [ClassBody.rejectCollision, h.name]
    rfl
  | override offset =>
    exact (h.modifyLayout fun l => l.rename_setField r offset ty).addMember f.id f.name .field ty offset
  | fresh =>
    have hmid := h.modifyLayout fun l => l.rename_addField r ty
    have hnext : ClassBody.Renames r { b.modifyLayout (·.addField ty) with nextField := b.nextField - ty.words }
        { b'.modifyLayout (·.addField ty) with nextField := b.nextField - ty.words } :=
      ⟨hmid.cls, hmid.name, hmid.env, hmid.declared, rfl⟩
    simp only [h.nextField]
    exact hnext.addMember f.id f.name .field ty b.nextField

theorem declareMethod (h : b.Renames r b') (hr : r.Uniform) (m : FunDecl) (sig : Signature) :
    (b.declareMethod m sig).1.Renames r (b'.declareMethod (m.rename r) sig).1 ∧
      (b'.declareMethod (m.rename r) sig).2 = Findings.rename r (b.declareMethod m sig).2 := by
  rw [ClassBody.declareMethod, ClassBody.declareMethod, FunDecl.rename_eq hr, Name.text_rename, h.placement]
  cases b.placement .method m.name.text with
  | duplicate => exact ⟨h, rfl⟩
  | collision inherited =>
    refine ⟨h.reserve m.name.text, ?_⟩
    simp only [ClassBody.rejectCollision, h.name]
    rfl
  | override slot =>
    exact (h.modifyLayout fun l => l.rename_setMethod r slot sig).addMember m.id m.name .method sig.ty slot
  | fresh =>
    simp only [h.nextSlot]
    exact (h.modifyLayout fun l => l.rename_addMethod r sig).addMember m.id m.name .method sig.ty b.nextSlot

/-- By induction on the fields: what one of them reserves is seen by the later ones. -/
theorem declareFields (hr : r.Uniform) (fs : List Param) :
    ∀ {b b' : ClassBody}, b.Renames r b' →
      (b.declareFields fs).1.Renames r (b'.declareFields (Param.renameAll r fs)).1 ∧
        (b'.declareFields (Param.renameAll r fs)).2 = Findings.rename r (b.declareFields fs).2 := by
  induction fs with
  | nil => exact fun h => ⟨h, rfl⟩
  | cons f fs ih =>
    intro b b' h
    obtain ⟨hfirst, hfound⟩ := h.declareField hr f (f.type.resolve b.env.classes)
    obtain ⟨hrest, hfounds⟩ := ih hfirst
    simp only [Param.renameAll, hr.part, ClassBody.declareFields, Param.resolve_rename hr h.env.classes,
      Param.findings_rename hr h.env.classes, hfound, hfounds, Findings.rename_append]
    exact ⟨hrest, trivial⟩

end ClassBody.Renames

/-! ## Declarations -/

/-- A superclass is found under its new name, or reported. -/
theorem Env.Renames.superclass {env env' : Env} (h : env.Renames r env') (cls : Name) (sup : Option Name) :
    env'.superclass (cls.rename r) (sup.map (Name.rename r)) =
      ((env.superclass cls sup).1, Findings.rename r (env.superclass cls sup).2) := by
  cases sup with
  | none => rfl
  | some sup =>
    rw [Option.map_some, Env.superclass, Env.superclass, Name.text_rename, h.classes.lookup?]
    cases env.classes.lookup? sup.text <;> rfl

/-- A class gets the same position on both sides. -/
theorem Env.Renames.declareClass {env env' : Env} (h : env.Renames r env') (id : NodeId) (name : Name)
    (sup : Option Name) :
    (env'.declareClass (r.node id) (name.rename r) (sup.map (Name.rename r))).1 = (env.declareClass id name sup).1 ∧
      (env.declareClass id name sup).2.1.Renames r
        (env'.declareClass (r.node id) (name.rename r) (sup.map (Name.rename r))).2.1 ∧
      (env'.declareClass (r.node id) (name.rename r) (sup.map (Name.rename r))).2.2 =
        Findings.rename r (env.declareClass id name sup).2.2 := by
  have hclasses := h.classes.declare name.text (env.superclass name sup).1
  obtain ⟨hdeclared, hfound⟩ := (h.withClasses hclasses).declareLocal id name .cls (.cls env.classes.size)
  simp only [Env.declareClass, h.superclass, h.level, Name.text_rename, ClassTable.declare, h.classes.size,
    Findings.rename_append] at hdeclared hfound ⊢
  refine ⟨trivial, hdeclared, ?_⟩
  rw [hfound]
  split <;> rfl

mutual

/-- By recursion over declarations, functions and methods, with related environments on the way. The environments
must be known for the sake of method calls. -/
theorem Decl.bind_rename (hr : r.Uniform) {env env' : Env} (h : env.Renames r env') (hk : env.Known) :
    (d : Decl) → (d.bind env).1.Renames r ((d.rename r).bind env').1 ∧
      ((d.rename r).bind env').2 = Findings.rename r (d.bind env).2
  | .var id name type init _ => by
    obtain ⟨hdeclared, hfound⟩ := h.declareLocal id name .var (type.resolve env.classes)
    simp only [Decl.rename, hr.part, Decl.bind, TypeExpr.resolve_rename hr h.classes,
      TypeExpr.findings_rename hr h.classes, init.findings_rename hr h hk, hfound, Findings.rename_append]
    exact ⟨hdeclared, trivial⟩
  | .func f => by
    obtain ⟨hdeclared, hfound⟩ := h.declareLocal f.id f.name .func (f.signature env.classes).ty
    have hknown := (hk.declareLocal f.id f.name .func (f.known_signature env.classes)).1
    obtain ⟨hclasses, hinner⟩ := FunDecl.bindBody_rename hr hdeclared hknown (f.signature env.classes).params
      (by rw [Env.classes_declareLocal]; exact f.known_params _) f
    simp only [Decl.rename, Decl.bind, FunDecl.signature_rename hr h.classes,
      FunDecl.headFindings_rename hr h.classes, Findings.rename_append]
    rw [FunDecl.rename_eq hr] at hclasses hinner ⊢
    simp only [hfound, hinner]
    exact ⟨hdeclared.withClasses hclasses, trivial⟩
  | .cls ⟨id, name, superclass, fields, methods, _⟩ => by
    obtain ⟨hcls, hdeclared, hhead⟩ := h.declareClass id name superclass
    have hknown := (Env.known_declareClass hk id name superclass).1
    have henter := ClassBody.Renames.enter hdeclared (env.declareClass id name superclass).1 name.text
    have henterKnown := ClassBody.known_enter hknown (env.declareClass id name superclass).1 name.text
    obtain ⟨hfields, hinFields⟩ := ClassBody.Renames.declareFields hr fields henter
    have hfieldsKnown := (ClassBody.known_declareFields fields henterKnown).1
    obtain ⟨hmethods, hinMethods⟩ := ClassBody.bindMethods_rename hr hfields hfieldsKnown methods
    simp only [Decl.rename, hr.part, Decl.bind, Name.text_rename, hcls, hhead, hinFields, hinMethods,
      Findings.rename_append]
    exact ⟨hdeclared.withClasses hmethods.env.classes, trivial⟩

/-- A body is walked in its own frame, and only the class table comes out of it. -/
theorem FunDecl.bindBody_rename (hr : r.Uniform) {env env' : Env} (h : env.Renames r env') (hk : env.Known)
    (paramTypes : List Ty) (hparams : ∀ ty ∈ paramTypes, Ty.Known env.classes.size ty) :
    (f : FunDecl) → (f.bindBody env paramTypes).1.Renames r ((f.rename r).bindBody env' paramTypes).1 ∧
      ((f.rename r).bindBody env' paramTypes).2 = Findings.rename r (f.bindBody env paramTypes).2
  | ⟨_, _, params, _, decls, body, _⟩ => by
    obtain ⟨hhead, hinParams⟩ := Env.Renames.declareParams (params.zip paramTypes) hr Env.firstParam h.enterFrame
    have hheadKnown := (Env.Known.declareParams (params.zip paramTypes) Env.firstParam hk.enterFrame
      fun p hp => hparams p.2 (List.of_mem_zip hp).2).1
    obtain ⟨hinner, hinDecls⟩ := Decl.bindAll_rename hr hhead hheadKnown decls
    have hbody := body.findings_rename hr hinner (Decl.known_bindAll hheadKnown decls).1
    simp only [FunDecl.rename, hr.part, FunDecl.bindBody, Param.renameAll_eq hr, List.zip_map_left, hinParams,
      hinDecls, hbody, Findings.rename_append]
    exact ⟨hinner.classes, trivial⟩

/-- Each method is declared before its body is walked. -/
theorem ClassBody.bindMethods_rename (hr : r.Uniform) {b b' : ClassBody} (h : b.Renames r b') (hk : b.env.Known) :
    (ms : List FunDecl) → (b.bindMethods ms).1.Renames r (b'.bindMethods (FunDecl.renameAll r ms)).1 ∧
      (b'.bindMethods (FunDecl.renameAll r ms)).2 = Findings.rename r (b.bindMethods ms).2
  | [] => ⟨h, rfl⟩
  | m :: ms => by
    obtain ⟨hdeclared, hfound⟩ := h.declareMethod hr m (m.signature b.env.classes)
    have hknown := (ClassBody.known_declareMethod hk m (m.known_signature b.env.classes)).1
    have hle := (b.evolves_declareMethod m (m.signature b.env.classes)).size_le
    have hparams := fun ty hty => (m.known_params b.env.classes ty hty).mono hle
    obtain ⟨hclasses, hinner⟩ := FunDecl.bindBody_rename hr hdeclared.env hknown (m.signature b.env.classes).params
      hparams m
    obtain ⟨hclassesKnown, -, hle'⟩ := FunDecl.known_bindBody hknown (m.signature b.env.classes).params hparams m
    obtain ⟨hrest, hfounds⟩ := ClassBody.bindMethods_rename hr
      (hdeclared.withEnv (hdeclared.env.withClasses hclasses)) (hknown.withClasses hclassesKnown hle') ms
    simp only [FunDecl.renameAll, hr.part, ClassBody.bindMethods, FunDecl.signature_rename hr h.env.classes,
      FunDecl.headFindings_rename hr h.env.classes, hfound, hinner, hfounds, Findings.rename_append]
    exact ⟨hrest, trivial⟩

/-- What one declaration makes of the environment is what the next one is bound in. -/
theorem Decl.bindAll_rename (hr : r.Uniform) {env env' : Env} (h : env.Renames r env') (hk : env.Known) :
    (ds : List Decl) → (Decl.bindAll env ds).1.Renames r (Decl.bindAll env' (Decl.renameAll r ds)).1 ∧
      (Decl.bindAll env' (Decl.renameAll r ds)).2 = Findings.rename r (Decl.bindAll env ds).2
  | [] => ⟨h, rfl⟩
  | d :: ds => by
    obtain ⟨hfirst, hfs⟩ := Decl.bind_rename hr h hk d
    obtain ⟨hrest, hgs⟩ := Decl.bindAll_rename hr hfirst (Decl.known_bind hk d).1 ds
    simp only [Decl.renameAll, hr.part, Decl.bindAll, hfs, hgs, Findings.rename_append]
    exact ⟨hrest, trivial⟩

end

/-! ## Programs -/

theorem Env.renames_initial (r : Renaming) : Env.initial.Renames r Env.initial :=
  ⟨.cons .empty .nil, .nil, rfl⟩

/-- Binding starts from the same initial environment on both sides. -/
theorem Program.walk_rename (hr : r.Uniform) (p : Program) :
    p.walk.1.Renames r (p.rename r).walk.1 ∧ (p.rename r).walk.2 = Findings.rename r p.walk.2 := by
  obtain ⟨henv, hfound⟩ := Decl.bindAll_rename hr (Env.renames_initial r) Env.known_initial p.decls
  have hbody := p.body.findings_rename hr henv (Decl.known_bindAll Env.known_initial p.decls).1
  simp only [Program.walk, Program.rename, hr.part, hfound, hbody, Findings.rename_append]
  exact ⟨henv, trivial⟩

/-- A renamed program is bound to renamed tables, with renamed errors. -/
theorem Program.bind_rename (hr : r.Uniform) (p : Program) :
    p.bind.tables.Renames r (p.rename r).bind.tables ∧
      (p.rename r).bind.errors = p.bind.errors.map (SemanticError.rename r []) := by
  obtain ⟨henv, hfound⟩ := p.walk_rename hr
  simp only [Program.bind, hfound, Findings.errors_rename]
  exact ⟨⟨p.walk.2.resolutions_rename r, henv.classes⟩, trivial⟩

end ObjLet
