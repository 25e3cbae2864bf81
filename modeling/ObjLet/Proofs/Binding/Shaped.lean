import ObjLet.Proofs.Binding.Reach

/-!
# Shapes of entries

The kind of an entry determines the shape of its type (`Entry.Shaped`): a class has the type of a class, a function
or a method has an arrow, and nothing but a class has a type that mentions the type of a class. Declarations make no
other entries, whatever is wrong with the program, so that the scopes, the classes and the findings of the walk have
no others (`Env.Shaped`, `Findings.Shaped`), nor have the tables (`Program.shaped_of_holds`). The members of a class
are fields and methods.
-/

namespace ObjLet

/-! ## Types of values -/

namespace TyOf

variable {κ : Type}

mutual

/-- Nothing in the type is the type of a class. -/
def IsValue : TyOf κ → Prop
  | int | bool | null | ref _ => True
  | cls _ => False
  | arrow ps r => AreValues ps ∧ IsValue r

def AreValues : List (TyOf κ) → Prop
  | [] => True
  | t :: ts => IsValue t ∧ AreValues ts

end

theorem areValues_iff {ts : List (TyOf κ)} : AreValues ts ↔ ∀ t ∈ ts, t.IsValue := by
  induction ts with
  | nil => exact iff_of_true trivial (List.forall_mem_nil _)
  | cons t ts ih => rw [AreValues, ih, List.forall_mem_cons]

end TyOf

/-- The type of a function consists of types of values where its signature does. -/
theorem Signature.isValue_ty {sig : Signature} : sig.ty.IsValue ↔ (∀ p ∈ sig.params, p.IsValue) ∧ sig.ret.IsValue := by
  rw [Signature.ty, TyOf.IsValue, TyOf.areValues_iff]

mutual

/-- A type that is written in a program is one of values, unknown classes included. -/
theorem TypeExpr.isValue_resolve (t : ClassTable) : (ty : TypeExpr) → (ty.resolve t).IsValue
  | .int | .bool | .null => trivial
  | .ref c => by
    rw [TypeExpr.resolve]
    split <;> trivial
  | .arrow params ret => ⟨TypeExpr.areValues_resolveAll t params, TypeExpr.isValue_resolve t ret⟩

theorem TypeExpr.areValues_resolveAll (t : ClassTable) :
    (tys : List TypeExpr) → TyOf.AreValues (TypeExpr.resolveAll t tys)
  | [] => trivial
  | ty :: tys => ⟨TypeExpr.isValue_resolve t ty, TypeExpr.areValues_resolveAll t tys⟩

end

/-- The parameters of a function have types of values. -/
theorem FunDecl.isValue_params (t : ClassTable) (f : FunDecl) : ∀ ty ∈ (f.signature t).params, ty.IsValue := by
  intro ty hty
  obtain ⟨p, -, rfl⟩ := List.mem_map.1 hty
  exact p.type.isValue_resolve t

theorem FunDecl.isValue_signature (t : ClassTable) (f : FunDecl) : (f.signature t).ty.IsValue :=
  Signature.isValue_ty.2 ⟨f.isValue_params t, f.ret.isValue_resolve t⟩

/-! ## Entries -/

/-- The type of an entry has the shape that its kind asks for. -/
structure Entry.Shaped (e : Entry) : Prop where
  cls : e.kind = .cls → ∃ c, e.ty = .cls c
  value : e.kind ≠ .cls → e.ty.IsValue
  callable : e.kind = .func ∨ e.kind = .method → ∃ sig : Signature, e.ty = sig.ty

/-- The entry of a field or a method. -/
def Entry.IsMember (e : Entry) : Prop := e.kind = .field ∨ e.kind = .method

namespace Entry

variable {level : Nat} {offset : Int}

theorem shaped_value {kind : EntryKind} (hk : kind = .var ∨ kind = .param ∨ kind = .field) {ty : Ty}
    (hty : ty.IsValue) : Shaped ⟨kind, level, offset, ty⟩ where
  cls h := by obtain rfl | rfl | rfl := hk <;> cases h
  value _ := hty
  callable h := by obtain rfl | rfl | rfl := hk <;> simp at h

theorem shaped_function {kind : EntryKind} (hk : kind = .func ∨ kind = .method) {sig : Signature}
    (hsig : sig.ty.IsValue) : Shaped ⟨kind, level, offset, sig.ty⟩ where
  cls h := by obtain rfl | rfl := hk <;> cases h
  value _ := hsig
  callable _ := ⟨sig, rfl⟩

theorem shaped_cls (c : ClassId) : Shaped ⟨.cls, level, offset, .cls c⟩ where
  cls _ := ⟨c, rfl⟩
  value h := absurd rfl h
  callable := by simp

end Entry

def Scope.Shaped (s : Scope) : Prop := ∀ (name : String) (e : Entry), s[name]? = some e → e.Shaped

def Scope.MembersOnly (s : Scope) : Prop := ∀ (name : String) (e : Entry), s[name]? = some e → e.IsMember

/-! ## Classes -/

structure Class.Shaped (c : Class) : Prop where
  members : Scope.Shaped c.members
  membersOnly : Scope.MembersOnly c.members

def ClassTable.Shaped (t : ClassTable) : Prop := ∀ (id : ClassId) (c : Class), t.class? id = some c → c.Shaped

namespace ClassTable.Shaped

variable {t : ClassTable}

theorem empty : ClassTable.empty.Shaped := by
  intro id c hc
  simp [class?, ClassTable.empty] at hc

/-- A new class starts from the members of another one or from none. -/
theorem newClass (h : t.Shaped) (id : ClassId) (name : String) (sup : Option ClassId) :
    (ClassTable.newClass id name (sup.bind t.class?)).Shaped := by
  cases hsup : sup.bind t.class? with
  | none => constructor <;> simp [Scope.Shaped, Scope.MembersOnly, ClassTable.newClass]
  | some parent =>
    obtain ⟨k, -, hk⟩ := Option.bind_eq_some_iff.1 hsup
    exact ⟨(h k parent hk).members, (h k parent hk).membersOnly⟩

/-- A new class takes over the members of its superclass. -/
theorem declare (h : t.Shaped) (name : String) (sup : Option ClassId) : (t.declare name sup).2.Shaped := by
  intro id c hc
  rw [class?_declare] at hc
  split at hc
  · cases hc
    exact h.newClass _ _ _
  · exact h id c hc

/-- A change to one class that keeps its shape. -/
theorem modify (h : t.Shaped) (k : ClassId) {f : Class → Class} (hf : ∀ c, c.Shaped → (f c).Shaped) :
    (t.modify k f).Shaped := by
  intro id c hc
  rw [class?_modify] at hc
  split at hc
  · obtain ⟨c', hc', rfl⟩ := Option.map_eq_some_iff.1 hc
    exact hf c' (h id c' hc')
  · exact h id c hc

theorem insertMember (h : t.Shaped) (k : ClassId) (name : String) {e : Entry} (he : e.Shaped) (hm : e.IsMember) :
    (t.insertMember k name e).Shaped :=
  h.modify k fun _ hc =>
    ⟨Scope.forall_insert (P := fun _ e => e.Shaped) hc.members he,
      Scope.forall_insert (P := fun _ e => e.IsMember) hc.membersOnly hm⟩

end ClassTable.Shaped

/-! ## Environments and findings -/

structure Env.Shaped (env : Env) : Prop where
  scopes : ∀ s ∈ env.scopes.scopes, s.Shaped
  classes : env.classes.Shaped

def Finding.Shaped : Finding → Prop
  | use _ r => r.entry.Shaped
  | methodCall _ m => m.method.Shaped ∧ m.method.kind = .method
  | declaration _ e => e.Shaped
  | error _ => True

def Findings.Shaped (fs : Findings) : Prop := ∀ f ∈ fs, f.Shaped

namespace Findings

theorem shaped_nil : Findings.Shaped [] := List.forall_mem_nil _

@[simp] theorem shaped_append {fs gs : Findings} :
    Findings.Shaped (fs ++ gs) ↔ Findings.Shaped fs ∧ Findings.Shaped gs :=
  List.forall_mem_append

theorem shaped_singleton {f : Finding} : Findings.Shaped [f] ↔ f.Shaped := List.forall_mem_singleton

/-- An error is no entry, so there is nothing about its shape. -/
theorem shaped_error (name : Name) (problem : Problem) : Findings.Shaped [name.error problem] :=
  shaped_singleton.2 trivial

end Findings

open Findings

/-- Types have no entries. -/
theorem FunDecl.shaped_headFindings (t : ClassTable) (f : FunDecl) : (f.headFindings t).Shaped := by
  rw [headFindings_eq]
  intro g hg
  obtain ⟨c, -, rfl⟩ := List.mem_map.1 hg
  trivial

theorem TypeExpr.shaped_findings (t : ClassTable) (ty : TypeExpr) : (ty.findings t).Shaped := by
  intro g hg
  obtain ⟨c, -, rfl⟩ := List.mem_map.1 hg
  trivial

namespace Env.Shaped

variable {env : Env}

/-- At the beginning there are an empty scope and no classes. -/
theorem initial : Env.initial.Shaped where
  scopes := by
    refine List.forall_mem_singleton.2 fun name e he => ?_
    simp at he
  classes := .empty

theorem withClasses (h : env.Shaped) {t : ClassTable} (ht : t.Shaped) : Shaped { env with classes := t } :=
  ⟨h.scopes, ht⟩

theorem push (h : env.Shaped) {s : Scope} (hs : s.Shaped) (next : Int) :
    Shaped { env with scopes := env.scopes.push s, nextLocal := next } :=
  ⟨List.forall_mem_cons.2 ⟨hs, h.scopes⟩, h.classes⟩

theorem enterFrame (h : env.Shaped) : env.enterFrame.Shaped := by
  refine h.push (fun name e he => ?_) _
  simp at he

/-! ### Uses -/

/-- Whatever a use is bound to has the shape of its kind. -/
theorem bind_use (h : env.Shaped) (u : Use) : (u.bind env).Shaped := by
  cases u with
  | ident id name =>
    rw [Use.bind, bindName]
    split
    · next e he =>
      obtain ⟨s, hs, hse⟩ := ScopeStack.exists_of_lookup? he
      exact h.scopes s hs _ e hse
    · trivial
  | new id cls =>
    rw [Use.bind, bindNew]
    split
    · next e he =>
      obtain ⟨s, hs, hse⟩ := ScopeStack.exists_of_lookupClass? he
      exact h.scopes s hs _ e hse
    · trivial
  | methodCall id object method =>
    rw [Use.bind, bindMethodCall]
    split
    · trivial
    · split
      · trivial
      · split
        · trivial
        · next found hfound =>
          obtain ⟨hmember, hk⟩ := Option.filter_eq_some_iff.1 hfound
          obtain ⟨members, hmembers, hm⟩ := Option.bind_eq_some_iff.1 hmember
          obtain ⟨c, hc, rfl⟩ := Option.map_eq_some_iff.1 hmembers
          exact ⟨(h.classes _ c hc).members _ found hm, by simpa using hk⟩

/-- An expression finds the entries that its uses are bound to, which come from the environment. -/
theorem findings (h : env.Shaped) (e : Expr) : Findings.Shaped (e.findings env) := by
  rw [e.findings_eq]
  intro f hf
  obtain ⟨u, -, rfl⟩ := List.mem_map.1 hf
  exact h.bind_use u

/-! ### Declarations of names -/

/-- A declaration of an entry that has its shape. -/
theorem declare (h : env.Shaped) (id : NodeId) (name : Name) {e : Entry} (he : e.Shaped) :
    (env.declare id name e).1.Shaped ∧ Findings.Shaped (env.declare id name e).2 := by
  constructor
  · refine ⟨Env.all_declare (P := fun _ e => e.Shaped) h.scopes id name he, ?_⟩
    rw [Env.classes_declare]
    exact h.classes
  · unfold Env.declare
    split
    · exact shaped_singleton.2 he
    · exact List.forall_mem_cons.2 ⟨he, shaped_error _ _⟩

theorem declareLocal (h : env.Shaped) (id : NodeId) (name : Name) {kind : EntryKind} {ty : Ty}
    (he : Entry.Shaped ⟨kind, env.level, env.nextLocal, ty⟩) :
    (env.declareLocal id name kind ty).1.Shaped ∧ Findings.Shaped (env.declareLocal id name kind ty).2 :=
  have hmoved : Shaped { env with nextLocal := env.nextLocal - ty.words } := ⟨h.scopes, h.classes⟩
  hmoved.declare id name he

theorem declareParams (pts : List (Param × Ty)) :
    ∀ {env : Env} (next : Int), env.Shaped → (∀ pt ∈ pts, pt.2.IsValue) →
      (env.declareParams next pts).1.Shaped ∧ Findings.Shaped (env.declareParams next pts).2 := by
  induction pts with
  | nil => exact fun _ h _ => ⟨h, shaped_nil⟩
  | cons pt pts ih =>
    intro env next h hpts
    obtain ⟨hpt, hpts⟩ := List.forall_mem_cons.1 hpts
    simp only [Env.declareParams, shaped_append]
    obtain ⟨hfirst, hfs⟩ := h.declare pt.1.id pt.1.name (e := ⟨.param, env.level, next + pt.2.words - 1, pt.2⟩)
      (Entry.shaped_value (.inr (.inl rfl)) hpt)
    obtain ⟨hrest, hgs⟩ := ih (next + pt.2.words) hfirst hpts
    exact ⟨hrest, hfs, hgs⟩

/-- The parameters of a function, where it is entered. -/
theorem inner (h : env.Shaped) (f : FunDecl) {paramTypes : List Ty} (hparams : ∀ ty ∈ paramTypes, ty.IsValue) :
    (f.inner env paramTypes).Shaped ∧
      Findings.Shaped (env.enterFrame.declareParams Env.firstParam (f.params.zip paramTypes)).2 :=
  declareParams (f.params.zip paramTypes) Env.firstParam h.enterFrame fun pt hpt => hparams pt.2 (List.of_mem_zip hpt).2

/-- A class in a block: its entry has the type of the class and no other. -/
theorem declareClass (h : env.Shaped) (id : NodeId) (name : Name) (superclass : Option Name) :
    (env.declareClass id name superclass).2.1.Shaped ∧
      Findings.Shaped (env.declareClass id name superclass).2.2 := by
  have hsuper : Findings.Shaped (env.superclass name superclass).2 := by
    unfold Env.superclass
    split
    · exact shaped_nil
    · split
      · exact shaped_nil
      · exact shaped_error _ _
  have hnested : Findings.Shaped (if env.level = 0 then [] else [name.error (.nestedClass name.text)]) := by
    split
    · exact shaped_nil
    · exact shaped_error _ _
  have hnew := h.withClasses (h.classes.declare name.text (env.superclass name superclass).1)
  obtain ⟨hdeclared, hfound⟩ := hnew.declareLocal id name (Entry.shaped_cls env.classes.size)
  simp only [Env.declareClass, shaped_append]
  exact ⟨hdeclared, ⟨hnested, hsuper⟩, hfound⟩

end Env.Shaped

/-! ## Class bodies -/

namespace ClassBody

variable {b : ClassBody}

/-- A new member goes to the class and to the scope of its body. -/
theorem shaped_addMember (h : b.env.Shaped) (id : NodeId) (name : Name) {kind : EntryKind} {ty : Ty} {offset : Int}
    (he : Entry.Shaped ⟨kind, b.env.level, offset, ty⟩) (hk : kind = .field ∨ kind = .method) :
    (b.addMember id name kind ty offset).1.env.Shaped ∧ Findings.Shaped (b.addMember id name kind ty offset).2 := by
  refine ⟨⟨?_, h.classes.insertMember b.cls name.text he hk⟩, shaped_singleton.2 he⟩
  exact ScopeStack.All.overwrite (P := fun _ e => e.Shaped) h.scopes name.text he

theorem shaped_modifyLayout (h : b.env.Shaped) (f : ClassLayout → ClassLayout) : (b.modifyLayout f).env.Shaped :=
  h.withClasses (h.classes.modify b.cls fun _ hc => ⟨hc.members, hc.membersOnly⟩)

/-- A field, declared, overridden or rejected. -/
theorem shaped_declareField (h : b.env.Shaped) (f : Param) {ty : Ty} (hty : ty.IsValue) :
    (b.declareField f ty).1.env.Shaped ∧ Findings.Shaped (b.declareField f ty).2 := by
  have hentry : ∀ {level offset}, Entry.Shaped ⟨.field, level, offset, ty⟩ :=
    Entry.shaped_value (.inr (.inr rfl)) hty
  unfold declareField
  split
  · exact ⟨h, shaped_error _ _⟩
  · exact ⟨h, shaped_error _ _⟩
  · exact shaped_addMember (shaped_modifyLayout h _) f.id f.name hentry (.inl rfl)
  · exact shaped_addMember (b := { b.modifyLayout (·.addField ty) with nextField := b.nextField - ty.words })
      (shaped_modifyLayout h _) f.id f.name hentry (.inl rfl)

/-- A method, declared, overridden or rejected. -/
theorem shaped_declareMethod (h : b.env.Shaped) (m : FunDecl) {sig : Signature} (hsig : sig.ty.IsValue) :
    (b.declareMethod m sig).1.env.Shaped ∧ Findings.Shaped (b.declareMethod m sig).2 := by
  have hentry : ∀ {level offset}, Entry.Shaped ⟨.method, level, offset, sig.ty⟩ :=
    Entry.shaped_function (.inr rfl) hsig
  unfold declareMethod
  split
  · exact ⟨h, shaped_error _ _⟩
  · exact ⟨h, shaped_error _ _⟩
  · exact shaped_addMember (shaped_modifyLayout h _) m.id m.name hentry (.inr rfl)
  · exact shaped_addMember (shaped_modifyLayout h _) m.id m.name hentry (.inr rfl)

theorem shaped_declareFields (fs : List Param) :
    ∀ {b : ClassBody}, b.env.Shaped → (b.declareFields fs).1.env.Shaped ∧ Findings.Shaped (b.declareFields fs).2 := by
  induction fs with
  | nil => exact fun h => ⟨h, shaped_nil⟩
  | cons f fs ih =>
    intro b h
    obtain ⟨hfirst, hfound⟩ := shaped_declareField h f (f.type.isValue_resolve b.env.classes)
    obtain ⟨hrest, hfounds⟩ := ih hfirst
    simp only [declareFields, shaped_append]
    exact ⟨hrest, ⟨f.type.shaped_findings _, hfound⟩, hfounds⟩

/-- The scope of a class body has the members of the class. -/
theorem shaped_enter {env : Env} (h : env.Shaped) (cls : ClassId) (name : String) : (enter env cls name).env.Shaped := by
  refine h.push (fun n e he => ?_) _
  cases hc : env.classes.class? cls with
  | none => simp [ClassTable.members?, hc] at he
  | some c =>
    rw [ClassTable.members?, hc] at he
    exact (h.classes cls c hc).members n e he

end ClassBody

/-! ## The walk -/

mutual

/-- A declaration and all that is inside of it. -/
theorem Decl.shaped_bind {env : Env} (h : env.Shaped) : (d : Decl) → (d.bind env).1.Shaped ∧ (d.bind env).2.Shaped
  | .var id name type init _ => by
    obtain ⟨hdeclared, hfound⟩ := h.declareLocal id name
      (Entry.shaped_value (.inl rfl) (type.isValue_resolve env.classes))
    simp only [Decl.bind, shaped_append]
    exact ⟨hdeclared, ⟨h.findings init, type.shaped_findings _⟩, hfound⟩
  | .func f => by
    obtain ⟨hdeclared, hfound⟩ := h.declareLocal f.id f.name
      (Entry.shaped_function (.inl rfl) (f.isValue_signature env.classes))
    obtain ⟨hclasses, hinner⟩ := FunDecl.shaped_bindBody hdeclared (f.isValue_params env.classes) f
    simp only [Decl.bind, shaped_append]
    exact ⟨hdeclared.withClasses hclasses, ⟨f.shaped_headFindings _, hfound⟩, hinner⟩
  | .cls ⟨id, name, superclass, fields, methods, _⟩ => by
    obtain ⟨hdeclared, hhead⟩ := h.declareClass id name superclass
    obtain ⟨hfields, hinFields⟩ := ClassBody.shaped_declareFields fields
      (ClassBody.shaped_enter hdeclared (env.declareClass id name superclass).1 name.text)
    obtain ⟨hmethods, hinMethods⟩ := ClassBody.shaped_bindMethods hfields methods
    simp only [Decl.bind, shaped_append]
    exact ⟨hdeclared.withClasses hmethods.classes, ⟨hhead, hinFields⟩, hinMethods⟩

theorem FunDecl.shaped_bindBody {env : Env} (h : env.Shaped) {paramTypes : List Ty}
    (hparams : ∀ ty ∈ paramTypes, ty.IsValue) :
    (f : FunDecl) → (f.bindBody env paramTypes).1.Shaped ∧ (f.bindBody env paramTypes).2.Shaped
  | ⟨id, name, params, ret, decls, body, span⟩ => by
    obtain ⟨hhead, hinParams⟩ := h.inner ⟨id, name, params, ret, decls, body, span⟩ hparams
    obtain ⟨hinner, hinDecls⟩ := Decl.shaped_bindAll hhead decls
    simp only [FunDecl.bindBody, shaped_append]
    exact ⟨hinner.classes, ⟨hinParams, hinDecls⟩, hinner.findings body⟩

theorem ClassBody.shaped_bindMethods {b : ClassBody} (h : b.env.Shaped) :
    (ms : List FunDecl) → (b.bindMethods ms).1.env.Shaped ∧ (b.bindMethods ms).2.Shaped
  | [] => ⟨h, shaped_nil⟩
  | m :: ms => by
    obtain ⟨hdeclared, hfound⟩ := ClassBody.shaped_declareMethod h m (m.isValue_signature b.env.classes)
    obtain ⟨hclasses, hinner⟩ := FunDecl.shaped_bindBody hdeclared (m.isValue_params b.env.classes) m
    obtain ⟨hrest, hfounds⟩ := ClassBody.shaped_bindMethods (b := (b.bindMethod m).1) (hdeclared.withClasses hclasses) ms
    simp only [ClassBody.bindMethods, shaped_append]
    exact ⟨hrest, ⟨⟨m.shaped_headFindings _, hfound⟩, hinner⟩, hfounds⟩

theorem Decl.shaped_bindAll {env : Env} (h : env.Shaped) :
    (ds : List Decl) → (Decl.bindAll env ds).1.Shaped ∧ (Decl.bindAll env ds).2.Shaped
  | [] => ⟨h, shaped_nil⟩
  | d :: ds => by
    obtain ⟨hfirst, hfs⟩ := Decl.shaped_bind h d
    obtain ⟨hrest, hgs⟩ := Decl.shaped_bindAll hfirst ds
    simp only [Decl.bindAll, shaped_append]
    exact ⟨hrest, hfs, hgs⟩

end

theorem ClassDecl.shaped_bodyBehind (c : ClassDecl) {env : Env} (h : env.Shaped) (methods : List FunDecl) :
    (c.bodyBehind env methods).env.Shaped := by
  have hopened : (c.opened env).env.Shaped := ClassBody.shaped_enter (h.declareClass _ _ _).1 _ _
  exact (ClassBody.shaped_bindMethods (ClassBody.shaped_declareFields c.fields hopened).1 methods).1

/-! ## Programs -/

variable {p : Program}

/-- Wherever the walk comes, entries have the shapes of their kinds. -/
theorem Program.Reaches.shaped {env : Env} {ds : List Decl} {e : Expr} (h : p.Reaches env ds e) : env.Shaped := by
  induction h with
  | start => exact .initial
  | next _ ih => exact (Decl.shaped_bind ih _).1
  | @inside env env' d ds e sig f _ ho ih =>
    cases ho with
    | func =>
      have hdeclared := (ih.declareLocal f.id f.name
        (Entry.shaped_function (.inl rfl) (f.isValue_signature env.classes))).1
      exact (hdeclared.inner f (f.isValue_params env.classes)).1
    | @method c pre post _ hm =>
      let classes := (c.bodyBehind env pre).env.classes
      have hdeclared := (ClassBody.shaped_declareMethod (c.shaped_bodyBehind ih pre) f (f.isValue_signature classes)).1
      exact (hdeclared.inner f (f.isValue_params classes)).1

/-- Everything that the walk finds in a program has its shape. -/
theorem Program.shaped_walk (p : Program) : p.walk.2.Shaped := by
  obtain ⟨henv, hfound⟩ := Decl.shaped_bindAll .initial p.decls
  exact shaped_append.2 ⟨hfound, henv.findings p.body⟩

/-- What the tables of a program hold has the shape of its kind. -/
theorem Program.shaped_of_holds {f : Finding} (h : p.bind.tables.resolutions.Holds f) : f.Shaped :=
  p.shaped_walk f (mem_of_holds h)

end ObjLet
