import ObjLet.Proofs.Class.Evolve

/-!
# Known classes

A type that binding yields mentions no class that has not been declared. `Env.Known` says so of the scopes and
the class table at a point of the program, `Findings.Known` of what is found; every step of binding keeps both
(`Decl.known_bindAll`), since the class table only grows.
-/

namespace ObjLet

namespace TyOf

variable {κ : Type}

mutual

/-- The classes that a type mentions. -/
def classes : TyOf κ → List κ
  | int | bool | null => []
  | ref c | cls c => [c]
  | arrow ps r => classesAll ps ++ classes r

def classesAll : List (TyOf κ) → List κ
  | [] => []
  | t :: ts => classes t ++ classesAll ts

end

theorem classesAll_eq_flatMap (ts : List (TyOf κ)) : classesAll ts = ts.flatMap classes := by
  induction ts with
  | nil => rfl
  | cons t ts ih => rw [classesAll, ih, List.flatMap_cons]

end TyOf

/-- The classes of a type are among the first `n`. -/
def Ty.Known (n : Nat) (ty : Ty) : Prop := ∀ c ∈ ty.classes, c < n

variable {n m : Nat}

/-- A type whose classes are known stays one when there are more classes. -/
theorem Ty.Known.mono (hn : n ≤ m) {ty : Ty} (h : Ty.Known n ty) : Ty.Known m ty :=
  fun c hc => Nat.lt_of_lt_of_le (h c hc) hn

@[simp] theorem Ty.known_null : Ty.Known n .null := by rintro c ⟨⟩

@[simp] theorem Ty.known_ref {c : ClassId} : Ty.Known n (.ref c) ↔ c < n := List.forall_mem_singleton

@[simp] theorem Ty.known_cls {c : ClassId} : Ty.Known n (.cls c) ↔ c < n := List.forall_mem_singleton

theorem Ty.known_arrow {ps : List Ty} {r : Ty} :
    Ty.Known n (.arrow ps r) ↔ (∀ p ∈ ps, Ty.Known n p) ∧ Ty.Known n r := by
  simp only [Ty.Known, TyOf.classes, TyOf.classesAll_eq_flatMap, List.forall_mem_append, List.mem_flatMap]
  refine and_congr_left' ⟨fun h p hp c hc => h c ⟨p, hp, hc⟩, ?_⟩
  rintro h c ⟨p, hp, hc⟩
  exact h p hp c hc

/-! ## Resolved types -/

/-- A name stands for a class of the table. -/
theorem ClassTable.lookup?_lt {t : ClassTable} {name : String} {id : ClassId} (h : t.lookup? name = some id) :
    id < t.size :=
  (List.findIdx?_eq_some_iff_getElem.1 h).1

mutual

/-- A type resolves to classes of the table; unknown names leave none. -/
theorem TypeExpr.known_resolve (t : ClassTable) : (ty : TypeExpr) → Ty.Known t.size (ty.resolve t)
  | .int | .bool | .null => by rintro c ⟨⟩
  | .ref c => by
    rw [TypeExpr.resolve]
    split
    · next h => exact Ty.known_ref.2 (ClassTable.lookup?_lt h)
    · exact Ty.known_null
  | .arrow params ret => by
    rw [TypeExpr.resolve, Ty.known_arrow]
    exact ⟨TypeExpr.known_resolveAll t params, TypeExpr.known_resolve t ret⟩

theorem TypeExpr.known_resolveAll (t : ClassTable) :
    (tys : List TypeExpr) → ∀ ty ∈ TypeExpr.resolveAll t tys, Ty.Known t.size ty
  | [] => List.forall_mem_nil _
  | ty :: tys => List.forall_mem_cons.2 ⟨TypeExpr.known_resolve t ty, TypeExpr.known_resolveAll t tys⟩

end

theorem FunDecl.known_params (t : ClassTable) (f : FunDecl) : ∀ ty ∈ (f.signature t).params, Ty.Known t.size ty := by
  intro ty hty
  obtain ⟨p, -, rfl⟩ := List.mem_map.1 hty
  exact p.type.known_resolve t

theorem FunDecl.known_signature (t : ClassTable) (f : FunDecl) : Ty.Known t.size (f.signature t).ty :=
  Ty.known_arrow.2 ⟨f.known_params t, f.ret.known_resolve t⟩

/-! ## Scopes and classes -/

def Scope.Known (n : Nat) (s : Scope) : Prop := ∀ (name : String) (e : Entry), s[name]? = some e → Ty.Known n e.ty

/-- A scope stays one of known classes when there are more classes. -/
theorem Scope.Known.mono (hn : n ≤ m) {s : Scope} (h : s.Known n) : s.Known m :=
  fun name e he => (h name e he).mono hn

theorem Scope.known_empty : Scope.Known n ∅ := by
  intro name e h
  simp at h

theorem Scope.Known.insert {s : Scope} (h : s.Known n) (name : String) {e : Entry} (he : Ty.Known n e.ty) :
    Scope.Known n (s.insert name e) :=
  Scope.forall_insert (P := fun _ e => Ty.Known n e.ty) h he

structure Class.Known (n : Nat) (c : Class) : Prop where
  fields : ∀ ty ∈ c.layout.fields, Ty.Known n ty
  methods : ∀ sig ∈ c.layout.methods, Ty.Known n sig.ty
  members : Scope.Known n c.members

/-- A class stays one of known classes when there are more. -/
theorem Class.Known.mono (hn : n ≤ m) {c : Class} (h : c.Known n) : c.Known m :=
  ⟨fun ty hty => (h.fields ty hty).mono hn, fun s hs => (h.methods s hs).mono hn, h.members.mono hn⟩

namespace ClassTable

variable {t : ClassTable}

def Known (t : ClassTable) : Prop := ∀ id c, t.class? id = some c → c.Known t.size

theorem Evolves.size_le {u : ClassTable} (h : t.Evolves u) : t.size ≤ u.size := by
  induction h with
  | refl => exact Nat.le_refl _
  | declare name sup _ ih => exact (size_declare _ name sup).symm ▸ Nat.le_succ_of_le ih
  | modify id _ _ ih => exact (size_modify _ id _).symm ▸ ih

theorem known_empty : empty.Known := by
  intro id c h
  simp [class?, empty] at h

/-- A new class starts with the members of its superclass. -/
theorem Known.declare (h : t.Known) (name : String) (sup : Option ClassId) : (t.declare name sup).2.Known := by
  intro id c hc
  have hle := Nat.le_succ t.size
  rw [class?_declare] at hc
  rw [size_declare]
  split at hc
  · cases hc
    cases hp : sup.bind t.class? with
    | none => exact ⟨List.forall_mem_nil _, List.forall_mem_nil _, Scope.known_empty⟩
    | some parent =>
      obtain ⟨p, -, hclass⟩ := Option.bind_eq_some_iff.1 hp
      have hparent := (h p parent hclass).mono hle
      exact ⟨hparent.fields, hparent.methods, hparent.members⟩
  · exact (h id c hc).mono hle

/-- A change to one class that keeps to known classes. -/
theorem Known.modify (h : t.Known) (id : ClassId) {f : Class → Class} (hf : ∀ c, c.Known t.size → (f c).Known t.size) :
    (t.modify id f).Known := by
  intro c k hk
  rw [size_modify]
  rw [class?_modify] at hk
  split at hk
  · obtain ⟨k', hk', rfl⟩ := Option.map_eq_some_iff.1 hk
    exact hf k' (h c k' hk')
  · exact h c k hk

theorem Known.insertMember (h : t.Known) (id : ClassId) (name : String) {e : Entry} (he : Ty.Known t.size e.ty) :
    (t.insertMember id name e).Known :=
  h.modify id fun _ hc => ⟨hc.fields, hc.methods, hc.members.insert name he⟩

theorem Known.members (h : t.Known) (id : ClassId) : Scope.Known t.size ((t.members? id).getD ∅) := by
  cases hc : t.class? id with
  | none =>
    rw [members?, hc]
    exact Scope.known_empty
  | some c =>
    rw [members?, hc]
    exact (h id c hc).members

end ClassTable

/-- To override a field adds its type and no other. -/
theorem ClassLayout.mem_fields_setField {l : ClassLayout} {offset : Int} {ty ty' : Ty}
    (h : ty' ∈ (l.setField offset ty).fields) : ty' = ty ∨ ty' ∈ l.fields := by
  unfold setField at h
  split at h
  · exact (List.mem_or_eq_of_mem_set h).symm
  · exact .inr h

/-- To override a method adds its signature and no other. -/
theorem ClassLayout.mem_methods_setMethod {l : ClassLayout} {slot : Int} {sig sig' : Signature}
    (h : sig' ∈ (l.setMethod slot sig).methods) : sig' = sig ∨ sig' ∈ l.methods := by
  unfold setMethod at h
  split at h
  · exact .inr h
  · exact (List.mem_or_eq_of_mem_set h).symm

@[simp] theorem ClassLayout.methods_setField (l : ClassLayout) (offset : Int) (ty : Ty) :
    (l.setField offset ty).methods = l.methods := by
  unfold setField
  split <;> rfl

@[simp] theorem ClassLayout.fields_setMethod (l : ClassLayout) (slot : Int) (sig : Signature) :
    (l.setMethod slot sig).fields = l.fields := by
  unfold setMethod
  split <;> rfl

namespace Class.Known

variable {c : Class}

/-- A layout that has gained a field type. -/
theorem withField (h : c.Known n) {l : ClassLayout} {ty : Ty} (hty : Ty.Known n ty)
    (hf : ∀ ty' ∈ l.fields, ty' = ty ∨ ty' ∈ c.layout.fields) (hm : l.methods = c.layout.methods) :
    Class.Known n { c with layout := l } where
  fields ty' h' := by
    obtain rfl | h' := hf ty' h'
    · exact hty
    · exact h.fields ty' h'
  methods := by
    rw [hm]
    exact h.methods
  members := h.members

/-- A layout that has gained a signature. -/
theorem withMethod (h : c.Known n) {l : ClassLayout} {sig : Signature} (hsig : Ty.Known n sig.ty)
    (hm : ∀ sig' ∈ l.methods, sig' = sig ∨ sig' ∈ c.layout.methods) (hf : l.fields = c.layout.fields) :
    Class.Known n { c with layout := l } where
  fields := by
    rw [hf]
    exact h.fields
  methods sig' h' := by
    obtain rfl | h' := hm sig' h'
    · exact hsig
    · exact h.methods sig' h'
  members := h.members

end Class.Known

/-! ## Environments and findings -/

structure Env.Known (env : Env) : Prop where
  scopes : ∀ s ∈ env.scopes.scopes, Scope.Known env.classes.size s
  classes : env.classes.Known

def Finding.Known (n : Nat) : Finding → Prop
  | use _ r => Ty.Known n r.entry.ty
  | methodCall _ m => Ty.Known n m.method.ty
  | declaration _ e => Ty.Known n e.ty
  | error _ => True

def Findings.Known (n : Nat) (fs : Findings) : Prop := ∀ f ∈ fs, f.Known n

namespace Findings

@[simp] theorem known_nil : Findings.Known n [] := List.forall_mem_nil _

@[simp] theorem known_append {fs gs : Findings} :
    Findings.Known n (fs ++ gs) ↔ Findings.Known n fs ∧ Findings.Known n gs :=
  List.forall_mem_append

@[simp] theorem known_cons {f : Finding} {fs : Findings} :
    Findings.Known n (f :: fs) ↔ f.Known n ∧ Findings.Known n fs :=
  List.forall_mem_cons

@[simp] theorem known_error (name : Name) (problem : Problem) : (name.error problem).Known n := trivial

theorem Known.mono (hn : n ≤ m) {fs : Findings} (h : Findings.Known n fs) : Findings.Known m fs := by
  intro f hf
  have hknown := h f hf
  cases f with
  | use | methodCall | declaration => exact Ty.Known.mono hn hknown
  | error => trivial

end Findings

@[simp] theorem TypeExpr.known_findings (t : ClassTable) (ty : TypeExpr) : Findings.Known n (ty.findings t) := by
  intro f hf
  obtain ⟨c, -, rfl⟩ := List.mem_map.1 hf
  trivial

@[simp] theorem FunDecl.known_headFindings (t : ClassTable) (f : FunDecl) : Findings.Known n (f.headFindings t) := by
  refine Findings.known_append.2 ⟨fun g hg => ?_, f.ret.known_findings t⟩
  obtain ⟨p, -, hp⟩ := List.mem_flatMap.1 hg
  exact p.type.known_findings t g hp

/-! ## Binding keeps to known classes -/

/-- What is looked up stands in one of the scopes. -/
theorem ScopeStack.exists_of_lookup? {s : ScopeStack} {name : String} {e : Entry} (h : s.lookup? name = some e) :
    ∃ scope ∈ s.scopes, scope[name]? = some e :=
  List.exists_of_findSome?_eq_some h

/-- A class that is looked up stands in one of the scopes. -/
theorem ScopeStack.exists_of_lookupClass? {s : ScopeStack} {name : String} {e : Entry}
    (h : s.lookupClass? name = some e) : ∃ scope ∈ s.scopes, scope[name]? = some e := by
  obtain ⟨scope, hs, he⟩ := List.exists_of_findSome?_eq_some h
  exact ⟨scope, hs, (Option.filter_eq_some_iff.1 he).1⟩

namespace Env.Known

variable {env : Env}

/-- What is looked up has a known type. -/
theorem lookup? (h : env.Known) {name : String} {e : Entry} (he : env.scopes.lookup? name = some e) :
    Ty.Known env.classes.size e.ty := by
  obtain ⟨scope, hs, he⟩ := ScopeStack.exists_of_lookup? he
  exact h.scopes scope hs name e he

/-- The class of an object in scope has been declared. -/
theorem class_lt (h : env.Known) {name : String} {e : Entry} (he : env.scopes.lookup? name = some e) {c : ClassId}
    (hc : e.ty.class? = some c) : c < env.classes.size := by
  have hty := h.lookup? he
  obtain ⟨kind, level, offset, ty⟩ := e
  cases ty with
  | ref d =>
    cases hc
    exact Ty.known_ref.1 hty
  | _ => cases hc

theorem withClasses (h : env.Known) {t : ClassTable} (ht : t.Known) (hle : env.classes.size ≤ t.size) :
    Env.Known { env with classes := t } :=
  ⟨fun s hs => (h.scopes s hs).mono hle, ht⟩

theorem push (h : env.Known) {s : Scope} (hs : s.Known env.classes.size) (next : Int) :
    Env.Known { env with scopes := env.scopes.push s, nextLocal := next } :=
  ⟨List.forall_mem_cons.2 ⟨hs, h.scopes⟩, h.classes⟩

theorem enterFrame (h : env.Known) : env.enterFrame.Known := h.push Scope.known_empty _

theorem declare (h : env.Known) (id : NodeId) (name : Name) {e : Entry} (he : Ty.Known env.classes.size e.ty) :
    (env.declare id name e).1.Known ∧ Findings.Known env.classes.size (env.declare id name e).2 := by
  constructor
  · have hscopes := Env.all_declare (P := fun _ e => Ty.Known env.classes.size e.ty) h.scopes id name he
    refine ⟨?_, ?_⟩
    · rwa [Env.classes_declare]
    · rw [Env.classes_declare]
      exact h.classes
  · unfold Env.declare
    split
    · exact Findings.known_cons.2 ⟨he, Findings.known_nil⟩
    · exact Findings.known_cons.2 ⟨he, Findings.known_cons.2 ⟨trivial, Findings.known_nil⟩⟩

theorem declareLocal (h : env.Known) (id : NodeId) (name : Name) (kind : EntryKind) {ty : Ty}
    (hty : Ty.Known env.classes.size ty) :
    (env.declareLocal id name kind ty).1.Known ∧
      Findings.Known env.classes.size (env.declareLocal id name kind ty).2 :=
  have hmoved : Env.Known { env with nextLocal := env.nextLocal - ty.words } := ⟨h.scopes, h.classes⟩
  hmoved.declare id name hty

theorem declareParams (ps : List (Param × Ty)) :
    ∀ {env : Env} (next : Int), env.Known → (∀ p ∈ ps, Ty.Known env.classes.size p.2) →
      (env.declareParams next ps).1.Known ∧ Findings.Known env.classes.size (env.declareParams next ps).2 := by
  induction ps with
  | nil => exact fun _ h _ => ⟨h, Findings.known_nil⟩
  | cons p ps ih =>
    intro env next h hps
    obtain ⟨hp, hps⟩ := List.forall_mem_cons.1 hps
    simp only [Env.declareParams, Findings.known_append]
    obtain ⟨hfirst, hfs⟩ := h.declare p.1.id p.1.name
      (e := { kind := .param, level := env.level, offset := next + p.2.words - 1, ty := p.2 }) hp
    obtain ⟨hrest, hgs⟩ := ih (next + p.2.words) hfirst (by rwa [Env.classes_declare])
    rw [Env.classes_declare] at hgs
    exact ⟨hrest, hfs, hgs⟩

/-- A name is bound to an entry of a known type. -/
theorem bindName (h : env.Known) (id : NodeId) (name : Name) : (env.bindName id name).Known env.classes.size := by
  unfold Env.bindName
  split
  · next e he => exact h.lookup? he
  · trivial

/-- A `new` is bound to an entry of a known type. -/
theorem bindNew (h : env.Known) (id : NodeId) (cls : Name) : (env.bindNew id cls).Known env.classes.size := by
  unfold Env.bindNew
  split
  · next e he =>
    obtain ⟨scope, hs, he⟩ := ScopeStack.exists_of_lookupClass? he
    exact h.scopes scope hs _ e he
  · trivial

/-- A method call is bound to a method of a known type. -/
theorem bindMethodCall (h : env.Known) (id : NodeId) (object method : Name) :
    (env.bindMethodCall id object method).Known env.classes.size := by
  unfold Env.bindMethodCall
  split
  · trivial
  · split
    · trivial
    · split
      · trivial
      · next found hfound =>
        obtain ⟨members, hmembers, hmember⟩ := Option.bind_eq_some_iff.1 (Option.filter_eq_some_iff.1 hfound).1
        obtain ⟨c, hc, rfl⟩ := Option.map_eq_some_iff.1 hmembers
        exact (h.classes _ c hc).members _ found hmember

end Env.Known

mutual

/-- What is found in an expression comes from the scopes around it. -/
theorem Expr.known_findings {env : Env} (h : env.Known) : (e : Expr) → Findings.Known env.classes.size (e.findings env)
  | .literal _ _ => Findings.known_nil
  | .ident id name => Findings.known_cons.2 ⟨h.bindName id name, Findings.known_nil⟩
  | .call id callee args _ => Findings.known_cons.2 ⟨h.bindName id callee, Expr.known_findingsAll h args⟩
  | .new id cls args _ =>
    Findings.known_append.2
      ⟨Expr.known_findingsAll h args, Findings.known_cons.2 ⟨h.bindNew id cls, Findings.known_nil⟩⟩
  | .methodCall id object method args _ =>
    Findings.known_append.2
      ⟨Expr.known_findingsAll h args, Findings.known_cons.2 ⟨h.bindMethodCall id object method, Findings.known_nil⟩⟩
  | .binary _ left right _ => Findings.known_append.2 ⟨Expr.known_findings h left, Expr.known_findings h right⟩
  | .unary _ operand _ => Expr.known_findings h operand
  | .cond condition thenExpr elseExpr _ =>
    Findings.known_append.2
      ⟨Findings.known_append.2 ⟨Expr.known_findings h condition, Expr.known_findings h thenExpr⟩,
        Expr.known_findings h elseExpr⟩
  | .print value _ => Expr.known_findings h value

theorem Expr.known_findingsAll {env : Env} (h : env.Known) :
    (es : List Expr) → Findings.Known env.classes.size (Expr.findingsAll env es)
  | [] => Findings.known_nil
  | e :: es => Findings.known_append.2 ⟨Expr.known_findings h e, Expr.known_findingsAll h es⟩

end

/-! ## Class bodies -/

namespace ClassBody

variable {b : ClassBody}

theorem known_addMember (h : b.env.Known) (id : NodeId) (name : Name) (kind : EntryKind) {ty : Ty} (offset : Int)
    (hty : Ty.Known b.env.classes.size ty) :
    (b.addMember id name kind ty offset).1.env.Known ∧
      Findings.Known b.env.classes.size (b.addMember id name kind ty offset).2 := by
  refine ⟨⟨?_, h.classes.insertMember b.cls name.text hty⟩, Findings.known_cons.2 ⟨hty, Findings.known_nil⟩⟩
  simp only [addMember, ClassTable.insertMember, ClassTable.size_modify]
  exact ScopeStack.All.overwrite (P := fun _ e => Ty.Known b.env.classes.size e.ty) h.scopes name.text hty

/-- A change of the layout that keeps to known classes. -/
theorem known_modifyLayout (h : b.env.Known) {f : ClassLayout → ClassLayout}
    (hf : ∀ c : Class, c.Known b.env.classes.size → Class.Known b.env.classes.size { c with layout := f c.layout }) :
    (b.modifyLayout f).env.Known :=
  h.withClasses (h.classes.modify b.cls hf) (by simp [ClassTable.modifyLayout])

theorem known_declareField (h : b.env.Known) (f : Param) {ty : Ty} (hty : Ty.Known b.env.classes.size ty) :
    (b.declareField f ty).1.env.Known ∧ Findings.Known b.env.classes.size (b.declareField f ty).2 := by
  have hsize : ∀ g, (b.modifyLayout g).env.classes.size = b.env.classes.size :=
    fun g => ClassTable.size_modify _ _ _
  unfold declareField
  split
  · exact ⟨h, Findings.known_cons.2 ⟨trivial, Findings.known_nil⟩⟩
  · exact ⟨h, Findings.known_cons.2 ⟨trivial, Findings.known_nil⟩⟩
  · next offset _ =>
    have hmid : (b.modifyLayout (·.setField offset ty)).env.Known :=
      known_modifyLayout h fun c hc => hc.withField hty (fun _ => ClassLayout.mem_fields_setField) (by simp)
    have hadd := known_addMember hmid f.id f.name .field offset (by rwa [hsize])
    rwa [hsize] at hadd
  · have hmid : (b.modifyLayout (·.addField ty)).env.Known :=
      known_modifyLayout h fun c hc => hc.withField hty (by simp [ClassLayout.addField, or_comm]) rfl
    have hadd := known_addMember (b := { b.modifyLayout (·.addField ty) with nextField := b.nextField - ty.words })
      hmid f.id f.name .field b.nextField (by rwa [hsize])
    rwa [hsize] at hadd

theorem known_declareMethod (h : b.env.Known) (m : FunDecl) {sig : Signature}
    (hsig : Ty.Known b.env.classes.size sig.ty) :
    (b.declareMethod m sig).1.env.Known ∧ Findings.Known b.env.classes.size (b.declareMethod m sig).2 := by
  have hsize : ∀ g, (b.modifyLayout g).env.classes.size = b.env.classes.size :=
    fun g => ClassTable.size_modify _ _ _
  unfold declareMethod
  split
  · exact ⟨h, Findings.known_cons.2 ⟨trivial, Findings.known_nil⟩⟩
  · exact ⟨h, Findings.known_cons.2 ⟨trivial, Findings.known_nil⟩⟩
  · next slot _ =>
    have hmid : (b.modifyLayout (·.setMethod slot sig)).env.Known :=
      known_modifyLayout h fun c hc => hc.withMethod hsig (fun _ => ClassLayout.mem_methods_setMethod) (by simp)
    have hadd := known_addMember hmid m.id m.name .method slot (by rwa [hsize])
    rwa [hsize] at hadd
  · have hmid : (b.modifyLayout (·.addMethod sig)).env.Known :=
      known_modifyLayout h fun c hc => hc.withMethod hsig (by simp [ClassLayout.addMethod, or_comm]) rfl
    have hadd := known_addMember hmid m.id m.name .method b.nextSlot (by rwa [hsize])
    rwa [hsize] at hadd

/-- The scope of a class body has the members of its class. -/
theorem known_enter {env : Env} (h : env.Known) (cls : ClassId) (name : String) : (enter env cls name).env.Known :=
  h.push (h.classes.members cls) _

/-- The fields of a class, whose types may be of any class so far. -/
theorem known_declareFields (fs : List Param) :
    ∀ {b : ClassBody}, b.env.Known → (b.declareFields fs).1.env.Known ∧
      Findings.Known (b.declareFields fs).1.env.classes.size (b.declareFields fs).2 ∧
      b.env.classes.size ≤ (b.declareFields fs).1.env.classes.size := by
  induction fs with
  | nil => exact fun h => ⟨h, Findings.known_nil, Nat.le_refl _⟩
  | cons f fs ih =>
    intro b h
    obtain ⟨hfirst, hfound⟩ := known_declareField h f (f.type.known_resolve b.env.classes)
    obtain ⟨hrest, hfounds, hle'⟩ := ih hfirst
    have hle := Nat.le_trans (b.evolves_declareField f (f.type.resolve b.env.classes)).size_le hle'
    simp only [declareFields, Findings.known_append]
    exact ⟨hrest, ⟨⟨f.type.known_findings _, hfound.mono hle⟩, hfounds⟩, hle⟩

end ClassBody

/-- A class in a block: its entry has the type of the class itself. -/
theorem Env.known_declareClass {env : Env} (h : env.Known) (id : NodeId) (name : Name) (superclass : Option Name) :
    (env.declareClass id name superclass).2.1.Known ∧
      Findings.Known (env.declareClass id name superclass).2.1.classes.size
        (env.declareClass id name superclass).2.2 := by
  have hsuper : Findings.Known (env.classes.size + 1) (env.superclass name superclass).2 := by
    unfold Env.superclass
    repeat' split
    all_goals simp
  have hnew : Env.Known { env with classes := (env.classes.declare name.text (env.superclass name superclass).1).2 } :=
    h.withClasses (h.classes.declare _ _) (by simp)
  have hcls : Ty.Known (env.classes.declare name.text (env.superclass name superclass).1).2.size
      (.cls env.classes.size) := by simp
  obtain ⟨hdeclared, hfound⟩ := hnew.declareLocal id name .cls hcls
  rw [Env.classes_declareClass, ClassTable.size_declare]
  rw [ClassTable.size_declare] at hfound
  simp only [Env.declareClass, Findings.known_append]
  refine ⟨hdeclared, ⟨?_, hsuper⟩, hfound⟩
  split <;> simp

/-! ## Declarations -/

mutual

/-- A declaration and all that is inside of it. -/
theorem Decl.known_bind {env : Env} (h : env.Known) :
    (d : Decl) → (d.bind env).1.Known ∧ Findings.Known (d.bind env).1.classes.size (d.bind env).2
  | .var id name type init _ => by
    obtain ⟨hdeclared, hfound⟩ := h.declareLocal id name .var (type.known_resolve env.classes)
    simp only [Decl.bind, Findings.known_append, Env.classes_declareLocal]
    exact ⟨hdeclared, ⟨init.known_findings h, type.known_findings _⟩, hfound⟩
  | .func f => by
    obtain ⟨hdeclared, hfound⟩ := h.declareLocal f.id f.name .func (f.known_signature env.classes)
    obtain ⟨hclasses, hinner, hle⟩ := FunDecl.known_bindBody hdeclared (f.signature env.classes).params
      (by rw [Env.classes_declareLocal]; exact f.known_params _) f
    simp only [Decl.bind, Findings.known_append]
    refine ⟨hdeclared.withClasses hclasses hle, ⟨f.known_headFindings _, hfound.mono ?_⟩, hinner⟩
    rwa [Env.classes_declareLocal] at hle
  | .cls ⟨id, name, superclass, fields, methods, _⟩ => by
    obtain ⟨hdeclared, hhead⟩ := Env.known_declareClass h id name superclass
    have henter := ClassBody.known_enter hdeclared (env.declareClass id name superclass).1 name.text
    obtain ⟨hfields, hinFields, hle⟩ := ClassBody.known_declareFields fields henter
    obtain ⟨hmethods, hinMethods, hle'⟩ := ClassBody.known_bindMethods hfields methods
    have hall := Nat.le_trans hle hle'
    simp only [Decl.bind, Findings.known_append]
    exact ⟨hdeclared.withClasses hmethods.classes hall, ⟨hhead.mono hall, hinFields.mono hle'⟩, hinMethods⟩

/-- A function body. Behind it there may be more classes, among them those of its own findings. -/
theorem FunDecl.known_bindBody {env : Env} (h : env.Known) (paramTypes : List Ty)
    (hparams : ∀ ty ∈ paramTypes, Ty.Known env.classes.size ty) :
    (f : FunDecl) → (f.bindBody env paramTypes).1.Known ∧
      Findings.Known (f.bindBody env paramTypes).1.size (f.bindBody env paramTypes).2 ∧
      env.classes.size ≤ (f.bindBody env paramTypes).1.size
  | ⟨_, _, params, _, decls, body, _⟩ => by
    obtain ⟨hhead, hinParams⟩ := Env.Known.declareParams (params.zip paramTypes) Env.firstParam
      h.enterFrame fun p hp => hparams p.2 (List.of_mem_zip hp).2
    obtain ⟨hinner, hinDecls⟩ := Decl.known_bindAll hhead decls
    have hle := (Decl.evolves_bindAll
      (env.enterFrame.declareParams Env.firstParam (params.zip paramTypes)).1 decls).size_le
    rw [Env.classes_declareParams] at hle
    simp only [FunDecl.bindBody, Findings.known_append]
    exact ⟨hinner.classes, ⟨⟨hinParams.mono hle, hinDecls⟩, body.known_findings hinner⟩, hle⟩

theorem ClassBody.known_bindMethods {b : ClassBody} (h : b.env.Known) :
    (ms : List FunDecl) → (b.bindMethods ms).1.env.Known ∧
      Findings.Known (b.bindMethods ms).1.env.classes.size (b.bindMethods ms).2 ∧
      b.env.classes.size ≤ (b.bindMethods ms).1.env.classes.size
  | [] => ⟨h, Findings.known_nil, Nat.le_refl _⟩
  | m :: ms => by
    obtain ⟨hdeclared, hfound⟩ := ClassBody.known_declareMethod h m (m.known_signature b.env.classes)
    have hle := (b.evolves_declareMethod m (m.signature b.env.classes)).size_le
    obtain ⟨hclasses, hinner, hle'⟩ := FunDecl.known_bindBody hdeclared (m.signature b.env.classes).params
      (fun ty hty => (m.known_params _ ty hty).mono hle) m
    have hbody := hdeclared.withClasses hclasses hle'
    obtain ⟨hrest, hfounds, hle''⟩ := ClassBody.known_bindMethods
      (b := { (b.declareMethod m (m.signature b.env.classes)).1 with env := _ }) hbody ms
    have hall := Nat.le_trans hle (Nat.le_trans hle' hle'')
    simp only [ClassBody.bindMethods, Findings.known_append]
    exact ⟨hrest, ⟨⟨⟨m.known_headFindings _, hfound.mono hall⟩, hinner.mono hle''⟩, hfounds⟩, hall⟩

theorem Decl.known_bindAll {env : Env} (h : env.Known) :
    (ds : List Decl) → (Decl.bindAll env ds).1.Known ∧
      Findings.Known (Decl.bindAll env ds).1.classes.size (Decl.bindAll env ds).2
  | [] => ⟨h, Findings.known_nil⟩
  | d :: ds => by
    obtain ⟨hfirst, hfs⟩ := Decl.known_bind h d
    obtain ⟨hrest, hgs⟩ := Decl.known_bindAll hfirst ds
    simp only [Decl.bindAll, Findings.known_append]
    exact ⟨hrest, hfs.mono (Decl.evolves_bindAll _ ds).size_le, hgs⟩

end

/-- At the start there are neither classes nor entries. -/
theorem Env.known_initial : Env.initial.Known :=
  ⟨List.forall_mem_singleton.2 Scope.known_empty, ClassTable.known_empty⟩

/-- What a program is bound to mentions classes of the program only. -/
theorem Program.known_walk (p : Program) :
    p.walk.1.Known ∧ Findings.Known p.walk.1.classes.size p.walk.2 := by
  obtain ⟨henv, hfound⟩ := Decl.known_bindAll Env.known_initial p.decls
  exact ⟨henv, Findings.known_append.2 ⟨hfound, p.body.known_findings henv⟩⟩

/-! ## Tables -/

/-- All that is recorded mentions classes of the class table only. -/
structure Tables.Known (t : Tables) : Prop where
  lineal : t.classes.Lineal
  classes : t.classes.Known
  uses : ∀ id use, t.resolutions.use? id = some use → Ty.Known t.classes.size use.entry.ty
  methodCalls : ∀ id call, t.resolutions.methodCall? id = some call → Ty.Known t.classes.size call.method.ty
  declarations : ∀ id e, t.resolutions.declaration? id = some e → Ty.Known t.classes.size e.ty

/-- A finding of known types is recorded. -/
theorem Tables.Known.record {t : Tables} (h : t.Known) {f : Finding} (hf : f.Known t.classes.size) :
    Tables.Known { t with resolutions := t.resolutions.record f } := by
  cases f with
  | use id use =>
    refine ⟨h.lineal, h.classes, fun id' use' h' => ?_, h.methodCalls, h.declarations⟩
    rw [Resolutions.record, Resolutions.use?_recordUse] at h'
    split at h'
    · cases h'
      exact hf
    · exact h.uses id' use' h'
  | methodCall id call =>
    refine ⟨h.lineal, h.classes, h.uses, fun id' call' h' => ?_, h.declarations⟩
    rw [Resolutions.record, Resolutions.methodCall?_recordMethodCall] at h'
    split at h'
    · cases h'
      exact hf
    · exact h.methodCalls id' call' h'
  | declaration id e =>
    refine ⟨h.lineal, h.classes, h.uses, h.methodCalls, fun id' e' h' => ?_⟩
    rw [Resolutions.record, Resolutions.declaration?_recordDeclaration] at h'
    split at h'
    · cases h'
      exact hf
    · exact h.declarations id' e' h'
  | error => exact h

/-- The tables of a program mention its own classes only. -/
theorem Program.known_tables (p : Program) : p.bind.tables.Known := by
  obtain ⟨henv, hfound⟩ := p.known_walk
  -- Recording does not touch the classes, so the findings can be recorded one by one into the final table.
  have hall : ∀ (fs : Findings) {t : Tables}, t.Known → Findings.Known t.classes.size fs →
      Tables.Known { t with resolutions := fs.foldl Resolutions.record t.resolutions } := by
    intro fs
    induction fs with
    | nil => exact fun h _ => h
    | cons f fs ih =>
      intro t h hfs
      obtain ⟨hf, hfs⟩ := Findings.known_cons.1 hfs
      exact ih (h.record hf) hfs
  refine hall p.walk.2 (t := ⟨{}, p.walk.1.classes⟩) ⟨p.lineal, henv.classes, ?_, ?_, ?_⟩ hfound
  · intro id use h
    simp [Resolutions.use?] at h
  · intro id call h
    simp [Resolutions.methodCall?] at h
  · intro id e h
    simp [Resolutions.declaration?] at h

end ObjLet
