import ObjLet.Proofs.Class.Evolve

/-!
# Classes are kept

Whatever is wrong with a declaration, it leaves the classes that there were as they are and only adds classes
(`Decl.keeps_bind`). What is declared in the body of a class changes that class alone
(`ClassBody.keepsBut_bindMethods`): a method body changes no class, and the members go to the class itself.
-/

namespace ObjLet

namespace ClassTable

variable {t u v : ClassTable} {k : ClassId}

/-- The second table has the classes of the first at their positions. -/
def Keeps (t u : ClassTable) : Prop := ∀ (id : ClassId) (c : Class), t.class? id = some c → u.class? id = some c

/-- The same, apart from the class at one position. -/
def KeepsBut (t u : ClassTable) (k : ClassId) : Prop :=
  ∀ (id : ClassId) (c : Class), id ≠ k → t.class? id = some c → u.class? id = some c

theorem Keeps.refl (t : ClassTable) : t.Keeps t := fun _ _ h => h

theorem Keeps.trans (h : t.Keeps u) (h' : u.Keeps v) : t.Keeps v := fun id c hc => h' id c (h id c hc)

/-- To keep all classes is to keep all but one. -/
theorem Keeps.but (h : t.Keeps u) (k : ClassId) : t.KeepsBut u k := fun id c _ hc => h id c hc

theorem KeepsBut.refl (t : ClassTable) (k : ClassId) : t.KeepsBut t k := fun _ _ _ h => h

theorem KeepsBut.trans (h : t.KeepsBut u k) (h' : u.KeepsBut v k) : t.KeepsBut v k :=
  fun id c hne hc => h' id c hne (h id c hne hc)

theorem lt_of_class? {id : ClassId} {c : Class} (h : t.class? id = some c) : id < t.size :=
  (List.getElem?_eq_some_iff.1 h).1

/-- A class behind the table is none of those that it has. -/
theorem KeepsBut.keeps (h : t.KeepsBut u k) (hk : t.size ≤ k) : t.Keeps u := by
  intro id c hc
  have hlt := lt_of_class? hc
  exact h id c (Nat.ne_of_lt (Nat.lt_of_lt_of_le hlt hk)) hc

/-- A new class comes behind the others. -/
theorem keeps_declare (t : ClassTable) (name : String) (sup : Option ClassId) :
    t.Keeps (t.declare name sup).2 := by
  intro id c hc
  have hlt := lt_of_class? hc
  rw [class?_declare, if_neg (Nat.ne_of_lt hlt), hc]

/-- A change to one class leaves the others alone. -/
theorem keepsBut_modify (t : ClassTable) (id : ClassId) (f : Class → Class) : t.KeepsBut (t.modify id f) id := by
  intro c cls hne hc
  rw [class?_modify, if_neg (Ne.symm hne), hc]

end ClassTable

open ClassTable (Keeps KeepsBut)

namespace ClassBody

/-- Declare a method and walk its body. -/
def bindMethod (b : ClassBody) (m : FunDecl) : ClassBody × Findings :=
  let sig := m.signature b.env.classes
  let (b', declared) := b.declareMethod m sig
  let (classes, inner) := m.bindBody b'.env sig.params
  ({ b' with env := { b'.env with classes } }, m.headFindings b.env.classes ++ declared ++ inner)

/-- The methods of a class are bound one after the other. -/
theorem bindMethods_cons (b : ClassBody) (m : FunDecl) (ms : List FunDecl) :
    b.bindMethods (m :: ms) =
      (((b.bindMethod m).1.bindMethods ms).1, (b.bindMethod m).2 ++ ((b.bindMethod m).1.bindMethods ms).2) := rfl

@[simp] theorem cls_declareField (b : ClassBody) (f : Param) (ty : Ty) : (b.declareField f ty).1.cls = b.cls := by
  unfold declareField
  split <;> rfl

@[simp] theorem cls_declareMethod (b : ClassBody) (m : FunDecl) (sig : Signature) :
    (b.declareMethod m sig).1.cls = b.cls := by
  unfold declareMethod
  split <;> rfl

@[simp] theorem cls_declareFields (fs : List Param) : ∀ b : ClassBody, (b.declareFields fs).1.cls = b.cls := by
  induction fs with
  | nil => exact fun _ => rfl
  | cons f fs ih => exact fun b => (ih _).trans (b.cls_declareField f _)

@[simp] theorem cls_bindMethod (b : ClassBody) (m : FunDecl) : (b.bindMethod m).1.cls = b.cls :=
  b.cls_declareMethod m _

/-- The body of a class changes its own layout only. -/
theorem keepsBut_modifyLayout (b : ClassBody) (f : ClassLayout → ClassLayout) :
    b.env.classes.KeepsBut (b.modifyLayout f).env.classes b.cls :=
  ClassTable.keepsBut_modify _ _ _

/-- A member goes to the class of the body. -/
theorem keepsBut_addMember (b : ClassBody) (id : NodeId) (name : Name) (kind : EntryKind) (ty : Ty)
    (offset : Int) : b.env.classes.KeepsBut (b.addMember id name kind ty offset).1.env.classes b.cls :=
  ClassTable.keepsBut_modify _ _ _

/-- A field changes its own class only. -/
theorem keepsBut_declareField (b : ClassBody) (f : Param) (ty : Ty) :
    b.env.classes.KeepsBut (b.declareField f ty).1.env.classes b.cls := by
  unfold declareField
  split
  · exact KeepsBut.refl _ _
  · exact KeepsBut.refl _ _
  · exact (b.keepsBut_modifyLayout _).trans (keepsBut_addMember _ _ _ _ _ _)
  · exact (b.keepsBut_modifyLayout (·.addField ty)).trans
      (keepsBut_addMember { b.modifyLayout (·.addField ty) with nextField := b.nextField - ty.words } _ _ _ _ _)

theorem keepsBut_declareMethod (b : ClassBody) (m : FunDecl) (sig : Signature) :
    b.env.classes.KeepsBut (b.declareMethod m sig).1.env.classes b.cls := by
  unfold declareMethod
  split
  · exact KeepsBut.refl _ _
  · exact KeepsBut.refl _ _
  · exact (b.keepsBut_modifyLayout _).trans (keepsBut_addMember _ _ _ _ _ _)
  · exact (b.keepsBut_modifyLayout _).trans (keepsBut_addMember _ _ _ _ _ _)

theorem keepsBut_declareFields {k : ClassId} (fs : List Param) :
    ∀ b : ClassBody, b.cls = k → b.env.classes.KeepsBut (b.declareFields fs).1.env.classes k := by
  induction fs with
  | nil => exact fun _ _ => KeepsBut.refl _ _
  | cons f fs ih =>
    rintro b rfl
    exact (b.keepsBut_declareField f _).trans (ih _ (b.cls_declareField f _))

end ClassBody

mutual

/-- A declaration keeps all classes that were there. The one that it declares itself is new. -/
theorem Decl.keeps_bind (env : Env) : (d : Decl) → env.classes.Keeps (d.bind env).1.classes
  | .var _ _ _ _ _ => by
    simp only [Decl.bind, Env.classes_declareLocal]
    exact Keeps.refl _
  | .func f => by
    simp only [Decl.bind]
    have h := FunDecl.keeps_bindBody
      (env.declareLocal f.id f.name .func (f.signature env.classes).ty).1
      (f.signature env.classes).params f
    rwa [Env.classes_declareLocal] at h
  | .cls ⟨id, name, superclass, fields, methods, _⟩ => by
    simp only [Decl.bind]
    let b := ClassBody.enter (env.declareClass id name superclass).2.1 env.classes.size name.text
    have hnew : env.classes.Keeps b.env.classes := by
      change env.classes.Keeps (env.declareClass id name superclass).2.1.classes
      rw [Env.classes_declareClass]
      exact env.classes.keeps_declare _ _
    have hfields := ClassBody.keepsBut_declareFields fields b rfl
    have hmethods := ClassBody.keepsBut_bindMethods (ClassBody.cls_declareFields fields b) methods
    exact (((hnew.but _).trans hfields).trans hmethods).keeps (Nat.le_refl _)

/-- A function body keeps all classes around it. -/
theorem FunDecl.keeps_bindBody (env : Env) (paramTypes : List Ty) :
    (f : FunDecl) → env.classes.Keeps (f.bindBody env paramTypes).1
  | ⟨_, _, params, _, decls, _, _⟩ => by
    simp only [FunDecl.bindBody]
    have h := Decl.keeps_bindAll
      (env.enterFrame.declareParams Env.firstParam (params.zip paramTypes)).1 decls
    rwa [Env.classes_declareParams] at h

/-- The methods of a class keep all classes but this one. -/
theorem ClassBody.keepsBut_bindMethods {b : ClassBody} {k : ClassId} (hk : b.cls = k) :
    (ms : List FunDecl) → b.env.classes.KeepsBut (b.bindMethods ms).1.env.classes k
  | [] => KeepsBut.refl _ _
  | m :: ms => by
    subst hk
    rw [ClassBody.bindMethods_cons]
    have hbody := FunDecl.keeps_bindBody (b.declareMethod m (m.signature b.env.classes)).1.env
      (m.signature b.env.classes).params m
    have hmember : b.env.classes.KeepsBut (b.bindMethod m).1.env.classes b.cls :=
      (b.keepsBut_declareMethod m (m.signature b.env.classes)).trans (hbody.but _)
    exact hmember.trans (ClassBody.keepsBut_bindMethods (b.cls_bindMethod m) ms)

/-- The declarations of a block keep all classes around it. -/
theorem Decl.keeps_bindAll (env : Env) :
    (ds : List Decl) → env.classes.Keeps (Decl.bindAll env ds).1.classes
  | [] => Keeps.refl _
  | d :: ds => by
    simp only [Decl.bindAll]
    exact (Decl.keeps_bind env d).trans (Decl.keeps_bindAll _ ds)

end

end ObjLet
