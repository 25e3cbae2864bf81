import ObjLet.Proofs.Binding.Recorded
import ObjLet.Proofs.Class.Evolve

/-!
# Class bodies on their way

While the members of a class are declared, the class stands last in the table and its members are the
innermost scope (`ClassBody.At`). A clean member either has a new name or overrides an inherited member
of its kind (`At.declareField`, `At.declareMethod`).

Nothing else changes classes: where classes may not be declared a clean declaration leaves the class
table alone (`Decl.classes_bind`), and in the outermost block it at most adds a class behind the others
(`Decl.classes_prefix_bind`).
-/

namespace ObjLet

open Findings

variable {r : Resolutions}

/-! ## Levels and offsets -/

namespace Env

@[simp] theorem depth_declare (env : Env) (id : NodeId) (name : Name) (entry : Entry) :
    (env.declare id name entry).1.scopes.depth = env.scopes.depth := by
  unfold Env.declare
  split
  · next scopes hd =>
    unfold ScopeStack.declare at hd
    split at hd
    · cases hd
    next s outer hs =>
    split at hd
    · cases hd
    · cases hd
      simp [ScopeStack.depth, hs]
  · rfl

@[simp] theorem depth_declareLocal (env : Env) (id : NodeId) (name : Name) (kind : EntryKind)
    (ty : Ty) : (env.declareLocal id name kind ty).1.scopes.depth = env.scopes.depth :=
  depth_declare _ _ _ _

@[simp] theorem depth_declareParams (ps : List (Param × Ty)) :
    ∀ (env : Env) (next : Int), (env.declareParams next ps).1.scopes.depth = env.scopes.depth := by
  induction ps with
  | nil => exact fun _ _ => rfl
  | cons p ps ih =>
    intro env next
    simp only [declareParams, ih, depth_declare]

@[simp] theorem depth_enterFrame (env : Env) :
    env.enterFrame.scopes.depth = env.scopes.depth + 1 := rfl

@[simp] theorem depth_declareClass (env : Env) (id : NodeId) (name : Name)
    (superclass : Option Name) :
    (env.declareClass id name superclass).2.1.scopes.depth = env.scopes.depth := by
  simp [declareClass]

theorem level_eq_of_depth {env env' : Env} (h : env'.scopes.depth = env.scopes.depth) :
    env'.level = env.level := by
  simp only [level, ScopeStack.level, h]

@[simp] theorem nextLocal_declare (env : Env) (id : NodeId) (name : Name) (entry : Entry) :
    (env.declare id name entry).1.nextLocal = env.nextLocal := by
  unfold Env.declare
  split <;> rfl

@[simp] theorem nextLocal_declareParams (ps : List (Param × Ty)) :
    ∀ (env : Env) (next : Int), (env.declareParams next ps).1.nextLocal = env.nextLocal := by
  induction ps with
  | nil => exact fun _ _ => rfl
  | cons p ps ih => exact fun env next => (ih _ _).trans (env.nextLocal_declare _ _ _)

end Env

/-- Declarations stay in their scope. -/
@[simp] theorem Decl.depth_bind (env : Env) (d : Decl) :
    (d.bind env).1.scopes.depth = env.scopes.depth := by
  cases d with
  | var id name type init span => simp [Decl.bind]
  | func f => simp [Decl.bind]
  | cls c =>
    obtain ⟨id, name, superclass, fields, methods, span⟩ := c
    simp [Decl.bind]

/-- Behind a declaration the level is the same. -/
theorem Decl.level_bind (env : Env) (d : Decl) : (d.bind env).1.level = env.level :=
  Env.level_eq_of_depth (d.depth_bind env)

/-! ## Where no class may be declared -/

/-- A clean class is declared in the outermost block. -/
theorem Env.level_of_declareClass {env : Env} {id : NodeId} {name : Name} {superclass : Option Name}
    (h : Recorded r (env.declareClass id name superclass).2.2) : env.level = 0 := by
  simp only [Env.declareClass, recorded_append] at h
  by_cases hl : env.level = 0
  · exact hl
  · rw [if_neg hl] at h
    exact (recorded_cons.1 h.1.1).1.elim

mutual

/-- A clean declaration in a function leaves the classes alone. -/
theorem Decl.classes_bind {env : Env} (hl : env.level ≠ 0) :
    (d : Decl) → Recorded r (d.bind env).2 → (d.bind env).1.classes = env.classes
  | .var _ _ _ _ _, _ => by simp [Decl.bind]
  | .func f, h => by
    simp only [Decl.bind, recorded_append] at h ⊢
    have hd : (env.declareLocal f.id f.name .func (f.signature env.classes).ty).1.scopes.depth ≠ 0 := by
      rw [Env.depth_declareLocal]
      simp only [Env.level, ScopeStack.level] at hl
      omega
    rw [FunDecl.classes_bindBody hd _ f h.2, Env.classes_declareLocal]
  | .cls ⟨_, _, _, _, _, _⟩, h => by
    simp only [Decl.bind, recorded_append] at h
    exact absurd (Env.level_of_declareClass h.1.1) hl

/-- So does a clean function body. -/
theorem FunDecl.classes_bindBody {env : Env} (hd : env.scopes.depth ≠ 0) (paramTypes : List Ty) :
    (f : FunDecl) → Recorded r (f.bindBody env paramTypes).2 →
      (f.bindBody env paramTypes).1 = env.classes
  | ⟨_, _, params, _, decls, _, _⟩, h => by
    simp only [FunDecl.bindBody, recorded_append] at h ⊢
    have hl : (env.enterFrame.declareParams Env.firstParam (params.zip paramTypes)).1.level ≠ 0 := by
      simp only [Env.level, ScopeStack.level, Env.depth_declareParams, Env.depth_enterFrame]
      omega
    rw [Decl.classes_bindAll hl decls h.1.2, Env.classes_declareParams]
    rfl

/-- So do the clean declarations of a block. -/
theorem Decl.classes_bindAll {env : Env} (hl : env.level ≠ 0) :
    (ds : List Decl) → Recorded r (Decl.bindAll env ds).2 →
      (Decl.bindAll env ds).1.classes = env.classes
  | [], _ => rfl
  | d :: ds, h => by
    simp only [Decl.bindAll, recorded_append] at h ⊢
    have hl' : (d.bind env).1.level ≠ 0 := by rwa [Decl.level_bind]
    rw [Decl.classes_bindAll hl' ds h.2, Decl.classes_bind hl d h.1]

end

/-! ## The class that is being built -/

theorem modify_concat {α : Type} (l : List α) (a : α) (f : α → α) :
    (l ++ [a]).modify l.length f = l ++ [f a] := by
  induction l with
  | nil => rfl
  | cons b l ih => simp [ih]

namespace ClassBody

/-- The class `cur` is being built behind the classes `old`, inside the scopes `outer`. -/
structure At (b : ClassBody) (old : List Class) (cur : Class) (outer : List Scope) : Prop where
  classes : b.env.classes.classes = old ++ [cur]
  cls : b.cls = old.length
  scopes : b.env.scopes.scopes = cur.members :: outer

variable {b : ClassBody} {old : List Class} {cur : Class} {outer : List Scope}

/-- A class body is entered with the members that the class starts with. -/
theorem At.enter {env : Env} {start : Class} (name : String)
    (h : env.classes.classes = old ++ [start]) :
    (ClassBody.enter env old.length name).At old start env.scopes.scopes := by
  have hc : env.classes.class? old.length = some start := by
    rw [ClassTable.class?, h]
    exact List.getElem?_concat_length
  exact ⟨h, rfl, by simp [ClassBody.enter, ClassTable.members?, hc, ScopeStack.push]⟩

/-- The next field goes below the inherited ones. -/
theorem nextField_enter {env : Env} {start : Class} (name : String)
    (h : env.classes.classes = old ++ [start]) :
    (ClassBody.enter env old.length name).nextField = start.layout.nextFieldOffset := by
  have hc : env.classes.class? old.length = some start := by
    rw [ClassTable.class?, h]
    exact List.getElem?_concat_length
  simp [ClassBody.enter, ClassTable.layout?, hc]

theorem At.class? (h : b.At old cur outer) : b.env.classes.class? b.cls = some cur := by
  rw [ClassTable.class?, h.classes, h.cls]
  exact List.getElem?_concat_length

/-- The members of a class stand one level inside of its block. -/
theorem At.level (h : b.At old cur outer) : b.env.level = outer.length := by
  simp [Env.level, ScopeStack.level, ScopeStack.depth, h.scopes]

/-- The next method gets the slot behind those that the class has. -/
theorem At.nextSlot (h : b.At old cur outer) : b.nextSlot = cur.layout.methods.length := by
  simp [ClassBody.nextSlot, ClassTable.layout?, h.class?]

/-- A lookup in the scope of the body finds the members of the class. -/
theorem At.lookupLocal? (h : b.At old cur outer) (name : String) :
    b.env.scopes.lookupLocal? name = cur.members[name]? := by
  simp [ScopeStack.lookupLocal?, h.scopes]

/-- Changing the layout and adding a member changes the class and nothing else. -/
theorem At.addMember (h : b.At old cur outer) (f : ClassLayout → ClassLayout) (id : NodeId)
    (name : Name) (kind : EntryKind) (ty : Ty) (offset : Int) :
    ((b.modifyLayout f).addMember id name kind ty offset).1.At old
      ⟨f cur.layout, cur.members.insert name.text ⟨kind, outer.length, offset, ty⟩⟩ outer := by
  have hl : (b.modifyLayout f).env.level = outer.length := h.level
  refine ⟨?_, h.cls, ?_⟩
  · simp only [ClassBody.addMember, hl]
    simp only [ClassBody.modifyLayout, ClassTable.insertMember, ClassTable.modifyLayout,
      ClassTable.modify, h.classes, h.cls, modify_concat]
  · simp only [ClassBody.addMember, hl]
    simp only [ClassBody.modifyLayout, ScopeStack.overwrite, h.scopes]

/-- A clean member has a name of its own, which either is new or is that of an inherited member of its
kind. -/
theorem At.placement_cases (h : b.At old cur outer) {kind : EntryKind} {name : Name}
    {override : Int → ClassBody × Findings} {fresh : ClassBody × Findings}
    (hr : Recorded r (match b.placement kind name.text with
      | .duplicate => b.rejectDuplicate name kind
      | .collision inherited => b.rejectCollision name kind inherited
      | .override offset => override offset
      | .fresh => fresh).2) :
    name.text ∉ b.declared ∧
      ((cur.members[name.text]? = none ∧ b.placement kind name.text = .fresh) ∨
        ∃ e, cur.members[name.text]? = some e ∧ e.kind = kind ∧
          b.placement kind name.text = .override e.offset) := by
  cases hp : b.placement kind name.text with
  | duplicate => rw [hp] at hr; exact (recorded_cons.1 hr).1.elim
  | collision inherited => rw [hp] at hr; exact (recorded_cons.1 hr).1.elim
  | override offset | fresh =>
    -- What is left is decided by the member of the name that the class has up to now.
    unfold placement at hp
    by_cases hm : name.text ∈ b.declared
    · simp [hm] at hp
    rw [if_neg hm, h.lookupLocal?] at hp
    refine ⟨hm, ?_⟩
    split at hp
    · next hn => exact .inl ⟨hn, hp.symm⟩
    · next e he =>
      split at hp
      · next hk => exact .inr ⟨e, he, hk, hp.symm⟩
      · cases hp

/-- What a clean declaration of a member does: the class is changed by `fresh` or by `override`. -/
structure Adds (r : Resolutions) (b b' : ClassBody) (old : List Class) (cur : Class)
    (outer : List Scope) (id : NodeId) (name : String) (kind : EntryKind) (ty : Ty) (free : Int)
    (fresh : ClassLayout → ClassLayout) (override : Int → ClassLayout → ClassLayout) : Prop where
  unmet : name ∉ b.declared
  declared : b'.declared = name :: b.declared
  entry : ∃ offset f, r.declaration? id = some ⟨kind, outer.length, offset, ty⟩ ∧
    b'.At old ⟨f cur.layout, cur.members.insert name ⟨kind, outer.length, offset, ty⟩⟩ outer ∧
    ((cur.members[name]? = none ∧ offset = free ∧ f = fresh) ∨
      ∃ e, cur.members[name]? = some e ∧ e.kind = kind ∧ offset = e.offset ∧ f = override offset)

/-- A field that causes no error: a new one takes the next words, one that overrides takes the place of the
inherited one. -/
theorem At.declareField (h : b.At old cur outer) {p : Param} {ty : Ty}
    (hr : Recorded r (b.declareField p ty).2) :
    Adds r b (b.declareField p ty).1 old cur outer p.id p.name.text .field ty b.nextField
      (·.addField ty) (fun offset l => l.setField offset ty) ∧
    (b.declareField p ty).1.nextField =
      if cur.members[p.name.text]? = none then b.nextField - ty.words else b.nextField := by
  unfold ClassBody.declareField at hr ⊢
  obtain ⟨hm, ⟨hn, hp⟩ | ⟨e, he, hk, hp⟩⟩ := h.placement_cases hr
  · simp only [hp] at hr ⊢
    have hl : (b.modifyLayout (·.addField ty)).env.level = outer.length := h.level
    have hb : At { b with nextField := b.nextField - ty.words } old cur outer :=
      ⟨h.classes, h.cls, h.scopes⟩
    refine ⟨⟨hm, rfl, b.nextField, (·.addField ty), ?_, ?_, .inl ⟨hn, rfl, rfl⟩⟩, (if_pos hn).symm⟩
    · rw [← hl]
      exact (recorded_cons.1 hr).1
    · exact hb.addMember (·.addField ty) p.id p.name .field ty b.nextField
  · simp only [hp] at hr ⊢
    have hl : (b.modifyLayout (·.setField e.offset ty)).env.level = outer.length := h.level
    refine ⟨⟨hm, rfl, e.offset, (·.setField e.offset ty), ?_, ?_, .inr ⟨e, he, hk, rfl, rfl⟩⟩,
      (if_neg (by simp [he])).symm⟩
    · rw [← hl]
      exact (recorded_cons.1 hr).1
    · exact h.addMember (·.setField e.offset ty) p.id p.name .field ty e.offset

/-- A method that causes no error: a new one takes the next slot, one that overrides takes the slot of the
inherited one. -/
theorem At.declareMethod (h : b.At old cur outer) {m : FunDecl} {sig : Signature}
    (hr : Recorded r (b.declareMethod m sig).2) :
    Adds r b (b.declareMethod m sig).1 old cur outer m.id m.name.text .method sig.ty
      cur.layout.methods.length (·.addMethod sig) (fun slot l => l.setMethod slot sig) := by
  unfold ClassBody.declareMethod at hr ⊢
  obtain ⟨hm, ⟨hn, hp⟩ | ⟨e, he, hk, hp⟩⟩ := h.placement_cases hr
  · simp only [hp] at hr ⊢
    have hl : (b.modifyLayout (·.addMethod sig)).env.level = outer.length := h.level
    refine ⟨hm, rfl, b.nextSlot, (·.addMethod sig), ?_, ?_, .inl ⟨hn, h.nextSlot, rfl⟩⟩
    · rw [← hl]
      exact (recorded_cons.1 hr).1
    · exact h.addMember (·.addMethod sig) m.id m.name .method sig.ty b.nextSlot
  · simp only [hp] at hr ⊢
    have hl : (b.modifyLayout (·.setMethod e.offset sig)).env.level = outer.length := h.level
    refine ⟨hm, rfl, e.offset, (·.setMethod e.offset sig), ?_, ?_, .inr ⟨e, he, hk, rfl, rfl⟩⟩
    · rw [← hl]
      exact (recorded_cons.1 hr).1
    · exact h.addMember (·.setMethod e.offset sig) m.id m.name .method sig.ty e.offset

/-- The class is still being built behind its fields. -/
theorem At.declareFields (ps : List Param) :
    ∀ {b : ClassBody} {cur : Class}, b.At old cur outer → Recorded r (b.declareFields ps).2 →
      ∃ cur', (b.declareFields ps).1.At old cur' outer := by
  induction ps with
  | nil => exact fun h _ => ⟨_, h⟩
  | cons p ps ih =>
    intro b cur h hr
    simp only [ClassBody.declareFields, recorded_append] at hr ⊢
    obtain ⟨offset, f, -, h', -⟩ := (h.declareField hr.1.2).1.entry
    exact ih h' hr.2

/-- Walking the body of a method changes nothing. -/
theorem At.bindMethod (h : b.At old cur outer) {m : FunDecl} {paramTypes : List Ty}
    (hr : Recorded r (m.bindBody b.env paramTypes).2) :
    { b with env := { b.env with classes := (m.bindBody b.env paramTypes).1 } } = b := by
  have hd : b.env.scopes.depth ≠ 0 := by simp [ScopeStack.depth, h.scopes]
  rw [FunDecl.classes_bindBody hd paramTypes m hr]

/-- The class is still being built behind its methods. -/
theorem At.bindMethods (ms : List FunDecl) :
    ∀ {b : ClassBody} {cur : Class}, b.At old cur outer → Recorded r (b.bindMethods ms).2 →
      ∃ cur', (b.bindMethods ms).1.At old cur' outer := by
  induction ms with
  | nil => exact fun h _ => ⟨_, h⟩
  | cons m ms ih =>
    intro b cur h hr
    simp only [ClassBody.bindMethods, recorded_append] at hr ⊢
    obtain ⟨offset, f, -, h', -⟩ := (h.declareMethod hr.1.1.2).entry
    rw [h'.bindMethod hr.1.2] at hr ⊢
    exact ih h' hr.2

end ClassBody

/-! ## Where classes are declared -/

/-- The class that a name has just been declared for, without members of its own. -/
def Env.startClass (env : Env) (name : Name) (superclass : Option Name) : Class :=
  ClassTable.newClass env.classes.size name.text
    ((env.superclass name superclass).1.bind env.classes.class?)

/-- A class that is declared starts as the last of the table. -/
theorem Env.classes_declareClass_eq (env : Env) (id : NodeId) (name : Name)
    (superclass : Option Name) :
    (env.declareClass id name superclass).2.1.classes.classes =
      env.classes.classes ++ [env.startClass name superclass] := by
  rw [Env.classes_declareClass]
  rfl

/-- The body of a class begins where its head was declared. -/
theorem Env.enter_declareClass (env : Env) (id : NodeId) (name : Name) (superclass : Option Name) :
    (ClassBody.enter (env.declareClass id name superclass).2.1
      (env.declareClass id name superclass).1 name.text).At env.classes.classes
        (env.startClass name superclass)
        (env.declareClass id name superclass).2.1.scopes.scopes :=
  ClassBody.At.enter name.text (env.classes_declareClass_eq id name superclass)

/-- Clean declarations only add classes behind those that there are. -/
theorem Decl.classes_prefix_bind {env : Env} (hd : env.scopes.depth ≠ 0) {d : Decl}
    (h : Recorded r (d.bind env).2) : env.classes.classes <+: (d.bind env).1.classes.classes := by
  cases d with
  | var id name type init span => simp [Decl.bind]
  | func f =>
    simp only [Decl.bind, recorded_append] at h ⊢
    have hsame := FunDecl.classes_bindBody (by rwa [Env.depth_declareLocal]) _ f h.2
    rw [Env.classes_declareLocal] at hsame
    exact ⟨[], by rw [List.append_nil, hsame]⟩
  | cls c =>
    obtain ⟨id, name, superclass, fields, methods, span⟩ := c
    simp only [Decl.bind, recorded_append] at h ⊢
    obtain ⟨mid, hmid⟩ := (env.enter_declareClass id name superclass).declareFields fields h.1.2
    obtain ⟨last, hlast⟩ := hmid.bindMethods methods h.2
    exact ⟨[last], hlast.classes.symm⟩

/-- Clean declarations put classes behind those that are there. -/
theorem Decl.classes_prefix_bindAll (ds : List Decl) :
    ∀ {env : Env}, env.scopes.depth ≠ 0 → Recorded r (Decl.bindAll env ds).2 →
      env.classes.classes <+: (Decl.bindAll env ds).1.classes.classes := by
  induction ds with
  | nil => exact fun _ _ => List.prefix_rfl
  | cons d ds ih =>
    intro env hd h
    simp only [Decl.bindAll, recorded_append] at h ⊢
    have hd' : (d.bind env).1.scopes.depth ≠ 0 := by rwa [Decl.depth_bind]
    exact (Decl.classes_prefix_bind hd h.1).trans (ih hd' h.2)

end ObjLet
