import ObjLet.Binding.Program
import ObjLet.Proofs.Class.Lineage

/-!
# How class tables come about

Binding a program only ever declares classes and changes the members of classes that exist
(`ClassTable.Evolves`). Neither touches the name, the superclass or the ancestors of an existing class,
so every table that binding yields is lineal (`Program.lineal`).
-/

namespace ObjLet

namespace ClassLayout

/-- The part of a layout that is fixed when the class is declared. -/
def head (l : ClassLayout) : ClassId × String × Option ClassId × List ClassId :=
  (l.id, l.name, l.superclass, l.ancestors)

@[simp] theorem head_addField (l : ClassLayout) (ty : Ty) : (l.addField ty).head = l.head := rfl

@[simp] theorem head_setField (l : ClassLayout) (offset : Int) (ty : Ty) :
    (l.setField offset ty).head = l.head := by
  unfold setField
  split <;> rfl

@[simp] theorem head_addMethod (l : ClassLayout) (sig : Signature) :
    (l.addMethod sig).head = l.head := rfl

@[simp] theorem head_setMethod (l : ClassLayout) (slot : Int) (sig : Signature) :
    (l.setMethod slot sig).head = l.head := by
  unfold setMethod
  split <;> rfl

/-- Two layouts have the same head where they have the same id, name, superclass and ancestors. -/
theorem head_eq_iff {l l' : ClassLayout} :
    l.head = l'.head ↔
      l.id = l'.id ∧ l.name = l'.name ∧ l.superclass = l'.superclass ∧
        l.ancestors = l'.ancestors := by
  simp [head]

end ClassLayout

namespace ClassTable

/-- The second table comes from the first by declaring classes and changing members of classes. -/
inductive Evolves (t : ClassTable) : ClassTable → Prop where
  | refl : Evolves t t
  | declare {u : ClassTable} (name : String) (sup : Option ClassId) (h : Evolves t u) :
    Evolves t (u.declare name sup).2
  | modify {u : ClassTable} (id : ClassId) {f : Class → Class}
    (hf : ∀ c, (f c).layout.head = c.layout.head) (h : Evolves t u) : Evolves t (u.modify id f)

theorem Evolves.trans {t u v : ClassTable} (htu : Evolves t u) (huv : Evolves u v) :
    Evolves t v := by
  induction huv with
  | refl => exact htu
  | declare name sup _ ih => exact .declare name sup ih
  | modify id hf _ ih => exact .modify id hf ih

/-- A change of the layout of a class that keeps its head. -/
theorem Evolves.modifyLayout {t u : ClassTable} (h : Evolves t u) (id : ClassId)
    {f : ClassLayout → ClassLayout} (hf : ∀ l, (f l).head = l.head) :
    Evolves t (u.modifyLayout id f) :=
  .modify id (fun c => hf c.layout) h

theorem Evolves.insertMember {t u : ClassTable} (h : Evolves t u) (id : ClassId) (name : String)
    (entry : Entry) : Evolves t (u.insertMember id name entry) :=
  .modify id (fun _ => rfl) h

/-- A new class leaves the others as they are. -/
theorem layout?_declare_of_some {t : ClassTable} {c : ClassId} {l : ClassLayout} (name : String)
    (sup : Option ClassId) (h : t.layout? c = some l) :
    (t.declare name sup).2.layout? c = some l := by
  have hc : c ≠ t.size := by
    rintro rfl
    simp [layout?, class?, size] at h
  simpa [layout?, class?_declare, hc] using h

/-- The head of a class is not changed. -/
theorem Evolves.layout? {t u : ClassTable} (h : Evolves t u) {c : ClassId} {l : ClassLayout}
    (hl : t.layout? c = some l) : ∃ l', u.layout? c = some l' ∧ l'.head = l.head := by
  induction h with
  | refl => exact ⟨l, hl, rfl⟩
  | declare name sup _ ih =>
    obtain ⟨l', hl', hh⟩ := ih
    exact ⟨l', layout?_declare_of_some name sup hl', hh⟩
  | @modify u id f hf _ ih =>
    obtain ⟨l', hl', hh⟩ := ih
    obtain ⟨cls, hcls, rfl⟩ := Option.map_eq_some_iff.1 hl'
    simp only [ClassTable.layout?, class?_modify]
    split
    · exact ⟨(f cls).layout, by simp [hcls], (hf cls).trans hh⟩
    · exact ⟨cls.layout, by simp [hcls], hh⟩

/-- A table without classes is lineal. -/
theorem lineal_empty : empty.Lineal where
  id_eq h := by simp [layout?, class?, empty] at h
  root h := by simp [layout?, class?, empty] at h
  parent h := by simp [layout?, class?, empty] at h

/-- Lineality is a matter of the heads. -/
theorem Lineal.of_heads {t u : ClassTable} (ht : t.Lineal)
    (h : ∀ c l, u.layout? c = some l → ∃ l', t.layout? c = some l' ∧ l'.head = l.head)
    (h' : ∀ c l, t.layout? c = some l → ∃ l', u.layout? c = some l' ∧ l'.head = l.head) :
    u.Lineal where
  id_eq hl := by
    obtain ⟨l', hl', hh⟩ := h _ _ hl
    rw [← (ClassLayout.head_eq_iff.1 hh).1]
    exact ht.id_eq hl'
  root hl hs := by
    obtain ⟨l', hl', hh⟩ := h _ _ hl
    obtain ⟨-, -, hsup, hanc⟩ := ClassLayout.head_eq_iff.1 hh
    rw [← hanc]
    exact ht.root hl' (hsup.trans hs)
  parent hl hs := by
    obtain ⟨l', hl', hh⟩ := h _ _ hl
    obtain ⟨-, -, hsup, hanc⟩ := ClassLayout.head_eq_iff.1 hh
    obtain ⟨hlt, lp, hlp, hline⟩ := ht.parent hl' (hsup.trans hs)
    obtain ⟨lp', hlp', hh'⟩ := h' _ _ hlp
    obtain ⟨hid, -, -, hanc'⟩ := ClassLayout.head_eq_iff.1 hh'
    refine ⟨hlt, lp', hlp', ?_⟩
    rw [← hanc, hline, ClassLayout.lineage, ClassLayout.lineage, hid, hanc']

/-- A new class takes over the lineage of its superclass, which lies in front of it. -/
theorem lineal_declare {t : ClassTable} (ht : t.Lineal) (name : String) (sup : Option ClassId) :
    (t.declare name sup).2.Lineal := by
  -- The classes are the old ones and the new one, which is last.
  have old : ∀ {c l}, (t.declare name sup).2.layout? c = some l → c ≠ t.size →
      t.layout? c = some l := by
    intro c l h hc
    simpa [layout?, class?_declare, hc] using h
  have new : ∀ {l}, (t.declare name sup).2.layout? t.size = some l →
      l = (newClass t.size name (sup.bind t.class?)).layout := by
    intro l h
    simpa [layout?, class?_declare, eq_comm] using h
  constructor
  · intro c l h
    by_cases hc : c = t.size
    · subst hc
      rw [new h]
      cases sup.bind t.class? <;> rfl
    · exact ht.id_eq (old h hc)
  · intro c l h hs
    by_cases hc : c = t.size
    · subst hc
      rw [new h] at hs ⊢
      cases hp : sup.bind t.class? with
      | none => rfl
      | some parent => rw [hp] at hs; cases hs
    · exact ht.root (old h hc) hs
  · intro c l p h hs
    by_cases hc : c = t.size
    · subst hc
      rw [new h] at hs ⊢
      cases hp : sup.bind t.class? with
      | none => rw [hp] at hs; cases hs
      | some parent =>
        rw [hp] at hs
        cases hs
        obtain ⟨q, rfl, hq⟩ := Option.bind_eq_some_iff.1 hp
        have hl : t.layout? q = some parent.layout := by simp [layout?, hq]
        rw [ht.id_eq hl]
        -- A superclass that is found in the table comes before the new class.
        have hlt : q < t.size := by
          have := List.getElem?_eq_some_iff.1 hq
          exact this.1
        exact ⟨hlt, parent.layout, layout?_declare_of_some name _ hl, rfl⟩
    · obtain ⟨hlt, lp, hlp, hanc⟩ := ht.parent (old h hc) hs
      exact ⟨hlt, lp, layout?_declare_of_some name sup hlp, hanc⟩

/-- A change that keeps the head of a class keeps the table lineal. -/
theorem lineal_modify {t : ClassTable} (ht : t.Lineal) (id : ClassId) {f : Class → Class}
    (hf : ∀ c, (f c).layout.head = c.layout.head) : (t.modify id f).Lineal := by
  refine ht.of_heads (fun c l h => ?_) fun c l h => ?_
  · simp only [layout?, class?_modify] at h ⊢
    split at h
    · cases hc : t.class? c with
      | none => simp [hc] at h
      | some cls =>
        rw [hc] at h
        cases h
        exact ⟨cls.layout, by simp, (hf cls).symm⟩
    · exact ⟨l, h, rfl⟩
  · exact (Evolves.refl.modify id hf).layout? h

/-- What comes from a lineal table is lineal. -/
theorem Evolves.lineal {t u : ClassTable} (h : Evolves t u) (ht : t.Lineal) : u.Lineal := by
  induction h with
  | refl => exact ht
  | declare name sup _ ih => exact lineal_declare ih name sup
  | modify id hf _ ih => exact lineal_modify ih id hf

end ClassTable

/-! ## Binding evolves the class table -/

open ClassTable (Evolves)

/-- A declaration in a scope declares no class. -/
@[simp] theorem Env.classes_declare (env : Env) (id : NodeId) (name : Name) (entry : Entry) :
    (env.declare id name entry).1.classes = env.classes := by
  unfold Env.declare
  split <;> rfl

/-- A property of the entries in scope that a declared entry has. -/
theorem Env.all_declare {P : String → Entry → Prop} {env : Env} (h : env.scopes.All P) (id : NodeId) (name : Name)
    {entry : Entry} (he : P name.text entry) : (env.declare id name entry).1.scopes.All P := by
  unfold Env.declare
  split
  · next scopes hd => exact h.declare he hd
  · exact h

@[simp] theorem Env.classes_declareLocal (env : Env) (id : NodeId) (name : Name) (kind : EntryKind)
    (ty : Ty) : (env.declareLocal id name kind ty).1.classes = env.classes :=
  Env.classes_declare _ _ _ _

@[simp] theorem Env.classes_declareParams (ps : List (Param × Ty)) :
    ∀ (env : Env) (next : Int), (env.declareParams next ps).1.classes = env.classes := by
  induction ps with
  | nil => exact fun _ _ => rfl
  | cons p ps ih =>
    intro env next
    simp only [Env.declareParams, ih, Env.classes_declare]

@[simp] theorem Env.classes_declareClass (env : Env) (id : NodeId) (name : Name)
    (superclass : Option Name) :
    (env.declareClass id name superclass).2.1.classes =
      (env.classes.declare name.text (env.superclass name superclass).1).2 := by
  simp [Env.declareClass]

namespace ClassBody

/-- A field changes the layout and the members of its class. -/
theorem evolves_declareField (b : ClassBody) (f : Param) (ty : Ty) :
    Evolves b.env.classes (b.declareField f ty).1.env.classes := by
  unfold declareField
  split
  · exact .refl
  · exact .refl
  · exact (Evolves.refl.modifyLayout _ fun l => by simp).insertMember _ _ _
  · exact (Evolves.refl.modifyLayout _ fun l => by simp).insertMember _ _ _

/-- A method changes the layout and the members of its class. -/
theorem evolves_declareMethod (b : ClassBody) (m : FunDecl) (sig : Signature) :
    Evolves b.env.classes (b.declareMethod m sig).1.env.classes := by
  unfold declareMethod
  split
  · exact .refl
  · exact .refl
  · exact (Evolves.refl.modifyLayout _ fun l => by simp).insertMember _ _ _
  · exact (Evolves.refl.modifyLayout _ fun l => by simp).insertMember _ _ _

theorem evolves_declareFields (fs : List Param) :
    ∀ b : ClassBody, Evolves b.env.classes (b.declareFields fs).1.env.classes := by
  induction fs with
  | nil => exact fun _ => .refl
  | cons f fs ih => exact fun b => (b.evolves_declareField f _).trans (ih _)

end ClassBody

mutual

/-- A declaration, with the classes in it and inside of its functions. -/
theorem Decl.evolves_bind (env : Env) : (d : Decl) → Evolves env.classes (d.bind env).1.classes
  | .var _ _ _ _ _ => by
    simp only [Decl.bind, Env.classes_declareLocal]
    exact .refl
  | .func f => by
    simp only [Decl.bind]
    have h := FunDecl.evolves_bindBody
      (env.declareLocal f.id f.name .func (f.signature env.classes).ty).1
      (f.signature env.classes).params f
    simpa using h
  | .cls ⟨id, name, superclass, fields, methods, _⟩ => by
    simp only [Decl.bind]
    have h : Evolves env.classes (env.declareClass id name superclass).2.1.classes := by
      rw [Env.classes_declareClass]
      exact Evolves.refl.declare _ _
    exact (h.trans (ClassBody.evolves_declareFields fields (ClassBody.enter _ _ _))).trans
      (ClassBody.evolves_bindMethods _ methods)

/-- A function body, with the classes in it. -/
theorem FunDecl.evolves_bindBody (env : Env) (paramTypes : List Ty) :
    (f : FunDecl) → Evolves env.classes (f.bindBody env paramTypes).1
  | ⟨_, _, params, _, decls, _, _⟩ => by
    simp only [FunDecl.bindBody]
    have h := Decl.evolves_bindAll
      (env.enterFrame.declareParams Env.firstParam (params.zip paramTypes)).1 decls
    rwa [Env.classes_declareParams] at h

/-- The methods of a class, with the classes in their bodies. -/
theorem ClassBody.evolves_bindMethods (b : ClassBody) :
    (ms : List FunDecl) → Evolves b.env.classes (b.bindMethods ms).1.env.classes
  | [] => .refl
  | m :: ms => by
    simp only [ClassBody.bindMethods]
    refine Evolves.trans ?_ (ClassBody.evolves_bindMethods _ ms)
    exact (b.evolves_declareMethod m _).trans (FunDecl.evolves_bindBody _ _ m)

theorem Decl.evolves_bindAll (env : Env) :
    (ds : List Decl) → Evolves env.classes (Decl.bindAll env ds).1.classes
  | [] => .refl
  | d :: ds => by
    simp only [Decl.bindAll]
    exact (Decl.evolves_bind env d).trans (Decl.evolves_bindAll _ ds)

end

/-- In the class table of a program the ancestors of a class are its superclass and that one's. -/
theorem Program.lineal (p : Program) : p.bind.tables.classes.Lineal :=
  (Decl.evolves_bindAll .initial p.decls).lineal ClassTable.lineal_empty

end ObjLet
