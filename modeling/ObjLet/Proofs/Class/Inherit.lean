import ObjLet.Proofs.Class.Final

/-!
# What descendants keep

A class of a program without errors keeps the layout of its ancestors (`Class.Inherits`): every member stays
at its offset, fields and methods are only added behind the inherited ones, and types only become subtypes.
It is so for the superclass, since the members of a class start as a copy of those of its superclass and an
overriding member takes the place of the one that it overrides; for other ancestors it follows along the chain
of superclasses (`Program.descendant_inherits`).
-/

namespace ObjLet

/-- What class `b` keeps of class `a`. -/
structure Class.Inherits (t : ClassTable) (b a : Class) : Prop where
  member : ∀ {name : String} {e : Entry}, a.members[name]? = some e → ∃ e', b.members[name]? = some e' ∧
    e'.offset = e.offset ∧ e'.kind = e.kind ∧ t.isSubtype e'.ty e.ty
  fieldOffsets : a.layout.fieldOffsets <+: b.layout.fieldOffsets
  length_methods : a.layout.methods.length ≤ b.layout.methods.length
  field : ∀ {i : Nat} {ty : Ty}, a.layout.fields[i]? = some ty →
    ∃ ty', b.layout.fields[i]? = some ty' ∧ t.isSubtype ty' ty
  method : ∀ {i : Nat} {sig : Signature}, a.layout.methods[i]? = some sig →
    ∃ sig', b.layout.methods[i]? = some sig' ∧ t.isSubtype sig'.ty sig.ty

namespace Class

theorem Inherits.refl (t : ClassTable) (c : Class) : c.Inherits t c where
  member he := ⟨_, he, rfl, rfl, t.isSubtype_refl _⟩
  fieldOffsets := List.prefix_rfl
  length_methods := Nat.le_refl _
  field h := ⟨_, h, t.isSubtype_refl _⟩
  method h := ⟨_, h, t.isSubtype_refl _⟩

/-- What the superclass keeps of an ancestor, the class keeps as well. -/
theorem Inherits.trans {t : ClassTable} (ht : t.Lineal) {a b c : Class} (hcb : c.Inherits t b)
    (hba : b.Inherits t a) : c.Inherits t a where
  member he := by
    obtain ⟨e', he', ho, hk, hs⟩ := hba.member he
    obtain ⟨e'', he'', ho', hk', hs'⟩ := hcb.member he'
    exact ⟨e'', he'', ho'.trans ho, hk'.trans hk, ClassTable.isSubtype_trans ht hs' hs⟩
  fieldOffsets := hba.fieldOffsets.trans hcb.fieldOffsets
  length_methods := Nat.le_trans hba.length_methods hcb.length_methods
  field h := by
    obtain ⟨ty', h', hs⟩ := hba.field h
    obtain ⟨ty'', h'', hs'⟩ := hcb.field h'
    exact ⟨ty'', h'', ClassTable.isSubtype_trans ht hs' hs⟩
  method h := by
    obtain ⟨sig', h', hs⟩ := hba.method h
    obtain ⟨sig'', h'', hs'⟩ := hcb.method h'
    exact ⟨sig'', h'', ClassTable.isSubtype_trans ht hs' hs⟩

/-- Where members are refined and names are only added, layouts agree as members do. -/
theorem Laid.inherits {t : ClassTable} {a b : Class} {fs fs' ms ms' : List String} (ha : a.Laid fs ms)
    (hb : b.Laid (fs ++ fs') (ms ++ ms')) (hr : a.members.Refines t b.members) : b.Inherits t a := by
  -- A position of the first class is one of the second, and there the same name stands.
  have field : ∀ {i : Nat} {ty : Ty}, a.layout.fields[i]? = some ty → ∃ o ty',
      a.layout.fieldOffsets[i]? = some o ∧ b.layout.fieldOffsets[i]? = some o ∧
        b.layout.fields[i]? = some ty' ∧ t.isSubtype ty' ty := by
    intro i ty hty
    have hlt : i < fs.length := by
      rw [ha.length_fields]
      exact (List.getElem?_eq_some_iff.1 hty).1
    have hname : fs[i]? = some fs[i] := List.getElem?_eq_getElem hlt
    obtain ⟨o, ty₁, ho, hty₁, he⟩ := ha.field hname
    cases hty.symm.trans hty₁
    obtain ⟨o', ty', ho', hty', he'⟩ := hb.field ((List.getElem?_append_left hlt).trans hname)
    obtain ⟨e, hnew, -, -, hoff, hs⟩ := hr _ _ he
    cases he'.symm.trans hnew
    cases hoff
    exact ⟨o, ty', ho, ho', hty', hs⟩
  have method : ∀ {i : Nat} {sig : Signature}, a.layout.methods[i]? = some sig → ∃ sig',
      b.layout.methods[i]? = some sig' ∧ t.isSubtype sig'.ty sig.ty := by
    intro i sig hsig
    have hlt : i < ms.length := by
      rw [ha.length_methods]
      exact (List.getElem?_eq_some_iff.1 hsig).1
    have hname : ms[i]? = some ms[i] := List.getElem?_eq_getElem hlt
    obtain ⟨sig₁, hsig₁, he⟩ := ha.method hname
    cases hsig.symm.trans hsig₁
    obtain ⟨sig', hsig', he'⟩ := hb.method ((List.getElem?_append_left hlt).trans hname)
    obtain ⟨e, hnew, -, -, -, hs⟩ := hr _ _ he
    cases he'.symm.trans hnew
    exact ⟨sig', hsig', hs⟩
  refine ⟨fun he => ?_, ?_, ?_, fun h => ?_, method⟩
  · obtain ⟨e', he', hk, -, ho, hs⟩ := hr _ _ he
    exact ⟨e', he', ho, hk, hs⟩
  · rw [List.prefix_iff_getElem?]
    intro i hi
    have hlt : i < a.layout.fields.length := by rwa [a.layout.length_fieldOffsets] at hi
    obtain ⟨o, ty', ho, ho', -, -⟩ := field (List.getElem?_eq_getElem hlt)
    rw [ho', ← ho]
    exact List.getElem?_eq_getElem hi
  · rw [← ha.length_methods, ← hb.length_methods, List.length_append]
    exact Nat.le_add_right _ _
  · obtain ⟨o, ty', -, -, hty', hs⟩ := field h
    exact ⟨ty', hty', hs⟩

end Class

/-- A class keeps what its superclass has. -/
theorem ClassDecl.Checked.inherits {t : Tables} (ht : t.classes.Lineal) {c : ClassDecl} {Γ Γ' : Env}
    {s : ClassSite} {final : Class} (h : c.Checked t Γ Γ' s final) {p : ClassId}
    (hp : final.layout.superclass = some p) :
    ∃ parent, t.classes.class? p = some parent ∧ final.Inherits t.classes parent := by
  obtain ⟨parent, hparent, hlaid, -, href⟩ := ClassValue.LineageFits.parent ht h hp
  exact ⟨parent, hparent, hlaid.inherits (h.laid ht) href⟩

/-- If every class keeps what its superclass has, it keeps what any ancestor has. -/
theorem ClassTable.inherits_of_parents {t : ClassTable} (ht : t.Lineal)
    (h : ∀ {id c p}, t.class? id = some c → c.layout.superclass = some p →
      ∃ parent, t.class? p = some parent ∧ c.Inherits t parent) {ida : ClassId} {a : Class}
    (ha : t.class? ida = some a) :
    ∀ {idb : ClassId} {b : Class}, t.class? idb = some b → b.layout.isDescendantOf ida = true →
      b.Inherits t a := by
  intro idb
  induction idb using Nat.strongRecOn with
  -- By induction on the position, which the superclass is in front of: a step to the superclass, and from there
  -- to the ancestor.
  | ind idb ih =>
    intro b hb hdesc
    have hlb : t.layout? idb = some b.layout := by rw [layout?, hb]; rfl
    rw [ClassLayout.isDescendantOf_iff, ClassLayout.lineage, List.mem_cons, ht.id_eq hlb] at hdesc
    rcases hdesc with rfl | hanc
    · cases ha.symm.trans hb
      exact .refl t _
    cases hs : b.layout.superclass with
    | none => rw [ht.root hlb hs] at hanc; cases hanc
    | some p =>
      obtain ⟨hlt, lp, hlp, hline⟩ := ht.parent hlb hs
      obtain ⟨parent, hparent, hkeeps⟩ := h hb hs
      have hl : t.layout? p = some parent.layout := by rw [layout?, hparent]; rfl
      cases hlp.symm.trans hl
      refine hkeeps.trans ht (ih p hlt hparent ?_)
      rw [ClassLayout.isDescendantOf_iff, ← hline]
      exact hanc

/-- In a program without errors a class keeps the layout of all classes that it descends from. -/
theorem Program.descendant_inherits {p : Program} (hid : p.ids.Nodup) (hbind : p.bind.errors = [])
    (htype : p.typeErrors p.bind.tables = []) {ida idb : ClassId} {a b : Class}
    (ha : p.bind.tables.classes.class? ida = some a) (hb : p.bind.tables.classes.class? idb = some b)
    (hdesc : b.layout.isDescendantOf ida = true) : b.Inherits p.bind.tables.classes a := by
  have h := checked hid hbind htype
  refine ClassTable.inherits_of_parents h.lineal (fun hc hp => ?_) ha hb hdesc
  obtain ⟨c, Γ, Γ', s, hchecked, -⟩ := p.exists_classDecl h hc
  exact hchecked.inherits h.lineal hp

/-- A chain of three classes, the last of which overrides what the first one declares. -/
def Program.chain : Program := Program.built do
  let get ← Build.function "get" [] .int [] (← Build.ident "a")
  let a ← Build.cls "A" none [← Build.param "a" .int, ← Build.param "f" (.arrow [] .int)] [get]
  let b ← Build.cls "B" (some "A") [← Build.param "b" .bool]
    [← Build.function "twice" [] .int [] (← Build.binary .add (← Build.call "get" []) (← Build.call "f" []))]
  let get' ← Build.function "get" [] .bool [] (← Build.ident "b")
  let c ← Build.cls "C" (some "B") [← Build.param "f" (.arrow [] .bool), ← Build.param "c" .int] [get']
  Build.program [.cls a, .cls b, .cls c] (← Build.literal .null)

/-- In a chain of three classes the last keeps what the first declares, though it overrides it. -/
theorem Program.descendant_inherits_chain :
    ∃ a c, chain.bind.tables.classes.class? 0 = some a ∧ chain.bind.tables.classes.class? 2 = some c ∧
      c.layout.isDescendantOf 0 = true ∧ c.Inherits chain.bind.tables.classes a := by
  have hid : chain.ids.Nodup := by decide +kernel
  have hbind : chain.bind.errors = [] := List.isEmpty_iff.1 (by decide +kernel)
  have htype : chain.typeErrors chain.bind.tables = [] := List.isEmpty_iff.1 (by decide +kernel)
  have hdesc : ((chain.bind.tables.classes.class? 2).any fun c => c.layout.isDescendantOf 0) = true := by
    decide +kernel
  have hsome : (chain.bind.tables.classes.class? 0).isSome := by decide +kernel
  obtain ⟨a, ha⟩ := Option.isSome_iff_exists.1 hsome
  obtain ⟨c, hc, hca⟩ := (Option.any_eq_true _ _).1 hdesc
  exact ⟨a, c, ha, hc, hca, descendant_inherits hid hbind htype ha hc hca⟩

end ObjLet
