import Mathlib.Data.List.Induction
import Mathlib.Data.Set.Operations
import Mathlib.Logic.Relation
import Mathlib.Order.Bounds.Defs
import ObjLet.Proofs.Class.Order

/-!
# Ancestors

The ancestors of a class are copied from its superclass when the class is declared, and are never looked at
again. Still they are at all times what following the superclasses from class to class gives, whatever is done
to the table: `ClassTable.Ancestry` is what holds of a table that some operations made of the empty one
(`ClassTable.ancestry_build`), also when names are declared twice and superclasses are not in the table.
-/

namespace ObjLet

namespace ClassTable

/-! ## Operations -/

inductive Operation where
  | declare (name : String) (superclass : Option ClassId)
  | addField (id : ClassId) (ty : Ty)
  | setField (id : ClassId) (offset : Int) (ty : Ty)
  | addMethod (id : ClassId) (sig : Signature)
  | setMethod (id : ClassId) (slot : Int) (sig : Signature)
  | insertMember (id : ClassId) (name : String) (entry : Entry)

def apply (t : ClassTable) : Operation → ClassTable
  | .declare name superclass => (t.declare name superclass).2
  | .addField id ty => t.modifyLayout id (·.addField ty)
  | .setField id offset ty => t.modifyLayout id (·.setField offset ty)
  | .addMethod id sig => t.modifyLayout id (·.addMethod sig)
  | .setMethod id slot sig => t.modifyLayout id (·.setMethod slot sig)
  | .insertMember id name entry => t.insertMember id name entry

/-- What a sequence of operations makes of the empty table. -/
def build (ops : List Operation) : ClassTable := ops.foldl apply empty

/-- The name and the superclass that an operation declares. -/
def Operation.declared? : Operation → Option (String × Option ClassId)
  | declare name superclass => some (name, superclass)
  | _ => none

/-- The names and superclasses that are declared, in order. -/
def declared (ops : List Operation) : List (String × Option ClassId) := ops.filterMap Operation.declared?

/-- An operation declares a class or changes the members of one. -/
theorem apply_cases (t : ClassTable) (op : Operation) :
    (∃ name superclass, op.declared? = some (name, superclass) ∧ t.apply op = (t.declare name superclass).2) ∨
    (op.declared? = none ∧ ∃ id f, (∀ c : Class, (f c).layout.head = c.layout.head) ∧
      t.apply op = t.modify id f) := by
  cases op with
  | declare name superclass => exact .inl ⟨name, superclass, rfl, rfl⟩
  | insertMember id name entry =>
    exact .inr ⟨rfl, id, fun c => { c with members := c.members.insert name entry }, fun _ => rfl, rfl⟩
  | _ => exact .inr ⟨rfl, _, _, fun c => by simp, rfl⟩

/-- What the operations do to a table is what binding does. -/
theorem evolves_apply (t : ClassTable) (op : Operation) : Evolves t (t.apply op) := by
  obtain ⟨name, superclass, -, heq⟩ | ⟨-, id, f, hf, heq⟩ := t.apply_cases op
  · exact heq ▸ Evolves.refl.declare name superclass
  · exact heq ▸ Evolves.refl.modify id hf

@[simp] theorem build_concat (ops : List Operation) (op : Operation) :
    build (ops ++ [op]) = (build ops).apply op := by
  simp [build]

/-- One more operation declares one more class, or none. -/
theorem declared_concat (ops : List Operation) (op : Operation) :
    declared (ops ++ [op]) = declared ops ++ op.declared?.toList := by
  cases h : op.declared? <;> simp [declared, h]

/-- Every table that operations make is lineal. -/
theorem lineal_build (ops : List Operation) : (build ops).Lineal := by
  induction ops using List.reverseRecOn with
  | nil => exact lineal_empty
  | append_singleton ops op ih =>
    rw [build_concat]
    exact (evolves_apply _ op).lineal ih

/-! ## Classes and their declarations -/

/-- The classes of a table are those that were declared, each with its name. A superclass that was not declared
before counts as none. -/
structure Declares (decls : List (String × Option ClassId)) (t : ClassTable) : Prop where
  size : t.size = decls.length
  layout? : ∀ c name sup, decls[c]? = some (name, sup) →
    ∃ l, t.layout? c = some l ∧ l.name = name ∧ l.superclass = sup.filter (· < c)

/-- The superclass of a new class is the one named, if that is a class already. -/
theorem superclass_newClass {t : ClassTable} (ht : t.Lineal) (name : String) (sup : Option ClassId) :
    (newClass t.size name (sup.bind t.class?)).layout.superclass = sup.filter (· < t.size) := by
  cases sup with
  | none => rfl
  | some p =>
    cases hp : t.class? p with
    | none =>
      have hge : ¬p < t.size := by
        have := List.getElem?_eq_none_iff.1 hp
        exact Nat.not_lt_of_le this
      simp [hp, newClass, Option.filter, hge]
    | some parent =>
      have hlt : p < t.size := (List.getElem?_eq_some_iff.1 hp).1
      have hid : parent.layout.id = p := ht.id_eq (by simp [ClassTable.layout?, hp])
      simp [hp, newClass, Option.filter, hlt, hid]

/-- A new class stands behind the others. -/
theorem Declares.declare {decls : List (String × Option ClassId)} {t : ClassTable} (h : Declares decls t)
    (ht : t.Lineal) (name : String) (sup : Option ClassId) :
    Declares (decls ++ [(name, sup)]) (t.declare name sup).2 := by
  constructor
  · simp [h.size]
  intro c name' sup' hc
  obtain hlt | rfl | hgt := Nat.lt_trichotomy c decls.length
  · rw [List.getElem?_append_left hlt] at hc
    obtain ⟨l, hl, hname, hsup⟩ := h.layout? c name' sup' hc
    exact ⟨l, layout?_declare_of_some name sup hl, hname, hsup⟩
  · obtain ⟨rfl, rfl⟩ : name = name' ∧ sup = sup' := by simpa using hc
    refine ⟨_, by rw [ClassTable.layout?, class?_declare, if_pos h.size.symm, Option.map_some], ?_, ?_⟩
    · cases sup.bind t.class? <;> rfl
    · rw [← h.size]
      exact superclass_newClass ht name sup
  · rw [List.getElem?_eq_none (by simp; omega)] at hc
    cases hc

/-- A change that keeps the head of a class keeps its declaration. -/
theorem Declares.modify {decls : List (String × Option ClassId)} {t : ClassTable} (h : Declares decls t)
    (id : ClassId) {f : Class → Class} (hf : ∀ c, (f c).layout.head = c.layout.head) :
    Declares decls (t.modify id f) := by
  constructor
  · rw [size_modify, h.size]
  intro c name sup hc
  obtain ⟨l, hl, hname, hsup⟩ := h.layout? c name sup hc
  obtain ⟨l', hl', hhead⟩ := (Evolves.refl.modify id hf).layout? hl
  obtain ⟨-, hname', hsup', -⟩ := ClassLayout.head_eq_iff.1 hhead
  exact ⟨l', hl', hname'.trans hname, hsup'.trans hsup⟩

/-- The classes of a table are those that its operations declared. -/
theorem declares_build (ops : List Operation) : Declares (declared ops) (build ops) := by
  induction ops using List.reverseRecOn with
  | nil => exact ⟨rfl, by simp [declared]⟩
  | append_singleton ops op ih =>
    rw [build_concat, declared_concat]
    obtain ⟨name, superclass, hop, heq⟩ | ⟨hop, id, f, hf, heq⟩ := (build ops).apply_cases op
    · rw [hop, heq]
      exact ih.declare (lineal_build ops) name superclass
    · rw [hop, heq, Option.toList_none, List.append_nil]
      exact ih.modify id hf

/-! ## Following superclasses -/

/-- The second class is the superclass of the first. -/
def Extends (t : ClassTable) (c p : ClassId) : Prop := ∃ l, t.layout? c = some l ∧ l.superclass = some p

/-- The classes that are met when superclasses are followed from a class until one has none. -/
inductive Chain (t : ClassTable) : ClassId → List ClassId → Prop where
  | root {c : ClassId} {l : ClassLayout} (hl : t.layout? c = some l) (hs : l.superclass = none) : Chain t c []
  | next {c p : ClassId} {as : List ClassId} (hp : t.Extends c p) (h : Chain t p as) : Chain t c (p :: as)

section Lineal

variable {t : ClassTable} (ht : t.Lineal)
include ht

/-- The ancestors of a class are met in this order when superclasses are followed. -/
theorem Lineal.chain_ancestors : ∀ {c l}, t.layout? c = some l → t.Chain c l.ancestors := by
  intro c
  induction c using Nat.strongRecOn with
  | ind c ih =>
    intro l hl
    cases hs : l.superclass with
    | none =>
      rw [ht.root hl hs]
      exact .root hl hs
    | some p =>
      obtain ⟨hlt, lp, hp, hanc⟩ := ht.parent hl hs
      rw [hanc, ClassLayout.lineage, ht.id_eq hp]
      exact .next ⟨l, hl, hs⟩ (ih p hlt hp)

/-- Along a lineage the positions decrease, so no class is met twice. -/
theorem Lineal.pairwise_lineage : ∀ {c l}, t.layout? c = some l → l.lineage.Pairwise (· > ·) := by
  intro c
  induction c using Nat.strongRecOn with
  | ind c ih =>
    intro l hl
    cases hs : l.superclass with
    | none => simp [ClassLayout.lineage, ht.root hl hs]
    | some p =>
      obtain ⟨hlt, lp, hp, hanc⟩ := ht.parent hl hs
      rw [ClassLayout.lineage, hanc, List.pairwise_cons]
      refine ⟨fun a ha => ?_, ih p hlt hp⟩
      rw [ht.id_eq hl]
      exact Nat.lt_of_le_of_lt (ht.le_of_mem_lineage hp ha) hlt

/-- The classes of a lineage are those that superclasses lead to. -/
theorem Lineal.mem_lineage_iff {c l other} (hl : t.layout? c = some l) :
    other ∈ l.lineage ↔ Relation.ReflTransGen t.Extends c other := by
  constructor
  · -- One way the induction is on the position of the class, which its superclass is in front of; the other way
    -- it is on the steps that lead to the ancestor.
    induction c using Nat.strongRecOn generalizing l with
    | ind c ih =>
      intro hmem
      rcases List.mem_cons.1 hmem with rfl | hanc
      · rw [ht.id_eq hl]
      cases hs : l.superclass with
      | none => simp [ht.root hl hs] at hanc
      | some p =>
        obtain ⟨hlt, lp, hp, hline⟩ := ht.parent hl hs
        exact .head ⟨l, hl, hs⟩ (ih p hlt hp (hline ▸ hanc))
  · intro h
    induction h using Relation.ReflTransGen.head_induction_on generalizing l with
    | refl =>
      rw [ClassLayout.lineage, ht.id_eq hl]
      exact List.mem_cons_self
    | head hstep _ ih =>
      obtain ⟨l', hl', hs⟩ := hstep
      cases hl.symm.trans hl'
      obtain ⟨-, lp, hp, hline⟩ := ht.parent hl hs
      exact List.mem_cons_of_mem _ (hline ▸ ih hp)

/-- From an ancestor on, the lineage of the class is the lineage of the ancestor. -/
theorem Lineal.lineage_drop {c l i a} (hl : t.layout? c = some l) (ha : l.lineage[i]? = some a) :
    ∃ la, t.layout? a = some la ∧ la.lineage = l.lineage.drop i := by
  obtain ⟨hlt, rfl⟩ := List.getElem?_eq_some_iff.1 ha
  have hdrop := List.drop_eq_getElem_cons hlt
  rw [hdrop]
  have hsplit : l.lineage = l.lineage.take i ++ l.lineage[i] :: l.lineage.drop (i + 1) := by
    rw [← hdrop, List.take_append_drop]
  exact ht.lineage_suffix hl hsplit

end Lineal

/-! ## Names -/

/-- A name stands for the first class of this name. -/
theorem lookup?_eq_some_iff {t : ClassTable} {name : String} {c : ClassId} :
    t.lookup? name = some c ↔ IsLeast {k | ∃ l, t.layout? k = some l ∧ l.name = name} c := by
  have hnamed (k : Nat) : (∃ l, t.layout? k = some l ∧ l.name = name) ↔
      ∃ h : k < t.classes.length, t.classes[k].layout.name = name := by
    simp [ClassTable.layout?, class?, List.getElem?_eq_some_iff]
  simp only [lookup?, List.findIdx?_eq_some_iff_getElem, IsLeast, lowerBounds, Set.mem_ofPred_eq, hnamed, beq_iff_eq]
  constructor
  · rintro ⟨hlt, hname, hfirst⟩
    refine ⟨⟨hlt, hname⟩, ?_⟩
    rintro k ⟨_, hk⟩
    exact Nat.le_of_not_lt fun hkc => hfirst k hkc hk
  · rintro ⟨⟨hlt, hname⟩, hleast⟩
    exact ⟨hlt, hname, fun k hk hkname => Nat.not_le_of_lt hk (hleast ⟨Nat.lt_trans hk hlt, hkname⟩)⟩

/-- The classes of a name are those that were declared with it. -/
theorem Declares.exists_name_iff {decls : List (String × Option ClassId)} {t : ClassTable}
    (h : Declares decls t) {k : ClassId} {name : String} :
    (∃ l, t.layout? k = some l ∧ l.name = name) ↔ ∃ sup, decls[k]? = some (name, sup) := by
  constructor
  · rintro ⟨l, hl, hname⟩
    have hlt : k < decls.length := by
      obtain ⟨cls, hcls, -⟩ := Option.map_eq_some_iff.1 hl
      exact h.size ▸ (List.getElem?_eq_some_iff.1 hcls).1
    obtain ⟨l', hl', hname', -⟩ := h.layout? k decls[k].1 decls[k].2 (List.getElem?_eq_getElem hlt)
    cases hl.symm.trans hl'
    exact ⟨decls[k].2, by rw [List.getElem?_eq_getElem hlt, ← hname, hname']⟩
  · rintro ⟨sup, hk⟩
    obtain ⟨l, hl, hname, -⟩ := h.layout? k name sup hk
    exact ⟨l, hl, hname⟩

/-! ## Ancestry -/

/-- A table as it comes about by declarations. -/
structure Ancestry (decls : List (String × Option ClassId)) (t : ClassTable) : Prop where
  /-- The classes are those that were declared, and a class is known by its position. A superclass that is not
  declared before counts as none, so a superclass comes before its classes. -/
  size : t.size = decls.length
  layout? : ∀ c name sup, decls[c]? = some (name, sup) →
    ∃ l, t.layout? c = some l ∧ l.id = c ∧ l.name = name ∧ l.superclass = sup.filter (· < c)
  superclass_lt : ∀ c p, t.Extends c p → p < c
  /-- The ancestors are what is met on the way along the superclasses, which never comes back. -/
  chain : ∀ c l, t.layout? c = some l → t.Chain c l.ancestors
  decreasing : ∀ c l, t.layout? c = some l → l.lineage.Pairwise (· > ·)
  isDescendantOf_iff : ∀ c l other, t.layout? c = some l →
    (l.isDescendantOf other ↔ Relation.ReflTransGen t.Extends c other)
  /-- The lineage of an ancestor is the rest of the lineage. -/
  lineage_drop : ∀ c l i a, t.layout? c = some l → l.lineage[i]? = some a →
    ∃ la, t.layout? a = some la ∧ la.lineage = l.lineage.drop i
  /-- A name stands for the first class that was declared with it. -/
  lookup?_eq_some : ∀ name c, t.lookup? name = some c ↔
    IsLeast {k | ∃ sup, decls[k]? = some (name, sup)} c

/-- Whatever is done to the empty table, the ancestors of its classes are those that superclasses lead to. -/
theorem ancestry_build (ops : List Operation) : Ancestry (declared ops) (build ops) := by
  have hlineal := lineal_build ops
  have hdeclares := declares_build ops
  constructor
  case size => exact hdeclares.size
  case layout? =>
    intro c name sup hc
    obtain ⟨l, hl, hname, hsup⟩ := hdeclares.layout? c name sup hc
    exact ⟨l, hl, hlineal.id_eq hl, hname, hsup⟩
  case superclass_lt =>
    rintro c p ⟨l, hl, hs⟩
    exact (hlineal.parent hl hs).1
  case chain => exact fun c l => hlineal.chain_ancestors
  case decreasing => exact fun c l => hlineal.pairwise_lineage
  case isDescendantOf_iff =>
    intro c l other hl
    rw [ClassLayout.isDescendantOf_iff, hlineal.mem_lineage_iff hl]
  case lineage_drop => exact fun c l i a => hlineal.lineage_drop
  case lookup?_eq_some =>
    intro name c
    simp only [lookup?_eq_some_iff, hdeclares.exists_name_iff]

/-- A name that is taken and a superclass that is not in the table. -/
example :
    ((build [.declare "A" none, .declare "B" (some 0), .declare "A" (some 7), .addField 1 .int,
      .declare "C" (some 1)]).classes.map fun c => (c.layout.name, c.layout.lineage)) =
      [("A", [0]), ("B", [1, 0]), ("A", [2]), ("C", [3, 1, 0])] :=
  rfl

end ClassTable

end ObjLet
