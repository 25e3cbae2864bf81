import ObjLet.Class.Layout
import ObjLet.Scope

/-!
# The class table

A class is known by its position in a `ClassTable`. It has a layout and a virtual table, which maps
the names of its members, inherited ones included, to their entries. A new class starts with copies
of both from its superclass, so inherited members keep their offsets.

Several classes may be declared with one name; the name then stands for the first of them.
-/

namespace ObjLet

/-- The members of a class by name. -/
abbrev VirtualTable := Scope

namespace VirtualTable

/-- The members of one kind, in the order of their names. -/
def ofKind (v : VirtualTable) (kind : EntryKind) : List (String × Entry) :=
  v.toList.filter (·.2.kind == kind)

/-- The fields from offset -1 downwards. -/
def fields (v : VirtualTable) : List (String × Entry) :=
  (v.ofKind .field).mergeSort fun a b => b.2.offset ≤ a.2.offset

/-- The methods by slot. -/
def methods (v : VirtualTable) : List (String × Entry) :=
  (v.ofKind .method).mergeSort fun a b => a.2.offset ≤ b.2.offset

end VirtualTable

/-- A class and its members. -/
structure Class where
  layout : ClassLayout
  members : VirtualTable

/-- The classes of a program by position. -/
structure ClassTable where
  classes : List Class

namespace ClassTable

def empty : ClassTable := ⟨[]⟩

def size (t : ClassTable) : Nat := t.classes.length

def isEmpty (t : ClassTable) : Bool := t.classes.isEmpty

def class? (t : ClassTable) (id : ClassId) : Option Class := t.classes[id]?

def layout? (t : ClassTable) (id : ClassId) : Option ClassLayout := (t.class? id).map (·.layout)

def members? (t : ClassTable) (id : ClassId) : Option VirtualTable := (t.class? id).map (·.members)

def member? (t : ClassTable) (id : ClassId) (name : String) : Option Entry :=
  (t.members? id).bind (·[name]?)

/-- The class that a name stands for: the first one declared with it. -/
def lookup? (t : ClassTable) (name : String) : Option ClassId :=
  t.classes.findIdx? (·.layout.name == name)

/-- A class without members of its own, which starts from those of its superclass. -/
def newClass (id : ClassId) (name : String) : Option Class → Class
  | none => ⟨⟨id, name, none, [], [], []⟩, ∅⟩
  | some parent =>
    { layout :=
        { parent.layout with
          id, name
          superclass := some parent.layout.id
          ancestors := parent.layout.lineage }
      members := parent.members }

/-- Add a class. A superclass that the table does not have counts as none. -/
def declare (t : ClassTable) (name : String) (superclass : Option ClassId) :
    ClassId × ClassTable :=
  (t.size, ⟨t.classes ++ [newClass t.size name (superclass.bind t.class?)]⟩)

def modify (t : ClassTable) (id : ClassId) (f : Class → Class) : ClassTable :=
  ⟨t.classes.modify id f⟩

def modifyLayout (t : ClassTable) (id : ClassId) (f : ClassLayout → ClassLayout) : ClassTable :=
  t.modify id fun c => { c with layout := f c.layout }

/-- Add or override a member in the virtual table of a class. -/
def insertMember (t : ClassTable) (id : ClassId) (name : String) (entry : Entry) : ClassTable :=
  t.modify id fun c => { c with members := c.members.insert name entry }

/-- The name of a class, or `<unknown>` for a class that the table does not have. -/
def nameOf (t : ClassTable) (id : ClassId) : String :=
  ((t.layout? id).map (·.name)).getD "<unknown>"

/-- A type with class names in place of positions. -/
def typeName (t : ClassTable) (ty : Ty) : TypeName := ty.map t.nameOf

@[simp] theorem size_declare (t : ClassTable) (name : String) (sup : Option ClassId) :
    (t.declare name sup).2.size = t.size + 1 := by
  simp [declare, size]

@[simp] theorem size_modify (t : ClassTable) (id : ClassId) (f : Class → Class) :
    (t.modify id f).size = t.size := by
  simp [modify, size]

theorem class?_modify (t : ClassTable) (id c : ClassId) (f : Class → Class) :
    (t.modify id f).class? c = if id = c then (t.class? c).map f else t.class? c := by
  simp only [modify, class?, List.getElem?_modify]
  split <;> simp

theorem class?_declare (t : ClassTable) (name : String) (sup : Option ClassId) (c : ClassId) :
    (t.declare name sup).2.class? c =
      if c = t.size then some (newClass t.size name (sup.bind t.class?)) else t.class? c := by
  change (t.classes ++ [_])[c]? = if c = t.size then _ else t.classes[c]?
  rcases Nat.lt_trichotomy c t.size with h | rfl | h
  · rw [if_neg (Nat.ne_of_lt h), List.getElem?_append_left h]
  · rw [if_pos rfl, size, List.getElem?_concat_length]
  · rw [if_neg (Nat.ne_of_gt h), List.getElem?_eq_none, List.getElem?_eq_none (Nat.le_of_lt h)]
    rw [List.length_append, List.length_singleton]
    exact h

theorem lookup?_declare (t : ClassTable) (name : String) (sup : Option ClassId) (n : String) :
    (t.declare name sup).2.lookup? n =
      (t.lookup? n).or (if name = n then some t.size else none) := by
  have h : (newClass t.size name (sup.bind t.class?)).layout.name = name := by
    cases sup.bind t.class? <;> rfl
  simp only [declare, lookup?, List.findIdx?_append, List.findIdx?_cons, h, beq_iff_eq]
  split <;> simp [size]

end ClassTable

end ObjLet
