import ObjLet.Entry

/-!
# Class layouts

A `ClassLayout` lists the types of the fields of a class in the order in which `new` takes them and
the signatures of its methods by slot. Fields are packed from offset -1 downwards, each as wide as
its type; `fieldOffsets` gives the offset of each field and `fieldIndex?` leads back from it.
-/

namespace ObjLet

/-- What an object and the dispatch table of a class hold. -/
structure ClassLayout where
  id : ClassId
  name : String
  superclass : Option ClassId
  fields : List Ty
  methods : List Signature
  /-- Proper ancestors, nearest first. -/
  ancestors : List ClassId

/-- Offsets of consecutive slots of the given types, the first at `next` and the others below. -/
def offsetsBelow (next : Int) : List Ty → List Int
  | [] => []
  | t :: ts => next :: offsetsBelow (next - t.words) ts

theorem length_offsetsBelow (next : Int) (tys : List Ty) :
    (offsetsBelow next tys).length = tys.length := by
  induction tys generalizing next with
  | nil => rfl
  | cons t ts ih => simp [offsetsBelow, ih]

theorem offsetsBelow_append (next : Int) (ts us : List Ty) :
    offsetsBelow next (ts ++ us) =
      offsetsBelow next ts ++ offsetsBelow (next - TyOf.totalWords ts) us := by
  induction ts generalizing next with
  | nil => simp [offsetsBelow, TyOf.totalWords]
  | cons t ts ih =>
    simp only [List.cons_append, offsetsBelow, ih]
    simp [TyOf.totalWords, Int.sub_sub]

namespace ClassLayout

def fieldOffsets (l : ClassLayout) : List Int := offsetsBelow (-1) l.fields

/-- The position of the field at an offset. -/
def fieldIndex? (l : ClassLayout) (offset : Int) : Option Nat :=
  l.fieldOffsets.idxOf? offset

def fieldType? (l : ClassLayout) (offset : Int) : Option Ty :=
  (l.fieldIndex? offset).bind (l.fields[·]?)

/-- Words that the fields of an object take. -/
def fieldWords (l : ClassLayout) : Nat := TyOf.totalWords l.fields

/-- The offset of the next field to be added. -/
def nextFieldOffset (l : ClassLayout) : Int := -(l.fieldWords : Int) - 1

/-- The signature in a slot. -/
def methodType? (l : ClassLayout) (slot : Int) : Option Signature :=
  if slot < 0 then none else l.methods[slot.toNat]?

/-- The class and its ancestors, nearest first. -/
def lineage (l : ClassLayout) : List ClassId := l.id :: l.ancestors

/-- Whether `other` is the class itself or one of its ancestors. -/
def isDescendantOf (l : ClassLayout) (other : ClassId) : Bool := l.lineage.contains other

def addField (l : ClassLayout) (ty : Ty) : ClassLayout := { l with fields := l.fields ++ [ty] }

/-- Give the field at `offset` another type. -/
def setField (l : ClassLayout) (offset : Int) (ty : Ty) : ClassLayout :=
  match l.fieldIndex? offset with
  | some i => { l with fields := l.fields.set i ty }
  | none => l

def addMethod (l : ClassLayout) (sig : Signature) : ClassLayout :=
  { l with methods := l.methods ++ [sig] }

/-- Give a slot another signature. -/
def setMethod (l : ClassLayout) (slot : Int) (sig : Signature) : ClassLayout :=
  if slot < 0 then l else { l with methods := l.methods.set slot.toNat sig }

theorem isDescendantOf_iff {l : ClassLayout} {other : ClassId} :
    l.isDescendantOf other = true ↔ other ∈ l.lineage := by
  simp [isDescendantOf]

theorem length_fieldOffsets (l : ClassLayout) : l.fieldOffsets.length = l.fields.length :=
  length_offsetsBelow _ _

theorem fieldOffsets_addField (l : ClassLayout) (ty : Ty) :
    (l.addField ty).fieldOffsets = l.fieldOffsets ++ [l.nextFieldOffset] := by
  simp only [fieldOffsets, addField, offsetsBelow_append, offsetsBelow, nextFieldOffset, fieldWords]
  rw [show -1 - (TyOf.totalWords l.fields : Int) = -(TyOf.totalWords l.fields : Int) - 1 by omega]

end ClassLayout

end ObjLet
