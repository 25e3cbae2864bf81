import ObjLet.Ty

/-!
# Entries

An `Entry` says what a declared name stands for: its kind, the nesting level of the scope that holds
it, its type and its offset. Offsets count words, except for methods, where they count slots of the
dispatch table:

* parameters lie at 1, 2, … above the base of a frame;
* locals (variables, functions and classes) lie at -2, -3, … below it;
* fields lie at -1, -2, … below the address of an object;
* methods have slots 0, 1, ….
-/

namespace ObjLet

inductive EntryKind where
  | var
  | func
  | param
  | field
  | method
  | cls
deriving DecidableEq

namespace EntryKind

def text : EntryKind → String
  | var => "var"
  | func => "fun"
  | param => "par"
  | field => "field"
  | method => "method"
  | cls => "class"

/-- Whether an entry of this kind may be read as a value. -/
def isValue : EntryKind → Bool
  | method | cls => false
  | _ => true

end EntryKind

/-- What a declared name stands for. -/
structure Entry where
  kind : EntryKind
  /-- Level of the scope that holds the entry. -/
  level : Nat
  /-- Offset in words or, for a method, slot. -/
  offset : Int
  ty : Ty
deriving DecidableEq

/-- The class that an entry declares. -/
def Entry.declaredClass? (e : Entry) : Option ClassId :=
  match e.kind, e.ty with
  | .cls, .cls c => some c
  | _, _ => none

end ObjLet
