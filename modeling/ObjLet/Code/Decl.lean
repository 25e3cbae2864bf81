import ObjLet.Code.Expr

/-!
# Code of declarations

The code of a declaration leaves the word or words of its slot on the stack: the value of a
variable, the two words of a function, or the address of the dispatch table of a class. Functions
and methods themselves are added to the unit, inner ones before those around them.
-/

namespace ObjLet

/-- A dispatch table with an entry put into a slot of it or just behind it. -/
def placeMethod? (table : List Label) (slot : Int) (entry : Label) : Option (List Label) :=
  if slot < 0 then none
  else if slot.toNat < table.length then some (table.set slot.toNat entry)
  else if slot.toNat = table.length then some (table ++ [entry])
  else none

namespace Tables

/-- The signature of the function that a node declares. -/
def functionSignature (t : Tables) (id : NodeId) (name : Name) (span : Span) : Gen Signature := do
  let entry ← t.declaration id span
  Gen.orFail (Ty.signature? entry.ty) (.noFunctionType name.text) span

/-- The words that declarations take in a frame. -/
def localWords (t : Tables) : List Decl → Gen Nat
  | [] => return 0
  | d :: ds => do
    let entry ← t.declaration d.id d.span
    return entry.ty.words + (← localWords t ds)

/-- The dispatch table that a class starts with: that of its superclass, if it has one. -/
def inheritedDispatch (t : Tables) (cls : ClassId) (name : Name) (span : Span) :
    Gen (List Label) := do
  match (t.classes.layout? cls).bind (·.superclass) with
  | none => return []
  | some parent => Gen.orFail (← Gen.dispatch? parent) (.noSuperclassTable name.text) span

end Tables

open Gen

mutual

/-- The code that a declaration runs where it stands. -/
def Decl.gen (t : Tables) (mem : Int) : Decl → Gen Code
  | .var _ _ _ init _ => init.gen t mem
  | .func f => do
    let entry ← freshFunction
    f.gen t mem entry
    return [.load .fp, .pushLabel entry]
  | .cls ⟨id, name, _, _, methods, span⟩ => do
    let declared ← t.declaration id span
    let cls ← orFail declared.declaredClass? (.noClassEntry name.text) span
    let table ← FunDecl.genAll t mem (← t.inheritedDispatch cls name span) methods
    setDispatch cls table
    return Code.dispatchTable table

/-- Add a function to the unit, under the label `entry`. -/
def FunDecl.gen (t : Tables) (mem : Int) (entry : Label) : FunDecl → Gen Unit
  | ⟨id, name, _, _, decls, body, span⟩ => do
    let sig ← t.functionSignature id name span
    let localWords ← t.localWords decls
    let decls ← Decl.genAll t mem decls
    let body ← body.gen t mem
    addFunction entry
      (Code.prologue ++ decls ++ body ++
        Code.epilogue sig.paramWords localWords sig.returnsFunction)

/-- Add methods to the unit and their entries to a dispatch table. -/
def FunDecl.genAll (t : Tables) (mem : Int) (table : List Label) : List FunDecl → Gen (List Label)
  | [] => return table
  | m :: ms => do
    let slot := (← t.declaration m.id m.span).offset
    let entry ← freshFunction
    m.gen t mem entry
    let table ← orFail (placeMethod? table slot entry) (.slotOutOfRange m.name.text slot) m.span
    FunDecl.genAll t mem table ms

def Decl.genAll (t : Tables) (mem : Int) : List Decl → Gen Code
  | [] => return []
  | d :: ds => do
    let first ← d.gen t mem
    return first ++ (← Decl.genAll t mem ds)

end

end ObjLet
