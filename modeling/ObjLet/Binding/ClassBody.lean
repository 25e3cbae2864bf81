import ObjLet.Binding.Env
import ObjLet.Binding.Type

/-!
# Class bodies

The scope of a class body starts with the inherited members. A member with a new name gets the next
free offset or slot; one with the name of an inherited member of its kind overrides it at the same
offset; one with the name of an inherited member of the other kind is rejected, and so is a second
member of one name. A rejected member still reserves its name.
-/

namespace ObjLet

/-- A class while its members are declared. -/
structure ClassBody where
  cls : ClassId
  name : String
  /-- The environment inside the body; its innermost scope holds the members. -/
  env : Env
  /-- The names of the members met so far. -/
  declared : List String
  /-- The offset of the next new field. -/
  nextField : Int

/-- Where a member goes. -/
inductive Placement where
  | duplicate
  | collision (inherited : EntryKind)
  | override (offset : Int)
  | fresh
deriving DecidableEq

namespace ClassBody

/-- The body of a class that the environment has just declared. -/
def enter (env : Env) (cls : ClassId) (name : String) : ClassBody where
  cls
  name
  env := { env with scopes := env.scopes.push ((env.classes.members? cls).getD ∅) }
  declared := []
  nextField := ((env.classes.layout? cls).map (·.nextFieldOffset)).getD (-1)

/-- The slot of the next new method. -/
def nextSlot (b : ClassBody) : Int :=
  ((b.env.classes.layout? b.cls).map (·.methods.length)).getD 0

/-- Where a member goes, by its name and its kind. -/
def placement (b : ClassBody) (kind : EntryKind) (name : String) : Placement :=
  if name ∈ b.declared then .duplicate
  else match b.env.scopes.lookupLocal? name with
    | none => .fresh
    | some inherited =>
      if inherited.kind = kind then .override inherited.offset else .collision inherited.kind

def modifyLayout (b : ClassBody) (f : ClassLayout → ClassLayout) : ClassBody :=
  { b with env := { b.env with classes := b.env.classes.modifyLayout b.cls f } }

/-- Reserve the name of a member. -/
def reserve (b : ClassBody) (name : String) : ClassBody :=
  { b with declared := name :: b.declared }

/-- Put a member into the scope of the body and into the virtual table. -/
def addMember (b : ClassBody) (id : NodeId) (name : Name) (kind : EntryKind) (ty : Ty)
    (offset : Int) : ClassBody × Findings :=
  let entry : Entry := { kind, level := b.env.level, offset, ty }
  ({ b.reserve name.text with
      env :=
        { b.env with
          classes := b.env.classes.insertMember b.cls name.text entry
          scopes := b.env.scopes.overwrite name.text entry } },
    [.declaration id entry])

def rejectDuplicate (b : ClassBody) (name : Name) (kind : EntryKind) : ClassBody × Findings :=
  (b, [name.error (.alreadyDeclared (.entry kind) name.text)])

def rejectCollision (b : ClassBody) (name : Name) (kind inherited : EntryKind) :
    ClassBody × Findings :=
  (b.reserve name.text,
    [name.error (.memberCollision (.entry kind) (.entry inherited) b.name name.text)])

/-- An overriding field keeps the offset of the inherited one but not its type. -/
def declareField (b : ClassBody) (f : Param) (ty : Ty) : ClassBody × Findings :=
  match b.placement .field f.name.text with
  | .duplicate => b.rejectDuplicate f.name .field
  | .collision inherited => b.rejectCollision f.name .field inherited
  | .override offset =>
    (b.modifyLayout (·.setField offset ty)).addMember f.id f.name .field ty offset
  | .fresh =>
    { b.modifyLayout (·.addField ty) with nextField := b.nextField - ty.words }.addMember
      f.id f.name .field ty b.nextField

/-- An overriding method keeps the slot of the inherited one but not its signature. -/
def declareMethod (b : ClassBody) (m : FunDecl) (sig : Signature) : ClassBody × Findings :=
  match b.placement .method m.name.text with
  | .duplicate => b.rejectDuplicate m.name .method
  | .collision inherited => b.rejectCollision m.name .method inherited
  | .override slot =>
    (b.modifyLayout (·.setMethod slot sig)).addMember m.id m.name .method sig.ty slot
  | .fresh =>
    (b.modifyLayout (·.addMethod sig)).addMember m.id m.name .method sig.ty b.nextSlot

/-- Declare fields one after the other; what is wrong with the type of a field comes first. -/
def declareFields (b : ClassBody) : List Param → ClassBody × Findings
  | [] => (b, [])
  | f :: fs =>
    let (b', found) := b.declareField f (f.type.resolve b.env.classes)
    let (b'', rest) := declareFields b' fs
    (b'', f.type.findings b.env.classes ++ found ++ rest)

end ClassBody

end ObjLet
