import ObjLet.Binding.Finding
import ObjLet.Class.Table

/-!
# Binding environments

An `Env` is what is known at a point of the program: the scopes around it, the classes declared so
far and the offset that the next local declaration of the current frame gets. Declaring a name
always records its entry; only the first declaration of a name in a scope is visible there.

The uses of names are bound here, each to exactly one finding (`bindName`, `bindNew`,
`bindMethodCall`).
-/

namespace ObjLet

/-- What is known at a point of the program. -/
structure Env where
  scopes : ScopeStack
  classes : ClassTable
  /-- The offset of the next local declaration of the frame. -/
  nextLocal : Int

namespace Env

/-- The offset of the first local declaration of a frame. -/
def firstLocal : Int := -2

/-- The offset of the first parameter word of a frame. -/
def firstParam : Int := 1

/-- The environment of the outermost declarations. -/
def initial : Env := ⟨ScopeStack.empty.push ∅, .empty, firstLocal⟩

def level (env : Env) : Nat := env.scopes.level

/-- Enter the scope of a function, with a frame of its own. -/
def enterFrame (env : Env) : Env :=
  { env with scopes := env.scopes.push ∅, nextLocal := firstLocal }

@[simp] theorem level_enterFrame (env : Env) : env.enterFrame.level = env.scopes.depth := rfl

/-! ## Declarations -/

/-- Declare a name in the innermost scope. A duplicate is recorded but stays invisible. -/
def declare (env : Env) (id : NodeId) (name : Name) (entry : Entry) : Env × Findings :=
  match env.scopes.declare name.text entry with
  | .ok scopes => ({ env with scopes }, [.declaration id entry])
  | .error _ =>
    (env, [.declaration id entry, name.error (.alreadyDeclared (.entry entry.kind) name.text)])

/-- Declare a name at the next local offset and reserve its words, whether it is a duplicate or
not. -/
def declareLocal (env : Env) (id : NodeId) (name : Name) (kind : EntryKind) (ty : Ty) :
    Env × Findings :=
  { env with nextLocal := env.nextLocal - ty.words }.declare id name
    { kind, level := env.level, offset := env.nextLocal, ty }

/-- Declare the parameters of a function whose words start at offset `next`. A two-word parameter
is addressed by its upper word. -/
def declareParams (env : Env) (next : Int) : List (Param × Ty) → Env × Findings
  | [] => (env, [])
  | (p, ty) :: rest =>
    let (env, fs) := env.declare p.id p.name
      { kind := .param, level := env.level, offset := next + ty.words - 1, ty }
    let (env, gs) := declareParams env (next + ty.words) rest
    (env, fs ++ gs)

/-! ## Uses -/

/-- Bind an identifier or the name of a called function. -/
def bindName (env : Env) (id : NodeId) (name : Name) : Finding :=
  match env.scopes.lookup? name.text with
  | some entry => .use id ⟨entry, env.level⟩
  | none => name.error (.unknownIdentifier name.text)

/-- Bind the class name of a `new`. -/
def bindNew (env : Env) (id : NodeId) (cls : Name) : Finding :=
  match env.scopes.lookupClass? cls.text with
  | some entry => .use id ⟨entry, env.level⟩
  | none => cls.error (.unknownClass cls.text)

/-- Bind a method call through the class of its object. -/
def bindMethodCall (env : Env) (id : NodeId) (object method : Name) : Finding :=
  match env.scopes.lookup? object.text with
  | none => object.error (.unknownIdentifier object.text)
  | some entry =>
    match entry.ty.class? with
    | none => object.error (.notAnObject object.text)
    | some cls =>
      match (env.classes.member? cls method.text).filter (·.kind == .method) with
      | none => method.error (.unknownMethod (env.classes.nameOf cls) method.text)
      | some found => .methodCall id ⟨⟨entry, env.level⟩, found, cls⟩

end Env

end ObjLet
