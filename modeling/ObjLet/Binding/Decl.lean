import ObjLet.Binding.ClassBody
import ObjLet.Binding.Expr

/-!
# Binding in declarations

A declaration extends the environment and yields findings. A variable is declared after its
initializer and a function before its body, so that it can call itself. A function body has a scope
and a frame of its own; of what happens in it only the classes remain.

Classes belong to the outermost block. One that stands deeper is reported, and declared and walked
all the same.
-/

namespace ObjLet

/-- The class that a superclass name stands for, and what is wrong with the name. -/
def Env.superclass (env : Env) (cls : Name) : Option Name → Option ClassId × Findings
  | none => (none, [])
  | some sup =>
    match env.classes.lookup? sup.text with
    | some id => (some id, [])
    | none => (none, [sup.error (.unknownSuperclass cls.text sup.text)])

/-- Declare a class, without its members. -/
def Env.declareClass (env : Env) (id : NodeId) (name : Name) (superclass : Option Name) :
    ClassId × Env × Findings :=
  let nested := if env.level = 0 then [] else [name.error (.nestedClass name.text)]
  let (parent, missing) := env.superclass name superclass
  let (cls, classes) := env.classes.declare name.text parent
  let (env, declared) := { env with classes }.declareLocal id name .cls (.cls cls)
  (cls, env, nested ++ missing ++ declared)

mutual

/-- The environment after a declaration, and what is found in it. -/
def Decl.bind (env : Env) : Decl → Env × Findings
  | .var id name type init _ =>
    let (env', declared) := env.declareLocal id name .var (type.resolve env.classes)
    (env', init.findings env ++ type.findings env.classes ++ declared)
  | .func f =>
    let sig := f.signature env.classes
    let (env', declared) := env.declareLocal f.id f.name .func sig.ty
    let (classes, inner) := f.bindBody env' sig.params
    ({ env' with classes }, f.headFindings env.classes ++ declared ++ inner)
  | .cls ⟨id, name, superclass, fields, methods, _⟩ =>
    let (cls, env, head) := env.declareClass id name superclass
    let (body, inFields) := (ClassBody.enter env cls name.text).declareFields fields
    let (body, inMethods) := ClassBody.bindMethods body methods
    ({ env with classes := body.env.classes }, head ++ inFields ++ inMethods)

/-- The classes after the body of a function with parameters of the given types, and what is found
in it. -/
def FunDecl.bindBody (env : Env) (paramTypes : List Ty) : FunDecl → ClassTable × Findings
  | ⟨_, _, params, _, decls, body, _⟩ =>
    let (env, inParams) := env.enterFrame.declareParams Env.firstParam (params.zip paramTypes)
    let (env, inDecls) := Decl.bindAll env decls
    (env.classes, inParams ++ inDecls ++ body.findings env)

/-- Declare methods one after the other. Their bodies are walked even if they are rejected. -/
def ClassBody.bindMethods (b : ClassBody) : List FunDecl → ClassBody × Findings
  | [] => (b, [])
  | m :: ms =>
    let sig := m.signature b.env.classes
    let (b', declared) := b.declareMethod m sig
    let (classes, inner) := m.bindBody b'.env sig.params
    let (b'', rest) := ClassBody.bindMethods { b' with env := { b'.env with classes } } ms
    (b'', m.headFindings b.env.classes ++ declared ++ inner ++ rest)

def Decl.bindAll (env : Env) : List Decl → Env × Findings
  | [] => (env, [])
  | d :: ds =>
    let (env, fs) := d.bind env
    let (env, gs) := Decl.bindAll env ds
    (env, fs ++ gs)

end

theorem FunDecl.bindBody_eq (env : Env) (paramTypes : List Ty) (f : FunDecl) :
    f.bindBody env paramTypes =
      let head := env.enterFrame.declareParams Env.firstParam (f.params.zip paramTypes)
      let inner := Decl.bindAll head.1 f.decls
      (inner.1.classes, head.2 ++ inner.2 ++ f.body.findings inner.1) := by
  cases f; rfl

end ObjLet
