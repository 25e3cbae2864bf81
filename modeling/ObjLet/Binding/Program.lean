import ObjLet.Binding.Decl
import ObjLet.Tables

/-!
# Bindings of a program

`Program.bind` walks a program once, from its declarations to its body, and collects what every name
stands for, the classes and the errors. The walk always runs to the end.
-/

namespace ObjLet

/-- What binding the names of a program yields. -/
structure Bindings where
  tables : Tables
  errors : SemanticErrors

def Bindings.isClean (b : Bindings) : Bool := b.errors.isEmpty

/-- The environment of the program body and everything that was found. -/
def Program.walk (p : Program) : Env × Findings :=
  let (env, fs) := Decl.bindAll .initial p.decls
  (env, fs ++ p.body.findings env)

def Program.bind (p : Program) : Bindings :=
  let (env, fs) := p.walk
  ⟨⟨fs.resolutions, env.classes⟩, fs.errors⟩

end ObjLet
