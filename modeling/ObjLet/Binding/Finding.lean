import ObjLet.Error.Semantic
import ObjLet.Resolution

/-!
# Findings

Binding the names of a program yields `Findings`, in the order of a walk through the tree: what a
use or a declaration was bound to, or what is wrong. The tables and the errors of a program are read
off its findings.
-/

namespace ObjLet

/-- What the walk finds at one place of the tree. -/
inductive Finding where
  | use (id : NodeId) (resolution : Resolution)
  | methodCall (id : NodeId) (resolution : MethodResolution)
  | declaration (id : NodeId) (entry : Entry)
  | error (error : SemanticError)

abbrev Findings := List Finding

def Finding.error? : Finding → Option SemanticError
  | error e => some e
  | _ => none

/-- Add a finding to the tables; an error leaves them as they are. -/
def Resolutions.record (r : Resolutions) : Finding → Resolutions
  | .use id resolution => r.recordUse id resolution
  | .methodCall id resolution => r.recordMethodCall id resolution
  | .declaration id entry => r.recordDeclaration id entry
  | .error _ => r

namespace Findings

/-- The errors among findings, in order. -/
def errors (fs : Findings) : SemanticErrors := fs.filterMap Finding.error?

/-- The tables that findings fill. -/
def resolutions (fs : Findings) : Resolutions := fs.foldl Resolutions.record {}

@[simp] theorem errors_append (fs gs : Findings) :
    Findings.errors (fs ++ gs) = Findings.errors fs ++ Findings.errors gs :=
  List.filterMap_append

end Findings

/-- The finding that something is wrong. -/
def Name.error (name : Name) (problem : Problem) : Finding := .error ⟨problem, name.span⟩

end ObjLet
