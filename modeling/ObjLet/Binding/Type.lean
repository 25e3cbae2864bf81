import ObjLet.Binding.Finding
import ObjLet.Class.Table

/-!
# Class names in types

A class name in a type stands for the class that the class table has under it. A name that the table
does not have is an error and counts as the type of `null`, which fits every reference.
-/

namespace ObjLet

namespace TypeExpr

mutual

/-- The type that a type expression stands for. -/
def resolve (t : ClassTable) : TypeExpr → Ty
  | int => .int
  | bool => .bool
  | null => .null
  | ref c =>
    match t.lookup? c.text with
    | some id => .ref id
    | none => .null
  | arrow params ret => .arrow (resolveAll t params) (resolve t ret)

def resolveAll (t : ClassTable) : List TypeExpr → List Ty
  | [] => []
  | ty :: tys => resolve t ty :: resolveAll t tys

end

mutual

/-- The names in a type that stand for no class, from left to right. -/
def unknownClasses (t : ClassTable) : TypeExpr → List Name
  | ref c => if (t.lookup? c.text).isSome then [] else [c]
  | arrow params ret => allUnknownClasses t params ++ unknownClasses t ret
  | _ => []

def allUnknownClasses (t : ClassTable) : List TypeExpr → List Name
  | [] => []
  | ty :: tys => unknownClasses t ty ++ allUnknownClasses t tys

end

/-- What is wrong with the class names in a type. -/
def findings (t : ClassTable) (ty : TypeExpr) : Findings :=
  (ty.unknownClasses t).map fun c => c.error (.unknownClass c.text)

end TypeExpr

namespace FunDecl

def signature (t : ClassTable) (f : FunDecl) : Signature :=
  ⟨f.params.map (·.type.resolve t), f.ret.resolve t⟩

/-- What is wrong with the types in the head of a function: the parameters first. -/
def headFindings (t : ClassTable) (f : FunDecl) : Findings :=
  f.params.flatMap (·.type.findings t) ++ f.ret.findings t

end FunDecl

end ObjLet
