import ObjLet.Typing.Decl

/-!
# Types of a program

`Program.typeErrors` collects all that is wrong with the types of a program whose names are bound.
The type of a program is that of its body.
-/

namespace ObjLet

namespace Program

def type? (t : Tables) (p : Program) : Option Ty := p.body.type? t

def typeErrors (t : Tables) (p : Program) : SemanticErrors :=
  Decl.typeErrorsAll t p.decls ++ p.body.typeErrors t

end Program

end ObjLet
