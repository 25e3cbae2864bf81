import ObjLet.Class.Table
import ObjLet.Resolution

/-!
# Tables

All that later stages know of the names of a program.
-/

namespace ObjLet

/-- What the names of a program stand for, and its classes. -/
structure Tables where
  resolutions : Resolutions := {}
  classes : ClassTable := .empty

end ObjLet
