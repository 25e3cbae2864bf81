import ObjLet.Code.Decl

/-!
# Code of a program

The main part declares the outermost names and evaluates the body. With declarations it starts by
pushing a word in place of the access link that the outermost frame does not have.
-/

namespace ObjLet

namespace Program

/-- The main part of a program. -/
def gen (t : Tables) (mem : Int) (p : Program) : Gen Code := do
  let decls ← Decl.genAll t mem p.decls
  let body ← p.body.gen t mem
  return (if p.hasDecls then [.push 0] else []) ++ decls ++ body ++ [.halt]

/-- The unit of a program: its main part and its functions. -/
def generate (t : Tables) (mem : Int) (p : Program) : Except InternalError CodeUnit := do
  let (main, state) ← (p.gen t mem).run {}
  return (state.emitter.emitAll main).finish

end Program

end ObjLet
