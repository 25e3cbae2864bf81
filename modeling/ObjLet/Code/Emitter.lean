import ObjLet.Code.Unit

/-!
# Emitting code

An `Emitter` collects the code of a unit. Functions are emitted out of line: `begin` sets the code
around a function aside and `finishFunction` moves the finished function behind the main part and
takes up the code that was set aside. Labels come from two counters that never go back, so no label
is handed out twice.
-/

namespace ObjLet

/-- Hands out labels; `branches` and `functions` count those handed out so far. -/
structure LabelSupply where
  branches : Nat := 0
  functions : Nat := 0

namespace LabelSupply

def freshBranch (s : LabelSupply) : Label × LabelSupply :=
  (⟨.branch, s.branches⟩, { s with branches := s.branches + 1 })

def freshFunction (s : LabelSupply) : Label × LabelSupply :=
  (⟨.function, s.functions⟩, { s with functions := s.functions + 1 })

end LabelSupply

/-- The code of a unit as far as it is emitted. -/
structure Emitter where
  /-- The code being emitted: of the innermost open function, or else the main part. -/
  code : Code := []
  /-- The finished functions. -/
  functions : Code := []
  labels : LabelSupply := {}

/-- The code set aside while a function is open. -/
structure OpenFunction where
  outer : Code

namespace Emitter

def emit (e : Emitter) (i : Instruction) : Emitter := { e with code := e.code ++ [i] }

def emitAll (e : Emitter) (code : Code) : Emitter := { e with code := e.code ++ code }

def freshBranch (e : Emitter) : Label × Emitter :=
  let (label, labels) := e.labels.freshBranch
  (label, { e with labels })

def freshFunction (e : Emitter) : Label × Emitter :=
  let (label, labels) := e.labels.freshFunction
  (label, { e with labels })

/-- Open a function; its code starts with its label. -/
def begin (e : Emitter) (entry : Label) : OpenFunction × Emitter :=
  (⟨e.code⟩, { e with code := [.place entry] })

/-- Close a function and go on with the code around it. -/
def finishFunction (e : Emitter) (f : OpenFunction) : Emitter :=
  { e with code := f.outer, functions := e.functions ++ e.code }

/-- Emit a whole function. -/
def addFunction (e : Emitter) (entry : Label) (body : Code) : Emitter :=
  let (f, e) := e.begin entry
  (e.emitAll body).finishFunction f

/-- The unit: the main part and then the functions, in the order in which they were finished. -/
def finish (e : Emitter) : CodeUnit := ⟨e.code ++ e.functions⟩

theorem addFunction_eq (e : Emitter) (entry : Label) (body : Code) :
    e.addFunction entry body = { e with functions := e.functions ++ .place entry :: body } := rfl

end Emitter

end ObjLet
