import ObjLet.Binding.Program
import ObjLet.Code.Program
import ObjLet.Typing.Program

/-!
# Compiling programs

A program is bound, then checked, then turned into code. Types are not checked where names could not
be bound, and no code is generated for a program with errors.

A program is a tree to start with: there is no parser. Ids, levels, slots and counts are natural numbers; offsets,
operands and the memory size are integers. No width of a machine word limits them here. Where a unit is run, the
width of words belongs to the machine that runs it (`Target`). Errors are structured, and their texts are functions
of them, so that what an error says can be compared and renamed.

Not part of the library are logging, the order in which tables are iterated over, and accessors that nothing here
reads.
-/

namespace ObjLet

/-- What a compilation can be told. -/
structure Options where
  /-- Words of memory of the target machine. The outermost frame starts at its end. -/
  memorySize : Int := 10000
  checkTypes : Bool := true
deriving DecidableEq

/-- What is known of a program without errors. -/
structure Analysis where
  tables : Tables
  /-- The type of the program, if types are checked. -/
  type? : Option Ty

/-- A compiled program. -/
structure Compiled where
  unit : CodeUnit
  analysis : Analysis

namespace Program

/-- Bind a program and check its types. -/
def analyze (o : Options) (p : Program) : Except SemanticErrors Analysis :=
  let bindings := p.bind
  let t := bindings.tables
  if !bindings.isClean then .error bindings.errors
  else if !o.checkTypes then .ok ⟨t, none⟩
  else if !(p.typeErrors t).isEmpty then .error (p.typeErrors t)
  else .ok ⟨t, p.type? t⟩

/-- Analyze a program and generate its code. -/
def compile (o : Options) (p : Program) : Except CompileError Compiled := do
  let analysis ← (p.analyze o).mapError .semantic
  let unit ← (p.generate analysis.tables o.memorySize).mapError .internal
  return ⟨unit, analysis⟩

end Program

end ObjLet
