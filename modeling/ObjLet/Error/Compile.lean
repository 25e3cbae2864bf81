import ObjLet.Error.Semantic
import ObjLet.Syntax

/-!
# Failures of a compilation

A compilation fails with the semantic errors of the program or, where code is generated for a tree
that the tables do not fit, with an internal error, which stops it at once.
-/

namespace ObjLet

/-- What a tree lacks in the tables it is generated with. -/
inductive Misfit where
  | unresolvedUse (id : NodeId)
  | unresolvedMethodCall (id : NodeId)
  | unknownDeclaration (id : NodeId)
  | notAValue (name : String) (kind : EntryKind)
  | classCalled (name : String)
  | notAClass (name : String)
  | noFunctionType (name : String)
  | noClassEntry (name : String)
  | noSuperclassTable (name : String)
  | slotOutOfRange (method : String) (slot : Int)
  | described (text : String)
deriving DecidableEq

def Misfit.text : Misfit → String
  | unresolvedUse id => s!"{id.text} has no resolved entry"
  | unresolvedMethodCall id => s!"method call {id.text} is unresolved"
  | unknownDeclaration id => s!"declaration {id.text} has no entry"
  | notAValue name kind => s!"'{name}' is a {kind.text}, not a value"
  | classCalled name => s!"class '{name}' called as a function"
  | notAClass name => s!"'{name}' is not a class"
  | noFunctionType name => s!"'{name}' has no function type"
  | noClassEntry name => s!"'{name}' is not a class entry"
  | noSuperclassTable name => s!"superclass of '{name}' has no dispatch table"
  | slotOutOfRange method slot => s!"method '{method}' has dispatch slot {slot}"
  | described text => text

structure InternalError where
  misfit : Misfit
  span : Span
deriving DecidableEq

def InternalError.text (e : InternalError) : String :=
  s!"internal compiler error at {e.span.text}: {e.misfit.text}"

inductive CompileError where
  | semantic (errors : SemanticErrors)
  | internal (error : InternalError)
deriving DecidableEq

namespace CompileError

def text : CompileError → String
  | semantic errors => errors.text
  | internal error => error.text

def semantic? : CompileError → Option SemanticErrors
  | semantic errors => some errors
  | internal _ => none

def isInternal : CompileError → Bool
  | semantic _ => false
  | internal _ => true

end CompileError

end ObjLet
