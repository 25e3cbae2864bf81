import ObjLet.Entry
import ObjLet.Span

/-!
# Semantic errors

What can be wrong with a program. A `Problem` is a cause with the names and types that belong to it;
its wording is one function of the cause. Problems of scoping are found while names are bound, the
others while types are checked. Errors are collected: one run reports all of them, in the order in
which they are found.
-/

namespace ObjLet

/-- What a body with a result type belongs to. -/
inductive Routine where
  | function
  | method
deriving DecidableEq

def Routine.text : Routine → String
  | function => "function"
  | method => "method"

/-- Why a value does not fit the place where it stands. -/
inductive Mismatch where
  | init (var : String) (expected found : TypeName)
  | result (routine : Routine) (name : String) (expected found : TypeName)
  | operand (op : String) (expected found : TypeName)
  | condition (found : TypeName)
  | comparison (left right : TypeName)
  | branches (thenType elseType : TypeName)
  | argument (position : Nat) (callee : String) (expected found : TypeName)
  | described (text : String)
deriving DecidableEq

def Mismatch.text : Mismatch → String
  | init var expected found =>
    s!"incompatible value for variable '{var}': expected {expected.text}, found {found.text}"
  | result routine name expected found =>
    s!"wrong return type for {routine.text} '{name}': expected {expected.text}, found {found.text}"
  | operand op expected found =>
    s!"operand of '{op}' must be {expected.text}, found {found.text}"
  | condition found => s!"condition of 'if' must be bool, found {found.text}"
  | comparison left right => s!"cannot compare {left.text} with {right.text}"
  | branches thenType elseType =>
    s!"incompatible branches of 'if': {thenType.text} and {elseType.text}"
  | argument position callee expected found =>
    s!"argument {position} of '{callee}': expected {expected.text}, found {found.text}"
  | described text => text

/-- Why a member may not replace the inherited one. -/
inductive OverrideFault where
  | field (found inherited : TypeName)
  | method (found inherited : TypeName)
  | described (text : String)
deriving DecidableEq

def OverrideFault.text : OverrideFault → String
  | field found inherited =>
    s!"field type {found.text} is not a subtype of {inherited.text}"
  | method found inherited =>
    s!"method type {found.text} is not a subtype of {inherited.text}"
  | described text => text

/-- What an error calls a declaration: by the kind of its entry, or in words of its own. -/
inductive Subject where
  | entry (kind : EntryKind)
  | described (text : String)
deriving DecidableEq

def Subject.text : Subject → String
  | entry kind => kind.text
  | described text => text

/-- Something that is wrong with a program. -/
inductive Problem where
  | alreadyDeclared (subject : Subject) (name : String)
  | unknownIdentifier (name : String)
  | unknownClass (name : String)
  | unknownMethod (cls method : String)
  | unknownSuperclass (cls superclass : String)
  /-- A field and a method share a name along the inheritance chain. -/
  | memberCollision (subject inherited : Subject) (cls name : String)
  | nestedClass (name : String)
  | notAnObject (name : String)
  | invalidOverride (cls member : String) (fault : OverrideFault)
  | typeMismatch (mismatch : Mismatch)
  | argumentCount (name : String) (expected found : Nat)
  | notCallable (name : String)
  | notAValue (name : String)
deriving DecidableEq

namespace Problem

def text : Problem → String
  | alreadyDeclared subject name => s!"{subject.text} '{name}' already declared"
  | unknownIdentifier name => s!"identifier '{name}' not declared"
  | unknownClass name => s!"class '{name}' not declared"
  | unknownMethod cls method => s!"class '{cls}' has no method '{method}'"
  | unknownSuperclass cls superclass => s!"superclass '{superclass}' of class '{cls}' not declared"
  | memberCollision subject inherited cls name =>
    s!"{subject.text} '{name}' in class '{cls}' collides with an inherited {inherited.text}"
  | nestedClass name => s!"class '{name}' must be declared at top level"
  | notAnObject name => s!"'{name}' is not an object"
  | invalidOverride cls member fault =>
    s!"'{member}' in class '{cls}' is not a valid override: {fault.text}"
  | typeMismatch mismatch => mismatch.text
  | argumentCount name expected found =>
    s!"'{name}' expects {expected} argument(s), found {found}"
  | notCallable name => s!"'{name}' is not a function"
  | notAValue name => s!"'{name}' cannot be used as a value"

/-- Whether the problem is one of scoping rather than of typing. -/
def isScoping : Problem → Bool
  | alreadyDeclared .. | unknownIdentifier .. | unknownClass .. | unknownMethod ..
  | unknownSuperclass .. | memberCollision .. | nestedClass .. | notAnObject .. => true
  | invalidOverride .. | typeMismatch .. | argumentCount .. | notCallable .. | notAValue .. => false

end Problem

/-- A problem and where it is. -/
structure SemanticError where
  problem : Problem
  span : Span
deriving DecidableEq

def SemanticError.text (e : SemanticError) : String := s!"at {e.span.text}: {e.problem.text}"

/-- The errors of a program, in the order in which they are found. -/
abbrev SemanticErrors := List SemanticError

/-- A line with the number of errors, then a line for each. -/
def SemanticErrors.text (es : SemanticErrors) : String :=
  s!"{es.length} error(s)" ++ String.join (es.map fun e => "\n  " ++ e.text)

end ObjLet
