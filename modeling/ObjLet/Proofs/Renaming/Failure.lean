import ObjLet.Binding.Finding
import ObjLet.Error.Compile
import ObjLet.Proofs.Renaming.Tree

/-!
# Renamed failures

What becomes of errors and findings when the program is renamed: names of the program are renamed, classes in
types among them, and an error moves with the place that it is reported at. The texts of operators are not names
of the program.
-/

namespace ObjLet

namespace TyOf

variable {κ ι μ : Type}

mutual

/-- Renaming the names in a type twice is renaming them once. -/
theorem map_map (f : κ → ι) (g : ι → μ) : (t : TyOf κ) → (t.map f).map g = t.map (g ∘ f)
  | int | bool | null | ref _ | cls _ => rfl
  | arrow ps r => by simp only [map, map_map f g r, mapAll_mapAll f g ps]

theorem mapAll_mapAll (f : κ → ι) (g : ι → μ) : (ts : List (TyOf κ)) → mapAll g (mapAll f ts) = mapAll (g ∘ f) ts
  | [] => rfl
  | t :: ts => by simp only [mapAll, map_map f g t, mapAll_mapAll f g ts]

end

mutual

theorem map_id : (t : TyOf κ) → t.map id = t
  | int | bool | null | ref _ | cls _ => rfl
  | arrow ps r => by simp only [map, map_id r, mapAll_id ps]

theorem mapAll_id : (ts : List (TyOf κ)) → mapAll id ts = ts
  | [] => rfl
  | t :: ts => by simp only [mapAll, map_id t, mapAll_id ts]

end

end TyOf

/-! ## Errors -/

def TypeName.rename (r : Renaming) (ty : TypeName) : TypeName := ty.map r.name

def Mismatch.rename (r : Renaming) : Mismatch → Mismatch
  | init var expected found => init (r.name var) (TypeName.rename r expected) (TypeName.rename r found)
  | result routine name expected found =>
    result routine (r.name name) (TypeName.rename r expected) (TypeName.rename r found)
  | operand op expected found => operand op (TypeName.rename r expected) (TypeName.rename r found)
  | condition found => condition (TypeName.rename r found)
  | comparison left right => comparison (TypeName.rename r left) (TypeName.rename r right)
  | branches thenType elseType => branches (TypeName.rename r thenType) (TypeName.rename r elseType)
  | argument position callee expected found =>
    argument position (r.name callee) (TypeName.rename r expected) (TypeName.rename r found)
  | described text => described text

def OverrideFault.rename (r : Renaming) : OverrideFault → OverrideFault
  | field found inherited => field (TypeName.rename r found) (TypeName.rename r inherited)
  | method found inherited => method (TypeName.rename r found) (TypeName.rename r inherited)
  | described text => described text

def Problem.rename (r : Renaming) : Problem → Problem
  | alreadyDeclared subject name => alreadyDeclared subject (r.name name)
  | unknownIdentifier name => unknownIdentifier (r.name name)
  | unknownClass name => unknownClass (r.name name)
  | unknownMethod cls method => unknownMethod (r.name cls) (r.name method)
  | unknownSuperclass cls superclass => unknownSuperclass (r.name cls) (r.name superclass)
  | memberCollision subject inherited cls name => memberCollision subject inherited (r.name cls) (r.name name)
  | nestedClass name => nestedClass (r.name name)
  | notAnObject name => notAnObject (r.name name)
  | invalidOverride cls member fault => invalidOverride (r.name cls) (r.name member) (fault.rename r)
  | typeMismatch mismatch => typeMismatch (mismatch.rename r)
  | argumentCount name expected found => argumentCount (r.name name) expected found
  | notCallable name => notCallable (r.name name)
  | notAValue name => notAValue (r.name name)

def Misfit.rename (r : Renaming) : Misfit → Misfit
  | unresolvedUse id => unresolvedUse (r.node id)
  | unresolvedMethodCall id => unresolvedMethodCall (r.node id)
  | unknownDeclaration id => unknownDeclaration (r.node id)
  | notAValue name kind => notAValue (r.name name) kind
  | classCalled name => classCalled (r.name name)
  | notAClass name => notAClass (r.name name)
  | noFunctionType name => noFunctionType (r.name name)
  | noClassEntry name => noClassEntry (r.name name)
  | noSuperclassTable name => noSuperclassTable (r.name name)
  | slotOutOfRange method slot => slotOutOfRange (r.name method) slot
  | described text => described text

/-- An error that is reported at a place. -/
def SemanticError.rename (r : Renaming) (q : Route) (e : SemanticError) : SemanticError :=
  ⟨e.problem.rename r, r.move q e.span⟩

def InternalError.rename (r : Renaming) (q : Route) (e : InternalError) : InternalError :=
  ⟨e.misfit.rename r, r.move q e.span⟩

/-! ## Findings -/

/-- A finding in a tree that is renamed uniformly. -/
def Finding.rename (r : Renaming) : Finding → Finding
  | use id resolution => use (r.node id) resolution
  | methodCall id resolution => methodCall (r.node id) resolution
  | declaration id entry => declaration (r.node id) entry
  | error e => error (e.rename r [])

def Findings.rename (r : Renaming) (fs : Findings) : Findings := fs.map (Finding.rename r)

namespace Findings

/-- Findings are renamed one by one, so a log of them is renamed piece by piece. -/
@[simp] theorem rename_nil (r : Renaming) : Findings.rename r [] = [] := rfl

@[simp] theorem rename_cons (r : Renaming) (f : Finding) (fs : Findings) :
    Findings.rename r (f :: fs) = f.rename r :: Findings.rename r fs := rfl

@[simp] theorem rename_append (r : Renaming) (fs gs : Findings) :
    Findings.rename r (fs ++ gs) = Findings.rename r fs ++ Findings.rename r gs := List.map_append

/-- The errors among renamed findings are those among the findings, renamed. -/
theorem errors_rename (r : Renaming) (fs : Findings) :
    (fs.rename r).errors = fs.errors.map (SemanticError.rename r []) := by
  induction fs with
  | nil => rfl
  | cons f fs ih =>
    cases f with
    | use | methodCall | declaration => exact ih
    | error e => exact congrArg (e.rename r [] :: ·) ih

end Findings

/-! ## Keeping everything -/

/-- Where no name changes, the texts of errors stay as they are. -/
@[simp] theorem TypeName.rename_of_name (r : Renaming) (h : r.name = id) (ty : TypeName) :
    TypeName.rename r ty = ty := by
  rw [TypeName.rename, h, TyOf.map_id]

/-- Positions are not part of a problem, so moving the tree does not change what is wrong with it. -/
theorem Problem.rename_of_name (r : Renaming) (h : r.name = id) (problem : Problem) : problem.rename r = problem := by
  cases problem with
  | invalidOverride cls member fault =>
    cases fault <;> simp [Problem.rename, OverrideFault.rename, h]
  | typeMismatch mismatch =>
    cases mismatch <;> simp [Problem.rename, Mismatch.rename, h]
  | _ => simp [Problem.rename, h]

/-- Misfits name nodes too, so here ids must be kept as well. -/
theorem Misfit.rename_of_name (r : Renaming) (h : r.name = id) (h' : r.node = id) (misfit : Misfit) :
    misfit.rename r = misfit := by
  cases misfit <;> simp [Misfit.rename, h, h']

end ObjLet
