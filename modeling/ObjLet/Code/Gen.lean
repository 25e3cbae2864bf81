import ObjLet.Code.Emitter
import ObjLet.Error.Compile
import ObjLet.Tables

/-!
# Generating code

Code is generated from a tree and the tables of its names. A step of generation may take labels, add
functions to the unit and fill dispatch tables; it fails where the tables do not fit the tree.
-/

namespace ObjLet

/-- What steps of generation have produced so far. -/
structure GenState where
  emitter : Emitter := {}
  /-- The entries of the methods of each class, by slot. -/
  dispatch : Std.TreeMap ClassId (List Label) := ∅

/-- A step of generation. -/
abbrev Gen := StateT GenState (Except InternalError)

namespace Gen

def fail {α : Type} (misfit : Misfit) (span : Span) : Gen α := throw ⟨misfit, span⟩

/-- The value of an option; without one, the misfit that it stands for. -/
def orFail {α : Type} (value? : Option α) (misfit : Misfit) (span : Span) : Gen α :=
  match value? with
  | some a => pure a
  | none => fail misfit span

def freshBranch : Gen Label :=
  modifyGet fun s =>
    let (label, emitter) := s.emitter.freshBranch
    (label, { s with emitter })

def freshFunction : Gen Label :=
  modifyGet fun s =>
    let (label, emitter) := s.emitter.freshFunction
    (label, { s with emitter })

def addFunction (entry : Label) (body : Code) : Gen Unit :=
  modify fun s => { s with emitter := s.emitter.addFunction entry body }

def setDispatch (cls : ClassId) (table : List Label) : Gen Unit :=
  modify fun s => { s with dispatch := s.dispatch.insert cls table }

def dispatch? (cls : ClassId) : Gen (Option (List Label)) :=
  return (← get).dispatch[cls]?

theorem bind_eq_ok {α β : Type} {x : Gen α} {f : α → Gen β} {s : GenState} {r : β × GenState} :
    (x >>= f).run s = .ok r ↔ ∃ a s', x.run s = .ok (a, s') ∧ (f a).run s' = .ok r := by
  rw [StateT.run_bind]
  cases h : x.run s with
  | error e => exact ⟨nofun, nofun⟩
  | ok p =>
    constructor
    · intro hf
      exact ⟨p.1, p.2, rfl, hf⟩
    · rintro ⟨a, s', hp, hf⟩
      cases hp
      exact hf

theorem orFail_eq_ok {α : Type} {value? : Option α} {misfit : Misfit} {span : Span}
    {s : GenState} {r : α × GenState} :
    (orFail value? misfit span).run s = .ok r ↔ value? = some r.1 ∧ r.2 = s := by
  cases value? with
  | none => exact ⟨nofun, fun h => nomatch h.1⟩
  | some a =>
    constructor
    · intro h
      cases h
      exact ⟨rfl, rfl⟩
    · rintro ⟨h, hs⟩
      cases h
      rw [← hs]
      rfl

end Gen

namespace Tables

def use (t : Tables) (id : NodeId) (span : Span) : Gen Resolution :=
  Gen.orFail (t.resolutions.use? id) (.unresolvedUse id) span

def methodCall (t : Tables) (id : NodeId) (span : Span) : Gen MethodResolution :=
  Gen.orFail (t.resolutions.methodCall? id) (.unresolvedMethodCall id) span

def declaration (t : Tables) (id : NodeId) (span : Span) : Gen Entry :=
  Gen.orFail (t.resolutions.declaration? id) (.unknownDeclaration id) span

end Tables

end ObjLet
