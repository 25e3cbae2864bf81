import ObjLet.Entry
import ObjLet.Syntax
import Std.Data.TreeMap

/-!
# Resolutions

What each use of a name stands for and what each declaration declares, in tables keyed by node id.
A node recorded twice keeps its last record.
-/

namespace ObjLet

/-- A use of a name, bound to its declaration. -/
structure Resolution where
  entry : Entry
  /-- Level of the innermost scope around the use. -/
  useLevel : Nat
deriving DecidableEq

/-- Access links from the frame of the use to the frame that holds the entry. -/
def Resolution.hops (r : Resolution) : Nat := r.useLevel - r.entry.level

/-- A method call, bound to its object and to the method in the static class of the object. -/
structure MethodResolution where
  object : Resolution
  method : Entry
  cls : ClassId
deriving DecidableEq

/-- What uses and declarations were bound to. -/
structure Resolutions where
  /-- Identifiers, calls and `new`. -/
  uses : Std.TreeMap NodeId Resolution := ∅
  methodCalls : Std.TreeMap NodeId MethodResolution := ∅
  declarations : Std.TreeMap NodeId Entry := ∅

namespace Resolutions

def use? (r : Resolutions) (id : NodeId) : Option Resolution := r.uses[id]?

def methodCall? (r : Resolutions) (id : NodeId) : Option MethodResolution := r.methodCalls[id]?

def declaration? (r : Resolutions) (id : NodeId) : Option Entry := r.declarations[id]?

def recordUse (r : Resolutions) (id : NodeId) (use : Resolution) : Resolutions :=
  { r with uses := r.uses.insert id use }

def recordMethodCall (r : Resolutions) (id : NodeId) (call : MethodResolution) : Resolutions :=
  { r with methodCalls := r.methodCalls.insert id call }

def recordDeclaration (r : Resolutions) (id : NodeId) (entry : Entry) : Resolutions :=
  { r with declarations := r.declarations.insert id entry }

/-- Number of resolved uses, method calls included. -/
def useCount (r : Resolutions) : Nat := r.uses.size + r.methodCalls.size

@[simp] theorem use?_recordUse (r : Resolutions) (id n : NodeId) (use : Resolution) :
    (r.recordUse id use).use? n = if id = n then some use else r.use? n := by
  simp [use?, recordUse, Std.TreeMap.getElem?_insert]

@[simp] theorem methodCall?_recordMethodCall (r : Resolutions) (id n : NodeId)
    (call : MethodResolution) :
    (r.recordMethodCall id call).methodCall? n = if id = n then some call else r.methodCall? n := by
  simp [methodCall?, recordMethodCall, Std.TreeMap.getElem?_insert]

@[simp] theorem declaration?_recordDeclaration (r : Resolutions) (id n : NodeId) (entry : Entry) :
    (r.recordDeclaration id entry).declaration? n =
      if id = n then some entry else r.declaration? n := by
  simp [declaration?, recordDeclaration, Std.TreeMap.getElem?_insert]

end Resolutions

end ObjLet
