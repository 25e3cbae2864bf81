import ObjLet.Syntax

/-!
# Values and environments

What programs compute with. A function value is a function with the frames it was declared in, and an
object a record of fields with the classes that its methods come from, its own class first and each
with the frames around its declaration. Variables are never assigned, so frames are plain lists and a
captured frame is a copy.

Frames are innermost first, and so are the bindings in a frame. Each frame says which activation or
object it belongs to; names are looked up without regard to that.
-/

namespace ObjLet

/-- What a frame belongs to. -/
inductive Place where
  | activation (id : Nat)
  | object (id : Nat)
deriving DecidableEq

def Place.isObject : Place → Bool
  | activation _ => false
  | object _ => true

mutual

inductive Value where
  | int (n : Int)
  | bool (b : Bool)
  | null
  | object (id : Nat) (lineage : List ClassValue) (fields : List (String × Value))
  | closure (f : FunDecl) (env : List Frame)

/-- A class with the frames around its declaration. -/
structure ClassValue where
  decl : ClassDecl
  env : List Frame

/-- What a name stands for. -/
inductive Binding where
  | value (v : Value)
  /-- A method of the object around the code. -/
  | method (self : Value)
  /-- A class and its ancestors, nearest first. -/
  | cls (lineage : List ClassValue)

structure Frame where
  place : Place
  bindings : List (String × Binding)

end

namespace Binding

def lineage? : Binding → Option (List ClassValue)
  | cls lineage => some lineage
  | _ => none

end Binding

namespace Frame

def lookup? (f : Frame) (name : String) : Option Binding := f.bindings.lookup name

/-- Bind a name in the innermost frame. -/
def bind (name : String) (b : Binding) : List Frame → List Frame
  | [] => []
  | f :: fs => { f with bindings := (name, b) :: f.bindings } :: fs

/-- The binding of a name in the innermost frame that has one, and the position of that frame. -/
def find? (name : String) : List Frame → Option (Nat × Binding)
  | [] => none
  | f :: fs =>
    match f.lookup? name with
    | some b => some (0, b)
    | none => (find? name fs).map fun (i, b) => (i + 1, b)

/-- The innermost class of a name. -/
def findClass? (name : String) (env : List Frame) : Option (List ClassValue) :=
  env.findSome? fun f => (f.lookup? name).bind Binding.lineage?

end Frame

namespace ClassValue

/-- The names of the fields of an object, in the order in which `new` takes their values: those of the
ancestors come first. -/
def fieldNames : List ClassValue → List String
  | [] => []
  | c :: ancestors =>
    let inherited := fieldNames ancestors
    inherited ++ (c.decl.fields.map (·.name.text)).filter (· ∉ inherited)

/-- The nearest class that declares a method, with its ancestors. -/
def findMethod? (name : String) : List ClassValue → Option (List ClassValue × FunDecl)
  | [] => none
  | c :: ancestors =>
    match c.decl.methods.find? (·.name.text = name) with
    | some m => some (c :: ancestors, m)
    | none => findMethod? name ancestors

/-- The methods that the body of a method can call by name: the inherited ones and those of its class
up to itself. -/
def methodNames : List ClassValue → List String
  | [] => []
  | c :: ancestors => methodNames ancestors ++ c.decl.methods.map (·.name.text)

/-- The frame of an object as the body of the method `name` of the first class sees it. -/
def scope (id : Nat) (self : Value) (fields : List (String × Value)) (name : String) :
    List ClassValue → Frame
  | [] => ⟨.object id, []⟩
  | c :: ancestors =>
    let own := c.decl.methods.map (·.name.text)
    let visible := methodNames ancestors ++ (own.takeWhile (· ≠ name) ++ [name])
    ⟨.object id,
      (fields.filter (·.1 ∈ fieldNames (c :: ancestors))).map (fun (n, v) => (n, .value v)) ++
        visible.map fun n => (n, .method self)⟩

end ClassValue

end ObjLet
