import ObjLet.Typing.Expr

/-!
# Types in declarations

A variable has to fit its declared type, a body its declared result, and an overriding member has to
be a subtype of the one that it replaces, which is the member of the direct superclass at the same
offset.
-/

namespace ObjLet

namespace Tables

/-- The layout of the superclass of the class that a node declares. -/
def parentLayout? (t : Tables) (id : NodeId) : Option ClassLayout := do
  let cls ← (← t.resolutions.declaration? id).declaredClass?
  t.classes.layout? (← (← t.classes.layout? cls).superclass)

/-- What is wrong with a member, given the type that the superclass has at its offset. -/
def fitOverride (t : Tables) (cls : String) (id : NodeId) (member : Name) (span : Span)
    (inherited? : (offset : Int) → Option Ty)
    (fault : (found inherited : TypeName) → OverrideFault) :
    SemanticErrors :=
  match t.resolutions.declaration? id with
  | none => []
  | some entry =>
    match inherited? entry.offset with
    | none => []
    | some ty =>
      t.require entry.ty ty (fun f i => .invalidOverride cls member.text (fault f i)) span

/-- What is wrong with the overriding members of a class: the fields first. -/
def fitOverrides (t : Tables) (id : NodeId) (cls : Name) (fields : List Param)
    (methods : List FunDecl) : SemanticErrors :=
  match t.parentLayout? id with
  | none => []
  | some parent =>
    (fields.flatMap fun f => t.fitOverride cls.text f.id f.name f.span parent.fieldType? .field) ++
      methods.flatMap fun m =>
        t.fitOverride cls.text m.id m.name m.span
          (fun slot => (parent.methodType? slot).map (·.ty)) .method

/-- What is wrong with the body of a function, given its type. -/
def fitResult (t : Tables) (routine : Routine) (id : NodeId) (name : Name) (body : Expr) :
    SemanticErrors :=
  match (t.resolutions.declaration? id).bind fun entry => Ty.signature? entry.ty with
  | none => []
  | some sig => t.fit sig.ret (body.type? t) (.result routine name.text) body.span

end Tables

mutual

/-- What is wrong with the types in a declaration. -/
def Decl.typeErrors (t : Tables) : Decl → SemanticErrors
  | .var id name _ init span =>
    init.typeErrors t ++
      match t.resolutions.declaration? id with
      | none => []
      | some entry => t.fit entry.ty (init.type? t) (.init name.text) span
  | .func f => f.typeErrors t .function
  | .cls ⟨id, name, _, fields, methods, _⟩ =>
    t.fitOverrides id name fields methods ++ FunDecl.typeErrorsAll t methods

/-- What is wrong in a function: its local declarations, its body and then its result. -/
def FunDecl.typeErrors (t : Tables) (routine : Routine) : FunDecl → SemanticErrors
  | ⟨id, name, _, _, decls, body, _⟩ =>
    Decl.typeErrorsAll t decls ++ body.typeErrors t ++ t.fitResult routine id name body

def FunDecl.typeErrorsAll (t : Tables) : List FunDecl → SemanticErrors
  | [] => []
  | m :: ms => m.typeErrors t .method ++ FunDecl.typeErrorsAll t ms

def Decl.typeErrorsAll (t : Tables) : List Decl → SemanticErrors
  | [] => []
  | d :: ds => d.typeErrors t ++ Decl.typeErrorsAll t ds

end

end ObjLet
