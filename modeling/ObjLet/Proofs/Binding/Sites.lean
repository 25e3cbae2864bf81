import ObjLet.Proofs.Binding.Uses
import ObjLet.Proofs.Class.Kept

/-!
# Sites

Where the walk has to find out something: at every use of a name, and at every class name in a type that stands
for no class there (`Program.sites`). The walk comes through the text in order, so that the classes that are known
at a mention are those that are declared before it, and finds one thing at every site (`Program.finds_walk`).
-/

namespace ObjLet

/-! ## What there is to be found -/

/-- Whether the problem is one of a use or of a class name in a type. -/
def Problem.isOfUse : Problem → Bool
  | .unknownIdentifier _ | .unknownClass _ | .unknownMethod _ _ | .notAnObject _ => true
  | _ => false

def Finding.isOfUse : Finding → Bool
  | use _ _ | methodCall _ _ => true
  | declaration _ _ => false
  | error e => e.problem.isOfUse

namespace Use

/-- A finding records a use under its node. -/
inductive Records : Use → Finding → Prop where
  | ident (id : NodeId) (name : Name) (use : Resolution) : Records (.ident id name) (.use id use)
  | new (id : NodeId) (cls : Name) (use : Resolution) : Records (.new id cls) (.use id use)
  | methodCall (id : NodeId) (object method : Name) (call : MethodResolution) :
    Records (.methodCall id object method) (.methodCall id call)

/-- An error reports a use that stands for nothing. -/
inductive Reports : Use → SemanticError → Prop where
  | ident (id : NodeId) (name : Name) : Reports (.ident id name) ⟨.unknownIdentifier name.text, name.span⟩
  | new (id : NodeId) (cls : Name) : Reports (.new id cls) ⟨.unknownClass cls.text, cls.span⟩
  | object (id : NodeId) (object method : Name) :
    Reports (.methodCall id object method) ⟨.unknownIdentifier object.text, object.span⟩
  | notAnObject (id : NodeId) (object method : Name) :
    Reports (.methodCall id object method) ⟨.notAnObject object.text, object.span⟩
  | method (id : NodeId) (object method : Name) (cls : String) :
    Reports (.methodCall id object method) ⟨.unknownMethod cls method.text, method.span⟩

/-- A use is recorded or reported. -/
theorem bind_cases (env : Env) (u : Use) :
    u.Records (u.bind env) ∨ ∃ e, u.bind env = .error e ∧ u.Reports e := by
  cases u with
  | ident id name =>
    change Records _ (env.bindName id name) ∨ ∃ e, env.bindName id name = _ ∧ _
    unfold Env.bindName
    split
    · exact .inl (.ident id name _)
    · exact .inr ⟨_, rfl, .ident id name⟩
  | new id cls =>
    change Records _ (env.bindNew id cls) ∨ ∃ e, env.bindNew id cls = _ ∧ _
    unfold Env.bindNew
    split
    · exact .inl (.new id cls _)
    · exact .inr ⟨_, rfl, .new id cls⟩
  | methodCall id object method =>
    change Records _ (env.bindMethodCall id object method) ∨ ∃ e, env.bindMethodCall id object method = _ ∧ _
    unfold Env.bindMethodCall
    split
    · exact .inr ⟨_, rfl, .object id object method⟩
    · split
      · exact .inr ⟨_, rfl, .notAnObject id object method⟩
      · split
        · exact .inr ⟨_, rfl, .method id object method _⟩
        · exact .inl (.methodCall id object method _)

theorem Records.isOfUse {u : Use} {f : Finding} (h : u.Records f) : f.isOfUse := by
  cases h <;> rfl

theorem Records.error? {u : Use} {f : Finding} (h : u.Records f) : f.error? = none := by
  cases h <;> rfl

/-- A record of a use stands under the id of the use. -/
theorem Records.id? {u : Use} {f : Finding} (h : u.Records f) : f.id? = some u.id := by
  cases h <;> rfl

/-- The error that reports a use is one about uses. -/
theorem Reports.isOfUse {u : Use} {e : SemanticError} (h : u.Reports e) : e.problem.isOfUse := by
  cases h <;> rfl

/-- Whatever a use is bound to, the finding is one about a use. -/
theorem isOfUse_bind (env : Env) (u : Use) : (u.bind env).isOfUse := by
  obtain h | ⟨e, heq, h⟩ := u.bind_cases env
  · exact h.isOfUse
  · rw [heq]
    exact h.isOfUse

end Use

/-- A use, or a class name in a type that stands for no class. -/
inductive Site where
  | use (u : Use)
  | unknown (cls : Name)

namespace Site

def use? : Site → Option Use
  | use u => some u
  | unknown _ => none

def unknown? : Site → Option Name
  | use _ => none
  | unknown cls => some cls

/-- What is found at a site. -/
inductive Finds : Site → Finding → Prop where
  | use (env : Env) (u : Use) : Finds (.use u) (u.bind env)
  | unknown (cls : Name) : Finds (.unknown cls) (cls.error (.unknownClass cls.text))

end Site

/-- The sites among mentions, where the classes of some names are known. -/
def Mention.sites (known : List String) : List Mention → List Site
  | [] => []
  | .use u :: ms => .use u :: sites known ms
  | .type c :: ms => if c.text ∈ known then sites known ms else .unknown c :: sites known ms
  | .cls name :: ms => sites (known ++ [name.text]) ms

/-- The sites of a program, where no class is known at first. -/
def Program.sites (p : Program) : List Site := Mention.sites [] p.mentions

/-- The class names in types that stand for no class declared before them. -/
def Program.unknownTypes (p : Program) : List Name := p.sites.filterMap Site.unknown?

namespace Mention

/-- The sites of a longer text: behind the first mentions the classes among them are known as well. -/
theorem sites_append (ms ms' : List Mention) (known : List String) :
    sites known (ms ++ ms') = sites known ms ++ sites (known ++ ms.filterMap declared?) ms' := by
  induction ms generalizing known with
  | nil => rw [List.nil_append, List.filterMap_nil, List.append_nil, sites, List.nil_append]
  | cons m ms ih =>
    cases m with
    | use u =>
      rw [List.cons_append, sites, sites, ih, List.cons_append]
      rfl
    | type c =>
      simp only [List.cons_append, sites, List.filterMap_cons, declared?]
      split
      · exact ih known
      · rw [ih known, List.cons_append]
    | cls name =>
      rw [List.cons_append, sites, sites, ih, List.append_assoc]
      rfl

/-- Every use is a site. -/
theorem filterMap_use?_sites (ms : List Mention) (known : List String) :
    (sites known ms).filterMap Site.use? = ms.filterMap use? := by
  induction ms generalizing known with
  | nil => rfl
  | cons m ms ih =>
    cases m with
    | use u => simp only [sites, List.filterMap_cons, Site.use?, use?, ih]
    | type c =>
      simp only [sites, List.filterMap_cons, use?]
      split
      · exact ih known
      · rw [List.filterMap_cons]
        exact ih known
    | cls name => simp only [sites, List.filterMap_cons, use?, ih]

end Mention

/-- The uses of a program are the uses at its sites. -/
theorem Program.filterMap_use?_sites (p : Program) : p.sites.filterMap Site.use? = p.uses :=
  Mention.filterMap_use?_sites _ _

/-- Every use of a program is a site, and every site of a use belongs to one. -/
theorem Program.mem_uses (p : Program) {u : Use} : u ∈ p.uses ↔ .use u ∈ p.sites := by
  rw [← p.filterMap_use?_sites, List.mem_filterMap]
  constructor
  · rintro ⟨s, hs, hu⟩
    cases s with
    | use u' =>
      cases hu
      exact hs
    | unknown cls => cases hu
  · exact fun h => ⟨_, h, rfl⟩

/-! ## Names of classes -/

namespace ClassTable

/-- The names of the classes of a table. -/
def names (t : ClassTable) : List String := t.classes.map (·.layout.name)

/-- A class is unknown where no class of the table has the name. -/
theorem lookup?_eq_none {t : ClassTable} {name : String} : (t.lookup? name).isNone ↔ name ∉ t.names := by
  simp [lookup?, names]

/-- A new class adds its name behind the others. -/
theorem names_declare (t : ClassTable) (name : String) (sup : Option ClassId) :
    (t.declare name sup).2.names = t.names ++ [name] := by
  have hname : (newClass t.size name (sup.bind t.class?)).layout.name = name := by
    cases sup.bind t.class? <;> rfl
  simp [declare, names, hname]

/-- Members do not change the name of a class. -/
theorem names_modify (t : ClassTable) (id : ClassId) {f : Class → Class}
    (hf : ∀ c, (f c).layout.head = c.layout.head) : (t.modify id f).names = t.names := by
  have hname : ∀ c, (f c).layout.name = c.layout.name := fun c => (ClassLayout.head_eq_iff.1 (hf c)).2.1
  unfold names modify
  apply List.ext_getElem?
  intro i
  simp only [List.getElem?_map, List.getElem?_modify]
  split <;> simp [hname, Function.comp_def]

end ClassTable

namespace ClassBody

/-- A member is added to a class that is there already. -/
theorem names_addMember (b : ClassBody) (f : ClassLayout → ClassLayout) (hf : ∀ l, (f l).head = l.head)
    (id : NodeId) (name : Name) (kind : EntryKind) (ty : Ty) (offset next : Int) :
    ({ b.modifyLayout f with nextField := next }.addMember id name kind ty offset).1.env.classes.names =
      b.env.classes.names := by
  change ((b.env.classes.modifyLayout b.cls f).insertMember b.cls name.text _).names = _
  rw [ClassTable.insertMember, ClassTable.names_modify, ClassTable.modifyLayout, ClassTable.names_modify]
  · exact fun c => hf c.layout
  · exact fun _ => rfl

/-- A field declares no class, whatever becomes of it. -/
theorem names_declareField (b : ClassBody) (f : Param) (ty : Ty) :
    (b.declareField f ty).1.env.classes.names = b.env.classes.names := by
  unfold declareField
  split
  · rfl
  · rfl
  · exact b.names_addMember _ (fun l => by simp) _ _ _ _ _ _
  · exact b.names_addMember _ (fun l => by simp) _ _ _ _ _ _

theorem names_declareMethod (b : ClassBody) (m : FunDecl) (sig : Signature) :
    (b.declareMethod m sig).1.env.classes.names = b.env.classes.names := by
  unfold declareMethod
  split
  · rfl
  · rfl
  · exact b.names_addMember _ (fun l => by simp) _ _ _ _ _ _
  · exact b.names_addMember _ (fun l => by simp) _ _ _ _ _ _

end ClassBody

/-! ## The walk -/

/-- From one class table to another the mentions are accounted for by what is found. -/
structure Accounts (t : ClassTable) (ms : List Mention) (u : ClassTable) (fs : Findings) : Prop where
  names : u.names = t.names ++ ms.filterMap Mention.declared?
  sites : List.Forall₂ Site.Finds (Mention.sites t.names ms) (fs.filter Finding.isOfUse)

namespace Accounts

variable {t u v : ClassTable} {ms ms' : List Mention} {fs gs : Findings}

theorem trans (h : Accounts t ms u fs) (h' : Accounts u ms' v gs) : Accounts t (ms ++ ms') v (fs ++ gs) where
  names := by rw [h'.names, h.names, List.filterMap_append, List.append_assoc]
  sites := by
    rw [Mention.sites_append, List.filter_append, ← h.names]
    exact List.rel_append h.sites h'.sites

/-- Nothing is found for a use where nothing is mentioned. -/
theorem quiet (hnames : u.names = t.names) (hfs : fs.filter Finding.isOfUse = []) : Accounts t [] u fs where
  names := by rw [hnames, List.filterMap_nil, List.append_nil]
  sites := by
    rw [hfs]
    exact .nil

/-- The uses of an expression, all bound in one environment. -/
theorem uses (t : ClassTable) (env : Env) (us : List Use) : Accounts t (us.map .use) t (us.map (·.bind env)) := by
  induction us with
  | nil => exact .quiet rfl rfl
  | cons u us ih =>
    have hu : Accounts t [.use u] t [u.bind env] := by
      refine ⟨(List.append_nil _).symm, ?_⟩
      rw [List.filter_cons_of_pos (u.isOfUse_bind env)]
      exact .cons (.use env u) .nil
    exact hu.trans ih

/-- The class names in types: an error for each that is not known, and nothing for the others. -/
theorem types (t : ClassTable) (cs : List Name) :
    Accounts t (cs.map .type) t
      ((cs.filter fun c => (t.lookup? c.text).isNone).map fun c => c.error (.unknownClass c.text)) := by
  induction cs with
  | nil => exact .quiet rfl rfl
  | cons c cs ih =>
    refine ⟨by simp [Mention.declared?], ?_⟩
    rw [List.map_cons, Mention.sites, List.filter_cons]
    -- A name is a site exactly where the lookup fails, which is where the error is.
    by_cases hc : c.text ∈ t.names
    · rw [if_pos hc, if_neg (fun h => ClassTable.lookup?_eq_none.1 h hc)]
      exact ih.sites
    · rw [if_neg hc, if_pos (ClassTable.lookup?_eq_none.2 hc)]
      exact .cons (.unknown c) ih.sites

/-- The class names in the types of some nodes, of which the walk is at the first. -/
theorem type (t : ClassTable) (ty : TypeExpr) : Accounts t (ty.classNames.map .type) t (ty.findings t) := by
  rw [TypeExpr.findings, TypeExpr.unknownClasses_eq]
  exact types t ty.classNames

/-- The class names in the types of a function. -/
theorem head (t : ClassTable) (f : FunDecl) : Accounts t (f.headNames.map .type) t (f.headFindings t) := by
  rw [FunDecl.headFindings_eq]
  exact types t f.headNames

/-- An expression mentions its uses. -/
theorem expr (env : Env) (e : Expr) : Accounts env.classes (e.uses.map .use) env.classes (e.findings env) := by
  rw [Expr.findings_eq]
  exact uses env.classes env e.uses

/-- To declare a name is to mention nothing. -/
theorem declare (env : Env) (id : NodeId) (name : Name) (entry : Entry) :
    Accounts env.classes [] (env.declare id name entry).1.classes (env.declare id name entry).2 := by
  refine .quiet (by rw [Env.classes_declare]) ?_
  unfold Env.declare
  split <;> rfl

theorem declareLocal (env : Env) (id : NodeId) (name : Name) (kind : EntryKind) (ty : Ty) :
    Accounts env.classes [] (env.declareLocal id name kind ty).1.classes (env.declareLocal id name kind ty).2 :=
  declare { env with nextLocal := env.nextLocal - ty.words } id name _

/-- Parameters, apart from their types, which belong to the head of the function. -/
theorem declareParams (pts : List (Param × Ty)) :
    ∀ (env : Env) (next : Int),
      Accounts env.classes [] (env.declareParams next pts).1.classes (env.declareParams next pts).2 := by
  induction pts with
  | nil => exact fun _ _ => .quiet rfl rfl
  | cons pt pts ih => exact fun env next => (declare env pt.1.id pt.1.name _).trans (ih _ _)

/-- A class is known from its head on. -/
theorem declareClass (env : Env) (id : NodeId) (name : Name) (superclass : Option Name) :
    Accounts env.classes [.cls name] (env.declareClass id name superclass).2.1.classes
      (env.declareClass id name superclass).2.2 := by
  have hsup : (env.superclass name superclass).2.filter Finding.isOfUse = [] := by
    unfold Env.superclass
    repeat' split
    all_goals rfl
  refine ⟨?_, ?_⟩
  · rw [Env.classes_declareClass, ClassTable.names_declare]
    rfl
  · have hdeclared := (declareLocal { env with classes := (env.classes.declare name.text
      (env.superclass name superclass).1).2 } id name .cls (.cls env.classes.size)).sites
    simp only [Env.declareClass, List.filter_append, hsup, List.append_nil]
    split
    · exact hdeclared
    · exact hdeclared

/-- Fields mention the classes in their types. -/
theorem declareFields (fs : List Param) :
    ∀ b : ClassBody, Accounts b.env.classes ((fs.flatMap (·.type.classNames)).map .type)
      (b.declareFields fs).1.env.classes (b.declareFields fs).2 := by
  induction fs with
  | nil => exact fun _ => .quiet rfl rfl
  | cons f fs ih =>
    intro b
    have hfield : Accounts b.env.classes [] (b.declareField f (f.type.resolve b.env.classes)).1.env.classes
        (b.declareField f (f.type.resolve b.env.classes)).2 := by
      refine .quiet (b.names_declareField f _) ?_
      unfold ClassBody.declareField
      split <;> rfl
    rw [List.flatMap_cons, List.map_append]
    have h := (((type b.env.classes f.type).trans hfield).trans (ih _))
    rwa [List.append_nil] at h

theorem declareMethod (b : ClassBody) (m : FunDecl) (sig : Signature) :
    Accounts b.env.classes [] (b.declareMethod m sig).1.env.classes (b.declareMethod m sig).2 := by
  refine .quiet (b.names_declareMethod m sig) ?_
  unfold ClassBody.declareMethod
  split <;> rfl

end Accounts

mutual

/-- A declaration mentions what its head, its fields and its bodies mention, in the order of the text. -/
theorem Decl.accounts (env : Env) :
    (d : Decl) → Accounts env.classes d.mentions (d.bind env).1.classes (d.bind env).2
  | .var id name type init _ => by
    have h := ((Accounts.expr env init).trans (.type env.classes type)).trans
      (.declareLocal env id name .var (type.resolve env.classes))
    rwa [List.append_nil] at h
  | .func f => by
    have h := ((Accounts.head env.classes f).trans
      (.declareLocal env f.id f.name .func (f.signature env.classes).ty)).trans
      (FunDecl.accounts_bindBody _ (f.signature env.classes).params f)
    rwa [List.append_nil, ← List.append_assoc, ← FunDecl.mentions_eq] at h
  -- The class is known from its head on, so its fields and methods may name it.
  | .cls ⟨id, name, superclass, fields, methods, _⟩ => by
    let b := ClassBody.enter (env.declareClass id name superclass).2.1 env.classes.size name.text
    exact ((Accounts.declareClass env id name superclass).trans (.declareFields fields b)).trans
      (ClassBody.accounts_bindMethods _ methods)

/-- A function body mentions what its block does. -/
theorem FunDecl.accounts_bindBody (env : Env) (paramTypes : List Ty) :
    (f : FunDecl) → Accounts env.classes (Decl.mentionsAll f.decls ++ f.body.uses.map .use)
      (f.bindBody env paramTypes).1 (f.bindBody env paramTypes).2
  | ⟨_, _, params, _, decls, body, _⟩ =>
    ((Accounts.declareParams (params.zip paramTypes) env.enterFrame Env.firstParam).trans
      (Decl.accounts_bindAll _ decls)).trans (.expr _ body)

/-- The methods of a class, head and body by turns. -/
theorem ClassBody.accounts_bindMethods (b : ClassBody) :
    (ms : List FunDecl) → Accounts b.env.classes (FunDecl.mentionsAll ms) (b.bindMethods ms).1.env.classes
      (b.bindMethods ms).2
  | [] => .quiet rfl rfl
  | m :: ms => by
    have h := (((Accounts.head b.env.classes m).trans (.declareMethod b m (m.signature b.env.classes))).trans
      (FunDecl.accounts_bindBody _ (m.signature b.env.classes).params m)).trans
      (ClassBody.accounts_bindMethods (b.bindMethod m).1 ms)
    rwa [List.append_nil, ← List.append_assoc, ← FunDecl.mentions_eq] at h

theorem Decl.accounts_bindAll (env : Env) :
    (ds : List Decl) → Accounts env.classes (Decl.mentionsAll ds) (Decl.bindAll env ds).1.classes
      (Decl.bindAll env ds).2
  | [] => .quiet rfl rfl
  | d :: ds => (Decl.accounts env d).trans (Decl.accounts_bindAll _ ds)

end

/-- What is found for uses and class names in types is found at the sites of the program, one for each. -/
theorem Program.finds_walk (p : Program) :
    List.Forall₂ Site.Finds p.sites (p.walk.2.filter Finding.isOfUse) :=
  ((Decl.accounts_bindAll .initial p.decls).trans (.expr _ p.body)).sites

end ObjLet
