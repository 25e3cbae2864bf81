import ObjLet.Binding.Program

/-!
# What the tables hold

The tables of a program are filled from its findings, a later record replacing an earlier one under the
same id. Where the ids of a tree are distinct nothing is replaced: if binding finds no error, the tables
hold every finding (`Program.recorded`). Later stages look nodes up by id; this is how they get back to
what the walk found at the node.
-/

namespace ObjLet

/-! ## Node ids -/

mutual

/-- The ids in an expression, in the order in which their nodes are bound. -/
def Expr.ids : Expr → List NodeId
  | .literal _ _ => []
  | .ident id _ => [id]
  | .call id _ args _ => id :: Expr.idsAll args
  | .new id _ args _ | .methodCall id _ _ args _ => Expr.idsAll args ++ [id]
  | .binary _ left right _ => left.ids ++ right.ids
  | .unary _ operand _ => operand.ids
  | .cond condition thenExpr elseExpr _ => condition.ids ++ thenExpr.ids ++ elseExpr.ids
  | .print value _ => value.ids

def Expr.idsAll : List Expr → List NodeId
  | [] => []
  | e :: es => e.ids ++ Expr.idsAll es

end

mutual

/-- The ids in a declaration, in the order in which their nodes are bound. -/
def Decl.ids : Decl → List NodeId
  | .var id _ _ init _ => init.ids ++ [id]
  | .func f => f.ids
  | .cls ⟨id, _, _, fields, methods, _⟩ => id :: fields.map (·.id) ++ FunDecl.idsAll methods

def FunDecl.ids : FunDecl → List NodeId
  | ⟨id, _, params, _, decls, body, _⟩ =>
    id :: params.map (·.id) ++ Decl.idsAll decls ++ body.ids

def FunDecl.idsAll : List FunDecl → List NodeId
  | [] => []
  | m :: ms => m.ids ++ FunDecl.idsAll ms

def Decl.idsAll : List Decl → List NodeId
  | [] => []
  | d :: ds => d.ids ++ Decl.idsAll ds

end

/-- The ids of all declarations and uses of a program. -/
def Program.ids (p : Program) : List NodeId := Decl.idsAll p.decls ++ p.body.ids

/-! ## Records -/

/-- The id that a finding is recorded under. -/
def Finding.id? : Finding → Option NodeId
  | use id _ | methodCall id _ | declaration id _ => some id
  | error _ => none

/-- The finding is no error and the tables hold it. -/
def Resolutions.Holds (r : Resolutions) : Finding → Prop
  | .use id use => r.use? id = some use
  | .methodCall id call => r.methodCall? id = some call
  | .declaration id entry => r.declaration? id = some entry
  | .error _ => False

namespace Findings

def ids (fs : Findings) : List NodeId := fs.filterMap Finding.id?

/-- None of the findings is an error, and the tables hold all of them. -/
def Recorded (r : Resolutions) (fs : Findings) : Prop := ∀ f ∈ fs, r.Holds f

variable {r : Resolutions} {fs gs : Findings}

@[simp] theorem ids_append : ids (fs ++ gs) = ids fs ++ ids gs := List.filterMap_append

@[simp] theorem recorded_nil : Recorded r [] := nofun

@[simp] theorem recorded_cons {f : Finding} :
    Recorded r (f :: fs) ↔ r.Holds f ∧ Recorded r fs := List.forall_mem_cons

@[simp] theorem recorded_append : Recorded r (fs ++ gs) ↔ Recorded r fs ∧ Recorded r gs :=
  List.forall_mem_append

/-- Recording under one id does not touch what is held under another. -/
theorem holds_record {f g : Finding} (h : r.Holds f) (hid : ∀ id, f.id? = some id → g.id? ≠ some id) :
    (r.record g).Holds f := by
  cases f with
  | error e => exact h.elim
  | use id use =>
    cases g with
    | use id' use' =>
      have hne : id' ≠ id := fun heq => hid id rfl (congrArg some heq)
      simpa [Resolutions.Holds, Resolutions.record, hne] using h
    | _ => exact h
  | methodCall id call =>
    cases g with
    | methodCall id' call' =>
      have hne : id' ≠ id := fun heq => hid id rfl (congrArg some heq)
      simpa [Resolutions.Holds, Resolutions.record, hne] using h
    | _ => exact h
  | declaration id entry =>
    cases g with
    | declaration id' entry' =>
      have hne : id' ≠ id := fun heq => hid id rfl (congrArg some heq)
      simpa [Resolutions.Holds, Resolutions.record, hne] using h
    | _ => exact h

/-- Findings under other ids replace nothing. -/
theorem holds_foldl {f : Finding} (fs : Findings) :
    ∀ {r : Resolutions}, r.Holds f → (∀ id, f.id? = some id → id ∉ ids fs) →
      (fs.foldl Resolutions.record r).Holds f := by
  induction fs with
  | nil => exact fun h _ => h
  | cons g fs ih =>
    intro r h hid
    refine ih (holds_record h fun id hf hg => hid id hf ?_) fun id hf hm => hid id hf ?_
    · simp [ids, hg]
    · simp only [ids, List.filterMap_cons]
      split
      · exact hm
      · exact List.mem_cons_of_mem _ hm

/-- Findings without errors and with distinct ids are all in the tables once they are recorded. -/
theorem recorded_foldl (fs : Findings) (hid : (ids fs).Nodup) (herr : errors fs = []) :
    ∀ r : Resolutions, Recorded (fs.foldl Resolutions.record r) fs := by
  induction fs with
  | nil => exact fun _ => recorded_nil
  -- The first finding is recorded at once and stays, because the ids behind it are others.
  | cons f fs ih =>
    intro r
    have herrs : errors fs = [] := by
      simp only [errors, List.filterMap_eq_nil_iff] at herr ⊢
      exact fun g hg => herr g (List.mem_cons_of_mem _ hg)
    have hids : (ids fs).Nodup ∧ ∀ id, f.id? = some id → id ∉ ids fs := by
      cases hf : f.id? with
      | none => exact ⟨by simpa [ids, List.filterMap_cons, hf] using hid, nofun⟩
      | some id =>
        have : (id :: ids fs).Nodup := by simpa [ids, List.filterMap_cons, hf] using hid
        rw [List.nodup_cons] at this
        exact ⟨this.2, fun _ h => Option.some.inj h ▸ this.1⟩
    refine recorded_cons.2 ⟨holds_foldl fs ?_ hids.2, ih hids.1 herrs _⟩
    cases f with
    | error e => simp [errors, Finding.error?] at herr
    | _ => simp [Resolutions.Holds, Resolutions.record]

end Findings

/-! ## The findings of a tree are recorded under the ids of the tree -/

open Findings
open scoped List

@[simp] theorem ids_nil : Findings.ids [] = [] := rfl

@[simp] theorem ids_error (n : Name) (problem : Problem) : Findings.ids [n.error problem] = [] := rfl

/-- What an identifier is bound to is recorded under its id, if at all. -/
theorem Env.ids_bindName (env : Env) (id : NodeId) (name : Name) :
    Findings.ids [env.bindName id name] <+ [id] := by
  unfold Env.bindName
  split <;> simp [Findings.ids, Finding.id?, Name.error]

/-- What an object creation is bound to is recorded under its id, if at all. -/
theorem Env.ids_bindNew (env : Env) (id : NodeId) (cls : Name) :
    Findings.ids [env.bindNew id cls] <+ [id] := by
  unfold Env.bindNew
  split <;> simp [Findings.ids, Finding.id?, Name.error]

/-- What a method call is bound to is recorded under its id, if at all. -/
theorem Env.ids_bindMethodCall (env : Env) (id : NodeId) (object method : Name) :
    Findings.ids [env.bindMethodCall id object method] <+ [id] := by
  unfold Env.bindMethodCall
  repeat' split
  all_goals simp [Findings.ids, Finding.id?, Name.error]

mutual

/-- What is found in an expression, under ids in it, in the order of the text. -/
theorem Expr.ids_findings (env : Env) : (e : Expr) → Findings.ids (e.findings env) <+ e.ids
  | .literal _ _ => List.Sublist.refl []
  | .ident id name => env.ids_bindName id name
  | .call id callee args _ => by
    rw [Expr.findings, ← List.singleton_append, ids_append]
    exact (env.ids_bindName id callee).append (Expr.ids_findingsAll env args)
  | .new id cls args _ => by
    rw [Expr.findings, ids_append]
    exact (Expr.ids_findingsAll env args).append (env.ids_bindNew id cls)
  | .methodCall id object method args _ => by
    rw [Expr.findings, ids_append]
    exact (Expr.ids_findingsAll env args).append (env.ids_bindMethodCall id object method)
  | .binary _ left right _ => by
    rw [Expr.findings, ids_append]
    exact (Expr.ids_findings env left).append (Expr.ids_findings env right)
  | .unary _ operand _ => Expr.ids_findings env operand
  | .cond condition thenExpr elseExpr _ => by
    rw [Expr.findings, ids_append, ids_append]
    exact ((Expr.ids_findings env condition).append (Expr.ids_findings env thenExpr)).append
      (Expr.ids_findings env elseExpr)
  | .print value _ => Expr.ids_findings env value

theorem Expr.ids_findingsAll (env : Env) :
    (es : List Expr) → Findings.ids (Expr.findingsAll env es) <+ Expr.idsAll es
  | [] => List.Sublist.refl []
  | e :: es => by
    rw [Expr.findingsAll, ids_append]
    exact (Expr.ids_findings env e).append (Expr.ids_findingsAll env es)

end

@[simp] theorem TypeExpr.ids_findings (t : ClassTable) (ty : TypeExpr) :
    Findings.ids (ty.findings t) = [] := by
  simp [TypeExpr.findings, Findings.ids, Name.error, Finding.id?]

@[simp] theorem FunDecl.ids_headFindings (t : ClassTable) (f : FunDecl) :
    Findings.ids (f.headFindings t) = [] := by
  rw [FunDecl.headFindings, ids_append, TypeExpr.ids_findings, List.append_nil]
  induction f.params with
  | nil => rfl
  | cons p ps ih => rw [List.flatMap_cons, ids_append, TypeExpr.ids_findings, ih]; rfl

@[simp] theorem Env.ids_declare (env : Env) (id : NodeId) (name : Name) (entry : Entry) :
    Findings.ids (env.declare id name entry).2 = [id] := by
  unfold Env.declare
  split <;> simp [Findings.ids, Finding.id?, Name.error]

@[simp] theorem Env.ids_declareLocal (env : Env) (id : NodeId) (name : Name) (kind : EntryKind)
    (ty : Ty) : Findings.ids (env.declareLocal id name kind ty).2 = [id] :=
  Env.ids_declare _ _ _ _

/-- Every parameter is found under its id. -/
theorem Env.ids_declareParams (ps : List (Param × Ty)) :
    ∀ (env : Env) (next : Int), Findings.ids (env.declareParams next ps).2 = ps.map (·.1.id) := by
  induction ps with
  | nil => exact fun _ _ => rfl
  | cons p ps ih =>
    intro env next
    rw [Env.declareParams, ids_append, Env.ids_declare, ih]
    rfl

/-- Pairing drops what has no partner. -/
theorem map_fst_zip_sublist {α β : Type} : (as : List α) → (bs : List β) →
    (as.zip bs).map Prod.fst <+ as
  | [], _ => List.nil_sublist _
  | _ :: _, [] => List.nil_sublist _
  | a :: as, _ :: bs => (map_fst_zip_sublist as bs).cons_cons a

/-- A class is found under its id. -/
theorem Env.ids_declareClass (env : Env) (id : NodeId) (name : Name) (superclass : Option Name) :
    Findings.ids (env.declareClass id name superclass).2.2 = [id] := by
  have hsup : Findings.ids (env.superclass name superclass).2 = [] := by
    unfold Env.superclass
    repeat' split
    all_goals rfl
  simp only [Env.declareClass, ids_append, Env.ids_declareLocal, hsup]
  split <;> rfl

namespace ClassBody

theorem ids_declareField (b : ClassBody) (f : Param) (ty : Ty) :
    Findings.ids (b.declareField f ty).2 <+ [f.id] := by
  unfold declareField
  split
  · exact List.nil_sublist _
  · exact List.nil_sublist _
  · exact List.Sublist.refl _
  · exact List.Sublist.refl _

theorem ids_declareMethod (b : ClassBody) (m : FunDecl) (sig : Signature) :
    Findings.ids (b.declareMethod m sig).2 <+ [m.id] := by
  unfold declareMethod
  split
  · exact List.nil_sublist _
  · exact List.nil_sublist _
  · exact List.Sublist.refl _
  · exact List.Sublist.refl _

/-- Fields are found under their ids, if they are declared. -/
theorem ids_declareFields (fs : List Param) :
    ∀ b : ClassBody, Findings.ids (b.declareFields fs).2 <+ fs.map (·.id) := by
  induction fs with
  | nil => exact fun _ => List.Sublist.refl []
  | cons f fs ih =>
    intro b
    simp only [declareFields, ids_append, TypeExpr.ids_findings, List.nil_append, List.map_cons]
    exact (b.ids_declareField f _).append (ih _)

end ClassBody

/-- The id of a function comes first. -/
theorem FunDecl.ids_eq_cons (f : FunDecl) : f.ids = f.id :: f.ids.tail := by
  cases f; rfl

mutual

/-- What is found in a declaration, under ids in it, in the order of the text. -/
theorem Decl.ids_bind (env : Env) : (d : Decl) → Findings.ids (d.bind env).2 <+ d.ids
  | .var id name type init _ => by
    simp only [Decl.bind, ids_append, TypeExpr.ids_findings, List.append_nil, Decl.ids]
    exact (init.ids_findings env).append (by simp)
  | .func f => by
    simp only [Decl.bind, ids_append, FunDecl.ids_headFindings, List.nil_append, Decl.ids,
      Env.ids_declareLocal, List.singleton_append]
    rw [FunDecl.ids_eq_cons]
    exact (FunDecl.ids_bindBody _ _ f).cons_cons _
  | .cls ⟨id, name, superclass, fields, methods, _⟩ => by
    simp only [Decl.bind, ids_append, Decl.ids, Env.ids_declareClass]
    exact ((List.Sublist.refl [id]).append (ClassBody.ids_declareFields fields _)).append
      (ClassBody.ids_bindMethods _ methods)

/-- What is found inside a function. The id of the function itself is not among them, since its declaration
belongs to the scope around it. -/
theorem FunDecl.ids_bindBody (env : Env) (paramTypes : List Ty) :
    (f : FunDecl) → Findings.ids (f.bindBody env paramTypes).2 <+ f.ids.tail
  | ⟨_, _, params, _, decls, body, _⟩ => by
    simp only [FunDecl.bindBody, ids_append, FunDecl.ids, List.tail_cons, Env.ids_declareParams,
      List.cons_append]
    refine (List.Sublist.append ?_ (Decl.ids_bindAll _ decls)).append (body.ids_findings _)
    rw [show (fun x : Param × Ty => x.1.id) = (·.id) ∘ Prod.fst from rfl, ← List.map_map]
    exact List.Sublist.map _ (map_fst_zip_sublist params paramTypes)

theorem ClassBody.ids_bindMethods (b : ClassBody) :
    (ms : List FunDecl) → Findings.ids (b.bindMethods ms).2 <+ FunDecl.idsAll ms
  | [] => List.Sublist.refl []
  | m :: ms => by
    simp only [ClassBody.bindMethods, ids_append, FunDecl.ids_headFindings, List.nil_append,
      FunDecl.idsAll]
    refine List.Sublist.append ?_ (ClassBody.ids_bindMethods _ ms)
    rw [FunDecl.ids_eq_cons, ← List.singleton_append]
    exact (b.ids_declareMethod m _).append (FunDecl.ids_bindBody _ _ m)

theorem Decl.ids_bindAll (env : Env) :
    (ds : List Decl) → Findings.ids (Decl.bindAll env ds).2 <+ Decl.idsAll ds
  | [] => List.Sublist.refl []
  | d :: ds => by
    simp only [Decl.bindAll, ids_append, Decl.idsAll]
    exact (Decl.ids_bind env d).append (Decl.ids_bindAll _ ds)

end

/-- What is found in a program, under the ids of its nodes. -/
theorem Program.ids_walk (p : Program) : Findings.ids p.walk.2 <+ p.ids := by
  simp only [Program.walk, ids_append, Program.ids]
  exact (Decl.ids_bindAll _ p.decls).append (p.body.ids_findings _)

/-- Where the ids of a program are distinct and its binding is clean, its tables hold everything that
the walk found. -/
theorem Program.recorded {p : Program} (hid : p.ids.Nodup) (herr : p.bind.errors = []) :
    Recorded p.bind.tables.resolutions p.walk.2 :=
  recorded_foldl _ (hid.sublist p.ids_walk) herr _

end ObjLet
