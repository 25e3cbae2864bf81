import ObjLet.Proofs.Typing.Fits
import ObjLet.Typing.Program

/-!
# Expressions without errors

`Expr.Checked` says that binding found no error in an expression, that the tables hold what it found,
and that checking found no error either. For each kind of expression one lemma says what follows for its
names and its parts. A checked expression has a type (`Expr.Checked.exists_type`), so nothing passes only
because the type of a part could not be told.
-/

namespace ObjLet

/-- Induction on expressions, with a hypothesis for every argument. -/
@[elab_as_elim]
theorem Expr.induction {P : Expr → Prop}
    (literal : ∀ value span, P (.literal value span))
    (ident : ∀ id name, P (.ident id name))
    (call : ∀ id callee args span, (∀ a ∈ args, P a) → P (.call id callee args span))
    (new : ∀ id cls args span, (∀ a ∈ args, P a) → P (.new id cls args span))
    (methodCall : ∀ id object method args span, (∀ a ∈ args, P a) →
      P (.methodCall id object method args span))
    (binary : ∀ op left right span, P left → P right → P (.binary op left right span))
    (unary : ∀ op operand span, P operand → P (.unary op operand span))
    (cond : ∀ condition thenExpr elseExpr span, P condition → P thenExpr → P elseExpr →
      P (.cond condition thenExpr elseExpr span))
    (print : ∀ value span, P value → P (.print value span)) (e : Expr) : P e :=
  @Expr.rec P (fun es => ∀ a ∈ es, P a) literal ident call new methodCall binary unary cond print
    nofun (fun _ _ he hes => List.forall_mem_cons.2 ⟨he, hes⟩) e

namespace Tables

variable {t : Tables}

theorem require_eq_nil {sub sup : Ty} {problem : TypeName → TypeName → Problem} {span : Span} :
    t.require sub sup problem span = [] ↔ t.classes.isSubtype sub sup := by
  unfold require
  split <;> simp_all

theorem fit_eq_nil {expected : Ty} {found : Option Ty} {mismatch : TypeName → TypeName → Mismatch}
    {span : Span} :
    t.fit expected found mismatch span = [] ↔
      ∀ ty, found = some ty → t.classes.isSubtype ty expected := by
  cases found <;> simp [fit, require_eq_nil]

/-- Arguments are right if there are as many as parameters and every argument fits its parameter. -/
theorem fitArgs_eq_nil {callee : String} {params : List Ty} {args : List (Option Ty)} {span : Span} :
    t.fitArgs callee params args span = [] ↔
      List.Forall₂ (fun arg param => ∀ ty, arg = some ty → t.classes.isSubtype ty param)
        args params := by
  unfold fitArgs
  split
  · next hlen =>
    -- Positions count up along the arguments, so the induction is over lists that begin anywhere.
    generalize 0 = k
    induction params generalizing args k with
    | nil =>
      cases args with
      | nil => simp
      | cons a as => simp at hlen
    | cons p ps ih =>
      cases args with
      | nil => simp at hlen
      | cons a as =>
        have := @ih as (by simpa using hlen) (k + 1)
        simp [List.zipIdx_cons, fit_eq_nil, this]
  · next hlen =>
    refine iff_of_false (by simp) fun h => hlen ?_
    exact h.length_eq.symm

end Tables

namespace Expr

variable {t : Tables} {env : Env}

/-- Binding and checking find no error in an expression, and the tables hold its findings. -/
structure Checked (t : Tables) (env : Env) (e : Expr) : Prop where
  recorded : Findings.Recorded t.resolutions (e.findings env)
  clean : e.typeErrors t = []

/-- A list of arguments is clean if each of them is; they are all bound in the same environment, since
expressions declare nothing. -/
theorem checkedAll_iff {es : List Expr} :
    (Findings.Recorded t.resolutions (findingsAll env es) ∧ typeErrorsAll t es = []) ↔
      ∀ e ∈ es, e.Checked t env := by
  induction es with
  | nil => simp [findingsAll, typeErrorsAll]
  | cons e es ih =>
    simp only [findingsAll, typeErrorsAll, Findings.recorded_append, List.append_eq_nil_iff,
      List.forall_mem_cons, ← ih]
    constructor
    · rintro ⟨⟨h₁, h₂⟩, h₃, h₄⟩
      exact ⟨⟨h₁, h₃⟩, h₂, h₄⟩
    · rintro ⟨⟨h₁, h₃⟩, h₂, h₄⟩
      exact ⟨⟨h₁, h₂⟩, h₃, h₄⟩

/-- What a recorded use was bound to. -/
theorem holds_bindName {r : Resolutions} {id : NodeId} {name : Name}
    (h : r.Holds (env.bindName id name)) :
    ∃ e, env.scopes.lookup? name.text = some e ∧ r.use? id = some ⟨e, env.level⟩ := by
  unfold Env.bindName at h
  split at h
  · next e he => exact ⟨e, he, h⟩
  · exact h.elim

theorem holds_bindNew {r : Resolutions} {id : NodeId} {cls : Name}
    (h : r.Holds (env.bindNew id cls)) :
    ∃ e, env.scopes.lookupClass? cls.text = some e ∧ r.use? id = some ⟨e, env.level⟩ := by
  unfold Env.bindNew at h
  split at h
  · next e he => exact ⟨e, he, h⟩
  · exact h.elim

/-- What was recorded of a method call: the object is of a class, and that class has a method of this name. -/
theorem holds_bindMethodCall {r : Resolutions} {id : NodeId} {object method : Name}
    (h : r.Holds (env.bindMethodCall id object method)) :
    ∃ e c m, env.scopes.lookup? object.text = some e ∧ e.ty = .ref c ∧
      env.classes.member? c method.text = some m ∧ m.kind = .method ∧
      r.methodCall? id = some ⟨⟨e, env.level⟩, m, c⟩ := by
  unfold Env.bindMethodCall at h
  split at h
  · exact h.elim
  next e he =>
  split at h
  · exact h.elim
  next c hc =>
  split at h
  · exact h.elim
  next m hm =>
  -- A member that is a field is no method, so the filter says something.
  rw [Option.filter_eq_some_iff] at hm
  refine ⟨e, c, m, he, ?_, hm.1, by simpa using hm.2, h⟩
  cases hty : e.ty <;> simp_all [TyOf.class?]

/-- A name in a clean expression stands for a value and not for a class. -/
theorem Checked.ident {id : NodeId} {name : Name} (h : (Expr.ident id name).Checked t env) :
    ∃ e, env.scopes.lookup? name.text = some e ∧ t.resolutions.use? id = some ⟨e, env.level⟩ ∧
      e.kind.isValue = true := by
  obtain ⟨hrec, hclean⟩ := h
  obtain ⟨e, he, huse⟩ := holds_bindName (Findings.recorded_cons.1 hrec).1
  refine ⟨e, he, huse, ?_⟩
  simpa [typeErrors, huse] using hclean

/-- The types of arguments are below those of parameters. -/
def ArgsFit (t : Tables) (args : List Expr) (params : List Ty) : Prop :=
  List.Forall₂ (fun a p => ∀ ty, a.type? t = some ty → t.classes.isSubtype ty p) args params

theorem argsFit_iff {callee : String} {params : List Ty} {args : List Expr} {span : Span} :
    t.fitArgs callee params (args.map (type? t)) span = [] ↔ ArgsFit t args params := by
  rw [Tables.fitArgs_eq_nil, List.forall₂_map_left_iff]
  rfl

/-- What is called in a clean expression has the type of a function, and the arguments fit its parameters. -/
theorem Checked.call {id : NodeId} {callee : Name} {args : List Expr} {span : Span}
    (h : (Expr.call id callee args span).Checked t env) :
    ∃ e sig, env.scopes.lookup? callee.text = some e ∧
      t.resolutions.use? id = some ⟨e, env.level⟩ ∧ e.ty = Signature.ty sig ∧
      (∀ a ∈ args, a.Checked t env) ∧ ArgsFit t args sig.params := by
  obtain ⟨hrec, hclean⟩ := h
  rw [findings, Findings.recorded_cons] at hrec
  obtain ⟨e, he, huse⟩ := holds_bindName hrec.1
  rw [typeErrors, List.append_eq_nil_iff, huse] at hclean
  obtain ⟨hargs, hfit⟩ := hclean
  dsimp only at hfit
  split at hfit
  · next sig hsig =>
    exact ⟨e, sig, he, huse, Ty.signature?_eq_some.1 hsig, checkedAll_iff.1 ⟨hrec.2, hargs⟩,
      argsFit_iff.1 hfit⟩
  · cases hfit

/-- A class of which an object is made is in the table, and the arguments fit all fields of it, inherited ones
too. -/
theorem Checked.new {id : NodeId} {cls : Name} {args : List Expr} {span : Span}
    (hf : env.Fits t) (h : (Expr.new id cls args span).Checked t env) :
    ∃ e c l, env.scopes.lookupClass? cls.text = some e ∧
      t.resolutions.use? id = some ⟨e, env.level⟩ ∧ e.declaredClass? = some c ∧
      t.classes.layout? c = some l ∧ (∀ a ∈ args, a.Checked t env) ∧ ArgsFit t args l.fields := by
  obtain ⟨hrec, hclean⟩ := h
  rw [findings, Findings.recorded_append, Findings.recorded_cons] at hrec
  obtain ⟨e, he, huse⟩ := holds_bindNew hrec.2.1
  obtain ⟨c, l, hc, -, hl⟩ := hf.lookupClass? he
  have hnew : t.newClass? id = some l := by simp [Tables.newClass?, huse, hc, hl]
  rw [typeErrors, List.append_eq_nil_iff, hnew] at hclean
  exact ⟨e, c, l, he, huse, hc, hl, checkedAll_iff.1 ⟨hrec.1, hclean.1⟩, argsFit_iff.1 hclean.2⟩

/-- A method that is called is a member of the class of the object, and the arguments fit its parameters. -/
theorem Checked.methodCall {id : NodeId} {object method : Name} {args : List Expr} {span : Span}
    (hf : env.Fits t) (h : (Expr.methodCall id object method args span).Checked t env) :
    ∃ e c m sig, env.scopes.lookup? object.text = some e ∧ e.ty = .ref c ∧
      env.classes.member? c method.text = some m ∧ m.kind = .method ∧ m.ty = Signature.ty sig ∧
      t.resolutions.methodCall? id = some ⟨⟨e, env.level⟩, m, c⟩ ∧
      (∀ a ∈ args, a.Checked t env) ∧ ArgsFit t args sig.params := by
  obtain ⟨hrec, hclean⟩ := h
  rw [findings, Findings.recorded_append, Findings.recorded_cons] at hrec
  obtain ⟨e, c, m, he, hc, hm, hk, hcall⟩ := holds_bindMethodCall hrec.2.1
  -- That the member has a signature is not checked again; it follows from how members are declared.
  have hfits : m.Fits t.classes := by
    simp only [ClassTable.member?, ClassTable.members?, Option.bind_eq_some_iff,
      Option.map_eq_some_iff] at hm
    obtain ⟨_, ⟨cls, hcls, rfl⟩, hm⟩ := hm
    exact hf.member hcls hm
  obtain ⟨sig, hsig⟩ := hfits.callable (.inr hk)
  have hms : t.methodSignature? id = some sig := by
    simp [Tables.methodSignature?, hcall, hsig]
  rw [typeErrors, List.append_eq_nil_iff, hms] at hclean
  exact ⟨e, c, m, sig, he, hc, hm, hk, hsig, hcall, checkedAll_iff.1 ⟨hrec.1, hclean.1⟩,
    argsFit_iff.1 hclean.2⟩

theorem Checked.binary {op : BinaryOp} {left right : Expr} {span : Span}
    (h : (Expr.binary op left right span).Checked t env) :
    left.Checked t env ∧ right.Checked t env ∧
      t.fitOperands op (left.type? t) (right.type? t) span = [] := by
  obtain ⟨hrec, hclean⟩ := h
  rw [findings, Findings.recorded_append] at hrec
  simp only [typeErrors, List.append_eq_nil_iff] at hclean
  exact ⟨⟨hrec.1, hclean.1.1⟩, ⟨hrec.2, hclean.1.2⟩, hclean.2⟩

theorem Checked.unary {op : UnaryOp} {operand : Expr} {span : Span}
    (h : (Expr.unary op operand span).Checked t env) :
    operand.Checked t env ∧
      ∀ ty, operand.type? t = some ty → t.classes.isSubtype ty .bool := by
  obtain ⟨hrec, hclean⟩ := h
  simp only [typeErrors, List.append_eq_nil_iff] at hclean
  exact ⟨⟨hrec, hclean.1⟩, Tables.fit_eq_nil.1 hclean.2⟩

/-- A condition fits `bool`, and the types of the branches, where both have one, can be joined. -/
theorem Checked.cond {condition thenExpr elseExpr : Expr} {span : Span}
    (h : (Expr.cond condition thenExpr elseExpr span).Checked t env) :
    condition.Checked t env ∧ thenExpr.Checked t env ∧ elseExpr.Checked t env ∧
      (∀ ty, condition.type? t = some ty → t.classes.isSubtype ty .bool) ∧
      t.fitBranches (thenExpr.type? t) (elseExpr.type? t) span = [] := by
  obtain ⟨hrec, hclean⟩ := h
  simp only [findings, Findings.recorded_append] at hrec
  simp only [typeErrors, List.append_eq_nil_iff] at hclean
  obtain ⟨⟨⟨⟨hc, hfit⟩, ht⟩, he⟩, hb⟩ := hclean
  exact ⟨⟨hrec.1.1, hc⟩, ⟨hrec.1.2, ht⟩, ⟨hrec.2, he⟩, Tables.fit_eq_nil.1 hfit, hb⟩

theorem Checked.print {value : Expr} {span : Span} (h : (Expr.print value span).Checked t env) :
    value.Checked t env := ⟨h.recorded, h.clean⟩

end Expr

/-- What is recorded in an environment for a `new` is a class of the class table, and what is recorded for a method
call has a signature. -/
structure Env.Tells (t : Tables) (env : Env) : Prop where
  new : ∀ {id : NodeId} {cls : Name}, t.resolutions.Holds (env.bindNew id cls) →
    ∃ use c l, t.resolutions.use? id = some use ∧ use.entry.declaredClass? = some c ∧ t.classes.layout? c = some l
  methodCall : ∀ {id : NodeId} {object method : Name}, t.resolutions.Holds (env.bindMethodCall id object method) →
    ∃ call sig, t.resolutions.methodCall? id = some call ∧ call.method.ty = Signature.ty sig

theorem Env.Fits.tells {t : Tables} {env : Env} (hf : env.Fits t) : env.Tells t where
  new h := by
    obtain ⟨e, he, huse⟩ := Expr.holds_bindNew h
    obtain ⟨c, l, hc, -, hl⟩ := hf.lookupClass? he
    exact ⟨_, c, l, huse, hc, hl⟩
  methodCall h := by
    obtain ⟨e, c, m, -, -, hm, hk, hcall⟩ := Expr.holds_bindMethodCall h
    obtain ⟨members, hmembers, hm⟩ := Option.bind_eq_some_iff.1 hm
    obtain ⟨cls, hcls, rfl⟩ := Option.map_eq_some_iff.1 hmembers
    obtain ⟨sig, hsig⟩ := (hf.member hcls hm).callable (.inr hk)
    exact ⟨_, sig, hcall, hsig⟩

namespace Expr

variable {t : Tables} {env : Env}

/-- The type of a checked expression is told. -/
theorem Checked.told (ht : env.Tells t) {e : Expr} (h : e.Checked t env) : ∃ ty, e.type? t = some ty := by
  induction e using Expr.induction with
  | literal value span => exact ⟨value.type, rfl⟩
  | ident id name =>
    obtain ⟨e, -, huse, hk⟩ := h.ident
    exact ⟨e.ty, by simp [type?, huse, hk]⟩
  | call id callee args span _ =>
    obtain ⟨e, sig, -, huse, hty, -, -⟩ := h.call
    exact ⟨sig.ret, by simp [type?, huse, hty]⟩
  | new id cls args span _ =>
    have hrec := h.recorded
    rw [findings, Findings.recorded_append, Findings.recorded_cons] at hrec
    obtain ⟨use, c, l, huse, hc, hl⟩ := ht.new hrec.2.1
    exact ⟨.ref c, by simp [type?, huse, hc, hl]⟩
  | methodCall id object method args span _ =>
    have hrec := h.recorded
    rw [findings, Findings.recorded_append, Findings.recorded_cons] at hrec
    obtain ⟨call, sig, hcall, hsig⟩ := ht.methodCall hrec.2.1
    exact ⟨sig.ret, by simp [type?, Tables.methodSignature?, hcall, hsig]⟩
  | binary op left right span _ _ => exact ⟨op.resultType, rfl⟩
  | unary op operand span _ => cases op; exact ⟨.bool, rfl⟩
  | cond condition thenExpr elseExpr span _ iht ihe =>
    obtain ⟨-, ht, he, -, hb⟩ := h.cond
    obtain ⟨a, ha⟩ := iht ht
    obtain ⟨b, hb'⟩ := ihe he
    simp only [Tables.fitBranches, ha, hb'] at hb
    split at hb
    · next hj =>
      obtain ⟨c, hc⟩ := Option.isSome_iff_exists.1 hj
      exact ⟨c, by simp [type?, ha, hb', hc]⟩
    · cases hb
  | print value span ih => exact ih h.print

/-- A checked expression has a type. -/
theorem Checked.exists_type (hf : env.Fits t) {e : Expr} (h : e.Checked t env) :
    ∃ ty, e.type? t = some ty := h.told hf.tells

end Expr

end ObjLet
