import ObjLet.Proofs.Binding.Shaped
import ObjLet.Proofs.Renaming.Typing

/-!
# Told types

An expression without a type passes every comparison, so that one mistake is reported once. This is safe because
something is wrong in every such expression, as long as binding is clean (`Program.Stands.reported`). The types that
are told are types of values (`Expr.isValue_type`), besides mentioning known classes only (`Expr.known_type`).

While there are errors about types, the environments of a program do not fit its tables. What is needed here follows
from the shapes of the entries that the tables hold (`Tables.Shaped.tells`).
-/

namespace ObjLet

open Findings

variable {t : Tables} {p : Program}

/-- What is recorded for uses has the shape of its kind. -/
structure Tables.Shaped (t : Tables) : Prop where
  uses : ∀ id use, t.resolutions.use? id = some use → use.entry.Shaped
  methodCalls : ∀ id call, t.resolutions.methodCall? id = some call →
    call.method.Shaped ∧ call.method.kind = .method

theorem Program.shaped_tables (p : Program) : p.bind.tables.Shaped where
  uses id use h := p.shaped_of_holds (f := .use id use) h
  methodCalls id call h := p.shaped_of_holds (f := .methodCall id call) h

/-! ## Types of values -/

theorem Entry.Shaped.isValue_signature {e : Entry} (h : e.Shaped) {sig : Signature} (hsig : e.ty = sig.ty) :
    sig.ty.IsValue := by
  rw [← hsig]
  refine h.value fun hk => ?_
  obtain ⟨c, hc⟩ := h.cls hk
  cases hc.symm.trans hsig

/-- A join of types of values is one, too. -/
theorem ClassTable.isValue_join? {t : ClassTable} {a b ty : Ty} (ha : a.IsValue) (hb : b.IsValue)
    (h : t.join? a b = some ty) : ty.IsValue := by
  unfold ClassTable.join? at h
  split at h
  · cases h
    exact hb
  · split at h
    · cases h
      exact ha
    · split at h
      · obtain ⟨l, -, hfind⟩ := Option.bind_eq_some_iff.1 h
        obtain ⟨d, -, rfl⟩ := List.mem_map.1 (List.mem_of_find?_eq_some hfind)
        trivial
      · cases h

/-- The type of an expression is one of values. -/
theorem Expr.isValue_type (ht : t.Shaped) {e : Expr} {ty : Ty} (h : e.type? t = some ty) : ty.IsValue := by
  induction e using Expr.induction generalizing ty with
  | literal value span =>
    cases h
    cases value <;> trivial
  | ident id name =>
    obtain ⟨use, huse, h⟩ := Option.bind_eq_some_iff.1 h
    split at h
    · next hvalue =>
      cases h
      refine (ht.uses id use huse).value fun hk => ?_
      rw [hk] at hvalue
      cases hvalue
    · cases h
  | call id callee args span _ =>
    obtain ⟨use, huse, h⟩ := Option.bind_eq_some_iff.1 h
    obtain ⟨sig, hsig, h⟩ := Option.bind_eq_some_iff.1 h
    cases h
    have hvalue := (ht.uses id use huse).isValue_signature (Ty.signature?_eq_some.1 hsig)
    exact (Signature.isValue_ty.1 hvalue).2
  | new id cls args span _ =>
    obtain ⟨use, -, h⟩ := Option.bind_eq_some_iff.1 h
    obtain ⟨c, -, h⟩ := Option.bind_eq_some_iff.1 h
    split at h
    · cases h
      trivial
    · cases h
  | methodCall id object method args span _ =>
    obtain ⟨sig, hsig, h⟩ := Option.bind_eq_some_iff.1 h
    obtain ⟨call, hcall, hsig⟩ := Option.bind_eq_some_iff.1 hsig
    cases h
    have hvalue := (ht.methodCalls id call hcall).1.isValue_signature (Ty.signature?_eq_some.1 hsig)
    exact (Signature.isValue_ty.1 hvalue).2
  | binary op left right span _ _ =>
    cases h
    cases op <;> trivial
  | unary op operand span _ =>
    cases op
    cases h
    trivial
  | cond condition thenExpr elseExpr span _ iht ihe =>
    obtain ⟨a, ha, h⟩ := Option.bind_eq_some_iff.1 h
    obtain ⟨b, hb, h⟩ := Option.bind_eq_some_iff.1 h
    exact ClassTable.isValue_join? (iht ha) (ihe hb) h
  | print value span ih => exact ih h

/-! ## Where a type is missing, something is wrong -/

theorem Ty.Known.exists_layout? {u : ClassTable} {c : ClassId} (h : Ty.Known u.size (.cls c)) :
    ∃ l, u.layout? c = some l := by
  have hlt : c < u.classes.length := Ty.known_cls.1 h
  exact ⟨_, by rw [ClassTable.layout?, ClassTable.class?, List.getElem?_eq_getElem hlt]; rfl⟩

/-- Tables whose entries have their shapes tell what is applied, in any environment. -/
theorem Tables.Shaped.tells (ht : t.Shaped) (hk : t.Known) (env : Env) : env.Tells t where
  new {id cls} h := by
    obtain ⟨e, he, huse⟩ := Expr.holds_bindNew h
    obtain ⟨-, -, -, -, hkind⟩ := Env.lookupClass?_eq_some he
    obtain ⟨c, hty : e.ty = .cls c⟩ := (ht.uses id _ huse).cls hkind
    have hknown : Ty.Known t.classes.size e.ty := hk.uses id _ huse
    rw [hty] at hknown
    obtain ⟨l, hl⟩ := hknown.exists_layout?
    exact ⟨_, c, l, huse, by simp [Entry.declaredClass?, hkind, hty], hl⟩
  methodCall {id object method} h := by
    obtain ⟨e, c, m, -, -, -, -, hcall⟩ := Expr.holds_bindMethodCall h
    obtain ⟨hm, hkind⟩ := ht.methodCalls id _ hcall
    obtain ⟨sig, hsig⟩ := hm.callable (.inr hkind)
    exact ⟨_, sig, hcall, hsig⟩

/-- In a program whose binding is clean, something is wrong in every expression without a type. -/
theorem Program.Stands.reported (hid : p.ids.Nodup) (hbind : p.bind.errors = []) {scopes : List Names} {e : Expr}
    (h : p.Stands scopes e) (hnone : e.type? p.bind.tables = none) : e.typeErrors p.bind.tables ≠ [] := by
  intro hclean
  obtain ⟨env, -, hrec, -⟩ := h.walked (Program.recorded hid hbind)
  have hchecked : e.Checked p.bind.tables env := ⟨hrec, hclean⟩
  obtain ⟨ty, hty⟩ := hchecked.told (p.shaped_tables.tells p.known_tables env)
  cases hnone.symm.trans hty

end ObjLet
