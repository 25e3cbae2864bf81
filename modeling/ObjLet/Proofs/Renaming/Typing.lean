import ObjLet.Proofs.Renaming.Binding
import ObjLet.Typing.Program

/-!
# Checking renamed programs

With renamed tables an expression has the same type (`Expr.type?_rename`), and what is wrong with the types of a
program is the same, up to the renaming (`Program.typeErrors_rename`).

Errors show types by the names of their classes. All types that are compared mention known classes
(`Expr.known_type`), so that these names are renamed with the program.
-/

namespace ObjLet

variable {r : Renaming} {t t' : Tables}

/-! ## Names of types -/

namespace TyOf

variable {κ ι : Type}

mutual

/-- A type only mentions the classes in it, so names of other classes do not matter to its text. -/
theorem map_congr {f g : κ → ι} : (t : TyOf κ) → (∀ c ∈ t.classes, f c = g c) → t.map f = t.map g
  | int, _ | bool, _ | null, _ => rfl
  | ref c, h => congrArg ref (h c (List.mem_singleton_self c))
  | cls c, h => congrArg cls (h c (List.mem_singleton_self c))
  | arrow ps r, h => by
    have h := List.forall_mem_append.1 h
    simp only [map, map_congr r h.2, mapAll_congr ps h.1]

theorem mapAll_congr {f g : κ → ι} :
    (ts : List (TyOf κ)) → (∀ c ∈ classesAll ts, f c = g c) → mapAll f ts = mapAll g ts
  | [], _ => rfl
  | t :: ts, h => by
    have h := List.forall_mem_append.1 h
    simp only [mapAll, map_congr t h.1, mapAll_congr ts h.2]

end

end TyOf

/-- The name of a type is renamed if all of its classes have been declared; this is why types that come into
errors must be known. -/
theorem ClassTable.Renames.typeName {t t' : ClassTable} (h : t.Renames r t') {ty : Ty} (hty : Ty.Known t.size ty) :
    t'.typeName ty = TypeName.rename r (t.typeName ty) := by
  rw [ClassTable.typeName, ClassTable.typeName, TypeName.rename, TyOf.map_map]
  exact TyOf.map_congr ty fun c hc => h.nameOf (hty c hc)

/-! ## Known types -/

/-- What has a layout has been declared. -/
theorem ClassTable.lt_of_layout? {t : ClassTable} {c : ClassId} {l : ClassLayout} (h : t.layout? c = some l) :
    c < t.size := by
  obtain ⟨cls, hc, -⟩ := Option.map_eq_some_iff.1 h
  exact (List.getElem?_eq_some_iff.1 hc).1

/-- A join of class types is one of their ancestors, so it has been declared before them. -/
theorem ClassTable.known_join? {t : ClassTable} (ht : t.Lineal) {a b ty : Ty} (ha : Ty.Known t.size a)
    (hb : Ty.Known t.size b) (h : t.join? a b = some ty) : Ty.Known t.size ty := by
  unfold ClassTable.join? at h
  split at h
  · cases h
    exact hb
  · split at h
    · cases h
      exact ha
    · split at h
      · obtain ⟨l, hl, hfind⟩ := Option.bind_eq_some_iff.1 h
        obtain ⟨d, hd, rfl⟩ := List.mem_map.1 (List.mem_of_find?_eq_some hfind)
        obtain ⟨ld, hld, -⟩ := ht.lineage_subset hl hd
        exact Ty.known_ref.2 (ClassTable.lt_of_layout? hld)
      · cases h

namespace Tables.Known

/-- The members of a class mention declared classes only. -/
theorem layout (h : t.Known) {c : ClassId} {l : ClassLayout} (hl : t.classes.layout? c = some l) :
    (∀ ty ∈ l.fields, Ty.Known t.classes.size ty) ∧ ∀ sig ∈ l.methods, Ty.Known t.classes.size sig.ty := by
  obtain ⟨cls, hc, rfl⟩ := Option.map_eq_some_iff.1 hl
  exact ⟨(h.classes c cls hc).fields, (h.classes c cls hc).methods⟩

theorem signature {ty : Ty} {sig : Signature} (hty : Ty.Known t.classes.size ty) (h : Ty.signature? ty = some sig) :
    (∀ p ∈ sig.params, Ty.Known t.classes.size p) ∧ Ty.Known t.classes.size sig.ret := by
  rw [Ty.signature?_eq_some.1 h] at hty
  exact Ty.known_arrow.1 hty

/-- What `new` needs of a class: the types of its fields. -/
theorem newClass (h : t.Known) {id : NodeId} {l : ClassLayout} (hl : t.newClass? id = some l) :
    ∀ ty ∈ l.fields, Ty.Known t.classes.size ty := by
  obtain ⟨use, -, hrest⟩ := Option.bind_eq_some_iff.1 hl
  obtain ⟨c, -, hlayout⟩ := Option.bind_eq_some_iff.1 hrest
  exact (h.layout hlayout).1

theorem methodSignature (h : t.Known) {id : NodeId} {sig : Signature} (hsig : t.methodSignature? id = some sig) :
    (∀ p ∈ sig.params, Ty.Known t.classes.size p) ∧ Ty.Known t.classes.size sig.ret := by
  obtain ⟨call, hcall, hs⟩ := Option.bind_eq_some_iff.1 hsig
  exact signature (h.methodCalls id call hcall) hs

/-- What an override is compared with: the members of the superclass. -/
theorem parentLayout (h : t.Known) {id : NodeId} {l : ClassLayout} (hl : t.parentLayout? id = some l) :
    (∀ ty ∈ l.fields, Ty.Known t.classes.size ty) ∧ ∀ sig ∈ l.methods, Ty.Known t.classes.size sig.ty := by
  obtain ⟨e, -, hrest⟩ := Option.bind_eq_some_iff.1 hl
  obtain ⟨c, -, hrest⟩ := Option.bind_eq_some_iff.1 hrest
  obtain ⟨child, -, hrest⟩ := Option.bind_eq_some_iff.1 hrest
  obtain ⟨p, -, hlayout⟩ := Option.bind_eq_some_iff.1 hrest
  exact h.layout hlayout

end Tables.Known

/-- The type of an expression mentions classes of the class table only. -/
theorem Expr.known_type (hk : t.Known) : (e : Expr) → ∀ ty, e.type? t = some ty → Ty.Known t.classes.size ty
  | .literal value _, ty, h => by
    cases h
    cases value <;> rintro c ⟨⟩
  | .ident id _, ty, h => by
    obtain ⟨use, huse, hrest⟩ := Option.bind_eq_some_iff.1 h
    split at hrest
    · cases hrest
      exact hk.uses id use huse
    · cases hrest
  | .call id _ _ _, ty, h => by
    obtain ⟨use, huse, hrest⟩ := Option.bind_eq_some_iff.1 h
    obtain ⟨sig, hsig, hret⟩ := Option.bind_eq_some_iff.1 hrest
    cases hret
    exact (Tables.Known.signature (hk.uses id use huse) hsig).2
  | .new id _ _ _, ty, h => by
    obtain ⟨use, -, hrest⟩ := Option.bind_eq_some_iff.1 h
    obtain ⟨c, -, hrest⟩ := Option.bind_eq_some_iff.1 hrest
    split at hrest
    · next hl =>
      cases hrest
      obtain ⟨l, hl⟩ := Option.isSome_iff_exists.1 hl
      exact Ty.known_ref.2 (ClassTable.lt_of_layout? hl)
    · cases hrest
  | .methodCall id _ _ _ _, ty, h => by
    obtain ⟨sig, hsig, hret⟩ := Option.bind_eq_some_iff.1 h
    cases hret
    exact (hk.methodSignature hsig).2
  | .binary op _ _ _, ty, h => by
    cases h
    unfold BinaryOp.resultType
    split <;> rintro c ⟨⟩
  | .unary .not _ _, ty, h => by
    cases h
    rintro c ⟨⟩
  | .cond _ thenExpr elseExpr _, ty, h => by
    obtain ⟨a, ha, hrest⟩ := Option.bind_eq_some_iff.1 h
    obtain ⟨b, hb, hjoin⟩ := Option.bind_eq_some_iff.1 hrest
    exact ClassTable.known_join? hk.lineal (Expr.known_type hk thenExpr a ha) (Expr.known_type hk elseExpr b hb) hjoin
  | .print value _, ty, h => Expr.known_type hk value ty h

/-! ## Checks -/

/-- Errors of a program that is renamed uniformly. -/
def SemanticErrors.rename (r : Renaming) (es : SemanticErrors) : SemanticErrors := es.map (SemanticError.rename r [])

@[simp] theorem SemanticErrors.rename_nil (r : Renaming) : SemanticErrors.rename r [] = [] := rfl

/-- Errors are renamed one by one. -/
@[simp] theorem SemanticErrors.rename_append (r : Renaming) (es es' : SemanticErrors) :
    SemanticErrors.rename r (es ++ es') = SemanticErrors.rename r es ++ SemanticErrors.rename r es' := List.map_append

theorem SemanticErrors.rename_flatMap {α : Type} (r : Renaming) (as : List α) (f : α → SemanticErrors) :
    SemanticErrors.rename r (as.flatMap f) = as.flatMap fun a => SemanticErrors.rename r (f a) := by
  rw [SemanticErrors.rename, List.map_flatMap]
  rfl

namespace Tables.Renames

variable (h : t.Renames r t') (span : Span)
include h

/-- The comparison has the same outcome, and if it fails, the two types in the message are renamed. -/
theorem require {sub sup : Ty} (hsub : Ty.Known t.classes.size sub) (hsup : Ty.Known t.classes.size sup)
    {problem problem' : TypeName → TypeName → Problem}
    (hp : ∀ a b, problem' (TypeName.rename r a) (TypeName.rename r b) = (problem a b).rename r) :
    t'.require sub sup problem' (r.move [] span) = SemanticErrors.rename r (t.require sub sup problem span) := by
  rw [Tables.require, Tables.require, h.classes.isSubtype, h.classes.typeName hsub, h.classes.typeName hsup, hp]
  split <;> rfl

/-- Nothing is required of an expression without a type. -/
theorem fit {expected : Ty} (hexpected : Ty.Known t.classes.size expected) {found : Option Ty}
    (hfound : ∀ ty, found = some ty → Ty.Known t.classes.size ty) {mismatch mismatch' : TypeName → TypeName → Mismatch}
    (hm : ∀ a b, mismatch' (TypeName.rename r a) (TypeName.rename r b) = (mismatch a b).rename r) :
    t'.fit expected found mismatch' (r.move [] span) =
      SemanticErrors.rename r (t.fit expected found mismatch span) := by
  have hp : ∀ a b, Problem.typeMismatch (mismatch' (TypeName.rename r b) (TypeName.rename r a)) =
      (Problem.typeMismatch (mismatch b a)).rename r := fun a b => congrArg Problem.typeMismatch (hm b a)
  cases found with
  | none => rfl
  | some ty =>
    simp only [Tables.fit]
    exact h.require span (hfound ty rfl) hexpected hp

theorem fitOperand (op : String) {expected : Ty} (hexpected : Ty.Known t.classes.size expected) {found : Option Ty}
    (hfound : ∀ ty, found = some ty → Ty.Known t.classes.size ty) :
    t'.fit expected found (.operand op) (r.move [] span) =
      SemanticErrors.rename r (t.fit expected found (.operand op) span) :=
  h.fit span hexpected hfound fun _ _ => rfl

/-- The number of arguments is the same, and so each is compared with the same parameter. -/
theorem fitArgs (callee : String) {params : List Ty} (hparams : ∀ ty ∈ params, Ty.Known t.classes.size ty)
    {args : List (Option Ty)} (hargs : ∀ arg ∈ args, ∀ ty, arg = some ty → Ty.Known t.classes.size ty) :
    t'.fitArgs (r.name callee) params args (r.move [] span) =
      SemanticErrors.rename r (t.fitArgs callee params args span) := by
  rw [Tables.fitArgs, Tables.fitArgs]
  split
  · rw [SemanticErrors.rename_flatMap]
    refine List.flatMap_congr ?_
    rintro ⟨⟨param, arg⟩, i⟩ hp
    obtain ⟨-, hlt, hpair⟩ := List.mem_zipIdx hp
    have hmem : (param, arg) ∈ params.zip args := hpair ▸ List.getElem_mem _
    exact h.fit span (hparams param (List.of_mem_zip hmem).1) (hargs arg (List.of_mem_zip hmem).2) fun _ _ => rfl
  · rfl

/-- Both operands come into the message if they cannot be compared. -/
theorem fitComparison {left right : Option Ty} (hleft : ∀ ty, left = some ty → Ty.Known t.classes.size ty)
    (hright : ∀ ty, right = some ty → Ty.Known t.classes.size ty) :
    t'.fitComparison left right (r.move [] span) = SemanticErrors.rename r (t.fitComparison left right span) := by
  cases left with
  | none => rfl
  | some a =>
    cases right with
    | none => rfl
    | some b =>
      have hcomparable : t'.comparable a b = t.comparable a b := by
        simp only [Tables.comparable, h.classes.isSubtype]
      simp only [Tables.fitComparison, hcomparable, h.classes.typeName (hleft a rfl),
        h.classes.typeName (hright b rfl)]
      split <;> rfl

/-- Operators have fixed operand types, except for the comparison. -/
theorem fitOperands (op : BinaryOp) {left right : Option Ty}
    (hleft : ∀ ty, left = some ty → Ty.Known t.classes.size ty)
    (hright : ∀ ty, right = some ty → Ty.Known t.classes.size ty) :
    t'.fitOperands op left right (r.move [] span) = SemanticErrors.rename r (t.fitOperands op left right span) := by
  have hoperand : ∀ ty, op.operandType? = some ty → Ty.Known t.classes.size ty := by
    intro ty hty
    cases op <;> cases hty <;> rintro c ⟨⟩
  rw [Tables.fitOperands, Tables.fitOperands]
  cases hop : op.operandType? with
  | none => exact h.fitComparison span hleft hright
  | some ty =>
    simp only [SemanticErrors.rename_append]
    rw [h.fitOperand span op.text (hoperand ty hop) hleft, h.fitOperand span op.text (hoperand ty hop) hright]

/-- The two types come into the message if they have no join. -/
theorem fitBranches {thenType elseType : Option Ty} (hthen : ∀ ty, thenType = some ty → Ty.Known t.classes.size ty)
    (helse : ∀ ty, elseType = some ty → Ty.Known t.classes.size ty) :
    t'.fitBranches thenType elseType (r.move [] span) =
      SemanticErrors.rename r (t.fitBranches thenType elseType span) := by
  cases thenType with
  | none => rfl
  | some a =>
    cases elseType with
    | none => rfl
    | some b =>
      simp only [Tables.fitBranches, h.classes.join?, h.classes.typeName (hthen a rfl),
        h.classes.typeName (helse b rfl)]
      split <;> rfl

omit span

/-- Tables are related, so what they say of a node is what they say of the renamed one. -/
theorem newClass? (id : NodeId) : t'.newClass? (r.node id) = (t.newClass? id).map (·.rename r) := by
  rw [Tables.newClass?, Tables.newClass?, h.resolutions.use?]
  cases t.resolutions.use? id with
  | none => rfl
  | some use =>
    cases hc : use.entry.declaredClass? with
    | none => simp [hc]
    | some c => simp [hc, h.classes.layout?]

theorem methodSignature? (id : NodeId) : t'.methodSignature? (r.node id) = t.methodSignature? id := by
  rw [Tables.methodSignature?, Tables.methodSignature?, h.resolutions.methodCall?]

theorem parentLayout? (id : NodeId) : t'.parentLayout? (r.node id) = (t.parentLayout? id).map (·.rename r) := by
  rw [Tables.parentLayout?, Tables.parentLayout?, h.resolutions.declaration?]
  simp only [h.classes.layout?]
  cases t.resolutions.declaration? id with
  | none => rfl
  | some e =>
    cases hc : e.declaredClass? with
    | none => simp [hc]
    | some c =>
      cases hl : t.classes.layout? c with
      | none => simp [hc, hl]
      | some l =>
        cases hs : l.superclass with
        | none => simp [hc, hl, hs, ClassLayout.rename]
        | some p => simp [hc, hl, hs, ClassLayout.rename]

end Tables.Renames

/-! ## Expressions -/

/-- Types are positions of classes, so an expression has the same type and not a renamed one. -/
theorem Expr.type?_rename (hr : r.Uniform) (h : t.Renames r t') : (e : Expr) → (e.rename r).type? t' = e.type? t
  | .literal _ _ | .binary _ _ _ _ | .unary .not _ _ => rfl
  | .ident id _ => by
    rw [Expr.rename, Expr.type?, Expr.type?, h.resolutions.use?]
  | .call id _ _ _ => by
    rw [Expr.rename, Expr.type?, Expr.type?, h.resolutions.use?]
  | .new id _ _ _ => by
    rw [Expr.rename, Expr.type?, Expr.type?, h.resolutions.use?]
    simp only [h.classes.layout?, Option.isSome_map]
  | .methodCall id _ _ _ _ => by
    rw [Expr.rename, Expr.type?, Expr.type?, h.methodSignature?]
  | .cond _ thenExpr elseExpr _ => by
    simp only [Expr.rename, hr.part, Expr.type?, Expr.type?_rename hr h thenExpr, Expr.type?_rename hr h elseExpr,
      h.classes.join?]
  | .print value _ => by
    simp only [Expr.rename, hr.part, Expr.type?, Expr.type?_rename hr h value]

theorem Expr.types_rename (hr : r.Uniform) (h : t.Renames r t') (es : List Expr) :
    (Expr.renameAll r es).map (Expr.type? t') = es.map (Expr.type? t) := by
  simp only [Expr.renameAll_eq hr, List.map_map, Function.comp_def, Expr.type?_rename hr h]

/-- Whatever type an argument has, it mentions declared classes only. -/
theorem Expr.known_types (hk : t.Known) (es : List Expr) :
    ∀ arg ∈ es.map (Expr.type? t), ∀ ty, arg = some ty → Ty.Known t.classes.size ty := by
  intro arg harg ty hty
  obtain ⟨e, -, rfl⟩ := List.mem_map.1 harg
  exact e.known_type hk ty hty

mutual

/-- By recursion over expressions. Each check commutes with the renaming by one of the lemmas above, and errors
of parts come in the same order. -/
theorem Expr.typeErrors_rename (hr : r.Uniform) (h : t.Renames r t') (hk : t.Known) :
    (e : Expr) → (e.rename r).typeErrors t' = SemanticErrors.rename r (e.typeErrors t)
  | .literal _ _ => rfl
  | .ident id name => by
    rw [Expr.rename, Expr.typeErrors, Expr.typeErrors, h.resolutions.use?]
    cases t.resolutions.use? id with
    | none => rfl
    | some use =>
      simp only
      split <;> rfl
  | .call id callee args span => by
    simp only [Expr.rename, hr.part, Expr.typeErrors, Expr.typeErrorsAll_rename hr h hk args, h.resolutions.use?,
      Expr.types_rename hr h, SemanticErrors.rename_append]
    congr 1
    cases huse : t.resolutions.use? id with
    | none => rfl
    | some use =>
      cases hsig : Ty.signature? use.entry.ty with
      | none => simp only [hsig]; rfl
      | some sig =>
        simp only [hsig]
        exact h.fitArgs span callee.text (Tables.Known.signature (hk.uses id use huse) hsig).1
          (Expr.known_types hk args)
  | .new id cls args span => by
    simp only [Expr.rename, hr.part, Expr.typeErrors, Expr.typeErrorsAll_rename hr h hk args, h.newClass?,
      Expr.types_rename hr h, SemanticErrors.rename_append]
    congr 1
    cases hl : t.newClass? id with
    | none => rfl
    | some l => exact h.fitArgs span cls.text (hk.newClass hl) (Expr.known_types hk args)
  | .methodCall id _ method args span => by
    simp only [Expr.rename, hr.part, Expr.typeErrors, Expr.typeErrorsAll_rename hr h hk args, h.methodSignature?,
      Expr.types_rename hr h, SemanticErrors.rename_append]
    congr 1
    cases hsig : t.methodSignature? id with
    | none => rfl
    | some sig => exact h.fitArgs span method.text (hk.methodSignature hsig).1 (Expr.known_types hk args)
  | .binary op left right span => by
    simp only [Expr.rename, hr.part, Expr.typeErrors, Expr.typeErrors_rename hr h hk left,
      Expr.typeErrors_rename hr h hk right, Expr.type?_rename hr h, SemanticErrors.rename_append,
      h.fitOperands span op (left.known_type hk) (right.known_type hk)]
  | .unary op operand span => by
    simp only [Expr.rename, hr.part, Expr.typeErrors, Expr.typeErrors_rename hr h hk operand,
      Expr.type?_rename hr h, SemanticErrors.rename_append]
    rw [h.fitOperand span op.text (by rintro c ⟨⟩) (operand.known_type hk)]
  | .cond condition thenExpr elseExpr span => by
    have hcondition : t'.fit .bool (condition.type? t) (fun _ found => .condition found) (r.move [] condition.span) =
        SemanticErrors.rename r (t.fit .bool (condition.type? t) (fun _ found => .condition found) condition.span) :=
      h.fit condition.span (by rintro c ⟨⟩) (condition.known_type hk) fun _ _ => rfl
    simp only [Expr.rename, hr.part, Expr.typeErrors, Expr.typeErrors_rename hr h hk condition,
      Expr.typeErrors_rename hr h hk thenExpr, Expr.typeErrors_rename hr h hk elseExpr, Expr.type?_rename hr h,
      Expr.span_rename, SemanticErrors.rename_append, hcondition,
      h.fitBranches span (thenExpr.known_type hk) (elseExpr.known_type hk)]
  | .print value _ => by
    simp only [Expr.rename, hr.part, Expr.typeErrors, Expr.typeErrors_rename hr h hk value]

theorem Expr.typeErrorsAll_rename (hr : r.Uniform) (h : t.Renames r t') (hk : t.Known) :
    (es : List Expr) → Expr.typeErrorsAll t' (Expr.renameAll r es) = SemanticErrors.rename r (Expr.typeErrorsAll t es)
  | [] => rfl
  | e :: es => by
    simp only [Expr.renameAll, hr.part, Expr.typeErrorsAll, Expr.typeErrors_rename hr h hk e,
      Expr.typeErrorsAll_rename hr h hk es, SemanticErrors.rename_append]

end

/-! ## Declarations -/

namespace Tables.Renames

variable (h : t.Renames r t') (hk : t.Known)
include h hk

/-- Members are compared with those of the superclass by offset, so names are only needed for the message. -/
theorem fitOverride (cls : String) (id : NodeId) (member : Name) (span : Span) {inherited? : Int → Option Ty}
    (hinherited : ∀ offset ty, inherited? offset = some ty → Ty.Known t.classes.size ty)
    {fault : TypeName → TypeName → OverrideFault}
    (hf : ∀ a b, fault (TypeName.rename r a) (TypeName.rename r b) = (fault a b).rename r) :
    t'.fitOverride (r.name cls) (r.node id) (member.rename r) (r.move [] span) inherited? fault =
      SemanticErrors.rename r (t.fitOverride cls id member span inherited? fault) := by
  rw [Tables.fitOverride, Tables.fitOverride, h.resolutions.declaration?]
  cases hd : t.resolutions.declaration? id with
  | none => rfl
  | some e =>
    simp only
    cases hi : inherited? e.offset with
    | none => rfl
    | some ty =>
      refine h.require span (hk.declarations id e hd) (hinherited _ ty hi) fun a b => ?_
      rw [Name.text_rename, hf]
      rfl

/-- Fields first and then methods, on both sides. -/
theorem fitOverrides (hr : r.Uniform) (id : NodeId) (cls : Name) (fields : List Param) (methods : List FunDecl) :
    t'.fitOverrides (r.node id) (cls.rename r) (Param.renameAll r fields) (FunDecl.renameAll r methods) =
      SemanticErrors.rename r (t.fitOverrides id cls fields methods) := by
  rw [Tables.fitOverrides, Tables.fitOverrides, h.parentLayout?]
  cases hl : t.parentLayout? id with
  | none => rfl
  | some parent =>
    have hfields : ∀ offset ty, parent.fieldType? offset = some ty → Ty.Known t.classes.size ty := by
      intro offset ty hty
      obtain ⟨i, -, hi⟩ := Option.bind_eq_some_iff.1 hty
      exact (hk.parentLayout hl).1 ty (List.mem_of_getElem? hi)
    have hmethods : ∀ slot ty, (parent.methodType? slot).map (·.ty) = some ty → Ty.Known t.classes.size ty := by
      intro slot ty hty
      obtain ⟨sig, hsig, rfl⟩ := Option.map_eq_some_iff.1 hty
      unfold ClassLayout.methodType? at hsig
      split at hsig
      · cases hsig
      · exact (hk.parentLayout hl).2 sig (List.mem_of_getElem? hsig)
    simp only [Option.map_some, SemanticErrors.rename_append, SemanticErrors.rename_flatMap, Param.renameAll_eq hr,
      FunDecl.renameAll_eq hr, List.flatMap_map]
    congr 1
    · refine List.flatMap_congr fun f _ => ?_
      rw [Param.rename, hr.part, hr.part]
      exact h.fitOverride hk cls.text f.id f.name f.span hfields fun _ _ => rfl
    · refine List.flatMap_congr fun m _ => ?_
      rw [FunDecl.rename_eq hr]
      exact h.fitOverride hk cls.text m.id m.name m.span hmethods fun _ _ => rfl

/-- The body is compared with the result that was declared. -/
theorem fitResult (routine : Routine) (id : NodeId) (name : Name) (hr : r.Uniform) (body : Expr) :
    t'.fitResult routine (r.node id) (name.rename r) (body.rename r) =
      SemanticErrors.rename r (t.fitResult routine id name body) := by
  rw [Tables.fitResult, Tables.fitResult, h.resolutions.declaration?]
  cases hd : (t.resolutions.declaration? id).bind fun e => Ty.signature? e.ty with
  | none => rfl
  | some sig =>
    obtain ⟨e, he, hsig⟩ := Option.bind_eq_some_iff.1 hd
    simp only [Expr.type?_rename hr h, Expr.span_rename]
    exact h.fit body.span (Tables.Known.signature (hk.declarations id e he) hsig).2 (body.known_type hk) fun _ _ => rfl

end Tables.Renames

mutual

/-- By recursion over declarations, functions and methods. -/
theorem Decl.typeErrors_rename (hr : r.Uniform) (h : t.Renames r t') (hk : t.Known) :
    (d : Decl) → (d.rename r).typeErrors t' = SemanticErrors.rename r (d.typeErrors t)
  | .var id name _ init span => by
    simp only [Decl.rename, hr.part, Decl.typeErrors, Expr.typeErrors_rename hr h hk init, h.resolutions.declaration?,
      Expr.type?_rename hr h, SemanticErrors.rename_append]
    congr 1
    cases hd : t.resolutions.declaration? id with
    | none => rfl
    | some e => exact h.fit span (hk.declarations id e hd) (init.known_type hk) fun _ _ => rfl
  | .func f => by
    simp only [Decl.rename, Decl.typeErrors, FunDecl.typeErrors_rename hr h hk .function f]
  | .cls ⟨id, name, _, fields, methods, _⟩ => by
    simp only [Decl.rename, hr.part, Decl.typeErrors, h.fitOverrides hk hr, SemanticErrors.rename_append,
      FunDecl.typeErrorsAll_rename hr h hk methods]

theorem FunDecl.typeErrors_rename (hr : r.Uniform) (h : t.Renames r t') (hk : t.Known) (routine : Routine) :
    (f : FunDecl) → (f.rename r).typeErrors t' routine = SemanticErrors.rename r (f.typeErrors t routine)
  | ⟨id, name, _, _, decls, body, _⟩ => by
    simp only [FunDecl.rename, hr.part, FunDecl.typeErrors, Decl.typeErrorsAll_rename hr h hk decls,
      Expr.typeErrors_rename hr h hk body, h.fitResult hk routine id name hr body, SemanticErrors.rename_append]

theorem FunDecl.typeErrorsAll_rename (hr : r.Uniform) (h : t.Renames r t') (hk : t.Known) :
    (ms : List FunDecl) →
      FunDecl.typeErrorsAll t' (FunDecl.renameAll r ms) = SemanticErrors.rename r (FunDecl.typeErrorsAll t ms)
  | [] => rfl
  | m :: ms => by
    simp only [FunDecl.renameAll, hr.part, FunDecl.typeErrorsAll, FunDecl.typeErrors_rename hr h hk .method m,
      FunDecl.typeErrorsAll_rename hr h hk ms, SemanticErrors.rename_append]

theorem Decl.typeErrorsAll_rename (hr : r.Uniform) (h : t.Renames r t') (hk : t.Known) :
    (ds : List Decl) → Decl.typeErrorsAll t' (Decl.renameAll r ds) = SemanticErrors.rename r (Decl.typeErrorsAll t ds)
  | [] => rfl
  | d :: ds => by
    simp only [Decl.renameAll, hr.part, Decl.typeErrorsAll, Decl.typeErrors_rename hr h hk d,
      Decl.typeErrorsAll_rename hr h hk ds, SemanticErrors.rename_append]

end

/-- What is wrong with the types of a program is wrong with those of the renamed program. -/
theorem Program.typeErrors_rename (hr : r.Uniform) (h : t.Renames r t') (hk : t.Known) (p : Program) :
    (p.rename r).typeErrors t' = SemanticErrors.rename r (p.typeErrors t) := by
  simp only [Program.rename, hr.part, Program.typeErrors, Decl.typeErrorsAll_rename hr h hk,
    Expr.typeErrors_rename hr h hk, SemanticErrors.rename_append]

theorem Program.type?_rename (hr : r.Uniform) (h : t.Renames r t') (p : Program) :
    (p.rename r).type? t' = p.type? t := by
  rw [Program.type?, Program.rename, hr.part, hr.part, Expr.type?_rename hr h]
  rfl

end ObjLet
