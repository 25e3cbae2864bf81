import ObjLet.Proofs.Class.First
import ObjLet.Proofs.Class.Inherit
import ObjLet.Proofs.Code.Total
import ObjLet.Proofs.Typing.Told

/-!
# Types that are compared

Checking compares types only where it knows them: it passes over an argument without a type, a declaration without
an entry and an offset at which the superclass has nothing. In a program without errors it has passed over nothing
(`Program.Compared`): the types of all arguments, initializers, bodies and overriding members are known, and so are
those that they have to be below.
-/

namespace ObjLet

open Findings

variable {t : Tables} {p : Program}

/-! ## Expressions -/

/-- The type of an expression is told, and it is below the expected one. -/
def Expr.FitsIn (t : Tables) (e : Expr) (expected : Ty) : Prop :=
  ∃ found, e.type? t = some found ∧ t.classes.isSubtype found expected

/-- What an expression applies is known, and every argument has been compared with its parameter or its field. -/
def Expr.ArgsCompared (t : Tables) : Expr → Prop
  | .call id _ args _ => ∃ use sig, t.resolutions.use? id = some use ∧ use.entry.ty = Signature.ty sig ∧
      List.Forall₂ (Expr.FitsIn t) args sig.params
  | .new id _ args _ => ∃ use c layout, t.resolutions.use? id = some use ∧ use.entry.declaredClass? = some c ∧
      t.classes.layout? c = some layout ∧ List.Forall₂ (Expr.FitsIn t) args layout.fields
  | .methodCall id _ _ args _ => ∃ call sig, t.resolutions.methodCall? id = some call ∧
      call.method.ty = Signature.ty sig ∧ List.Forall₂ (Expr.FitsIn t) args sig.params
  | _ => True

namespace Expr

/-- A clean expression has a type, so where its type has to fit, it does fit. -/
theorem Checked.fitsIn {env : Env} (hf : env.Fits t) {e : Expr} (h : e.Checked t env) {expected : Ty}
    (hfit : ∀ ty, e.type? t = some ty → t.classes.isSubtype ty expected) : e.FitsIn t expected := by
  obtain ⟨ty, hty⟩ := h.exists_type hf
  exact ⟨ty, hty, hfit ty hty⟩

theorem ArgsFit.fitsIn {env : Env} (hf : env.Fits t) {args : List Expr} {params : List Ty}
    (h : ArgsFit t args params) (hargs : ∀ a ∈ args, a.Checked t env) : List.Forall₂ (FitsIn t) args params := by
  induction h with
  | nil => exact .nil
  | cons hfit _ ih =>
    obtain ⟨ha, hargs⟩ := List.forall_mem_cons.1 hargs
    exact .cons (ha.fitsIn hf hfit) (ih hargs)

/-- In a clean expression no argument is passed over. -/
theorem Checked.argsCompared {env : Env} (hf : env.Fits t) {e : Expr} (h : e.Checked t env) : e.ArgsCompared t := by
  cases e with
  | call id callee args span =>
    obtain ⟨entry, sig, -, huse, hsig, hargs, hfit⟩ := h.call
    exact ⟨_, sig, huse, hsig, hfit.fitsIn hf hargs⟩
  | new id cls args span =>
    obtain ⟨entry, c, layout, -, huse, hc, hl, hargs, hfit⟩ := h.new hf
    exact ⟨_, c, layout, huse, hc, hl, hfit.fitsIn hf hargs⟩
  | methodCall id object method args span =>
    obtain ⟨entry, c, m, sig, -, -, -, -, hsig, hcall, hargs, hfit⟩ := h.methodCall hf
    exact ⟨_, sig, hcall, hsig, hfit.fitsIn hf hargs⟩
  | _ => trivial

end Expr

/-! ## Members -/

/-- The type that a class has for the members of a kind at an offset. -/
def ClassLayout.memberType? (l : ClassLayout) : EntryKind → Int → Option Ty
  | .field, offset => l.fieldType? offset
  | .method, slot => (l.methodType? slot).map (·.ty)
  | _, _ => none

/-- A member of a class has the kind and the place of the member of the superclass that it overrides, if it overrides
one. The type of that one is found at this place, and it has been compared with the type of the member. -/
def Declared.Compared (t : Tables) (parent : Class) (d : Declared) : Prop :=
  ∀ inherited, parent.members[d.key]? = some inherited → ∃ e, t.resolutions.declaration? d.id = some e ∧
    d.kind = inherited.kind ∧ e.offset = inherited.offset ∧
    parent.layout.memberType? d.kind e.offset = some inherited.ty ∧ t.classes.isSubtype e.ty inherited.ty

/-- The layout of a class gives the types of its members. -/
theorem Class.Laid.memberType? {c : Class} {fs ms : List String} (h : c.Laid fs ms) {name : String} {e : Entry}
    (he : c.members[name]? = some e) : c.layout.memberType? e.kind e.offset = some e.ty := by
  -- A member is a field or a method, and each has its own list of types in the layout.
  obtain hname | hname := h.mem he
  · obtain ⟨i, offset, ty, -, ho, hty, he'⟩ := h.entry_of_mem_fields hname
    cases he.symm.trans he'
    exact (ClassLayout.fieldType?_of_getElem? ho).trans hty
  · obtain ⟨i, sig, -, hsig, he'⟩ := h.entry_of_mem_methods hname
    cases he.symm.trans he'
    simp only [ClassLayout.memberType?, ClassLayout.methodType?_natCast, hsig, Option.map_some]

/-- The superclass of a class that names one. -/
theorem ClassDecl.Checked.exists_parent (ht : t.classes.Lineal) {c : ClassDecl} {env env' : Env} {s : ClassSite}
    {final : Class} (h : c.Checked t env env' s final) (hsup : c.superclass ≠ none) :
    ∃ q parent, final.layout.superclass = some q ∧ t.classes.class? q = some parent ∧
      t.parentLayout? c.id = some parent.layout ∧ ∃ fs ms, parent.Laid fs ms := by
  obtain ⟨sup, hsup⟩ := Option.ne_none_iff_exists'.1 hsup
  have hsuper := h.super
  rw [hsup] at hsuper
  obtain ⟨q, parent, hq, hparent, hlaid, -⟩ := hsuper.exists_parent ht (h.head ht)
  have hl : t.classes.layout? s.old.length = some final.layout := Option.map_eq_some_iff.2 ⟨final, h.class?, rfl⟩
  exact ⟨q, parent, hq, hparent, Tables.parentLayout?_eq_some h.declares.entry rfl hl hq hparent, _, _, hlaid⟩

/-- No name is declared twice if no declaration repeats one. -/
theorem nodup_of_repeats_eq_nil {ds : List Declared} (h : repeats [] ds = []) : (ds.map Declared.key).Nodup := by
  have hlength := length_repeats ds
  rw [h, List.length_nil] at hlength
  -- Without repetitions there are as many names as different names.
  have hsub := (ds.map Declared.key).dedup_sublist
  have hle := hsub.length_le
  rw [List.length_map] at hle
  rw [← List.dedup_eq_self]
  refine hsub.eq_of_length ?_
  rw [List.length_map]
  omega

/-- In a program whose binding is clean no class declares a name twice. -/
theorem Program.Reaches.nodup_members (hbind : p.bind.errors = []) {env : Env} {c : ClassDecl} {after : List Decl}
    {e : Expr} (h : p.Reaches env (.cls c :: after) e) : (c.members.map Declared.key).Nodup := by
  have hclean : ∀ {fs : Findings}, fs ⊆ p.walk.2 → fs.duplicates = [] := by
    intro fs hfs
    refine duplicates_eq_nil fun f hf e he => ?_
    have hmem : e ∈ p.bind.errors := List.mem_filterMap.2 ⟨f, hfs hf, he⟩
    rw [hbind] at hmem
    cases hmem
  have hfound : ∀ f ∈ c.memberFindings env c.methods, f ∈ p.walk.2 := by
    intro f hf
    apply h.within_decl.mem
    rw [Decl.bind_cls, List.append_assoc]
    exact List.mem_append_right _ hf
  -- A body opens with no name met, so only the names in it can repeat.
  have hopened : (c.opened env).Met [] := fun n => Iff.rfl
  obtain ⟨hmet, hfields⟩ := hopened.declareFields c.fields
  have hmethods := ClassBody.duplicates_bindMethods hmet c.methods
  rw [hclean fun f hf => hfound f (List.mem_append_left _ hf), eq_comm, List.map_eq_nil_iff] at hfields
  rw [hclean fun f hf => hfound f (List.mem_append_right _ hf), List.nil_perm, List.append_eq_nil_iff,
    List.map_eq_nil_iff] at hmethods
  apply nodup_of_repeats_eq_nil
  rw [ClassDecl.members, repeats_append, hfields, List.nil_append]
  exact hmethods.1

/-- In a program whose binding is clean every member that a class declares becomes a member of it. -/
theorem Program.Reaches.declares (hid : p.ids.Nodup) (hbind : p.bind.errors = []) {env : Env} {c : ClassDecl}
    {after : List Decl} {e : Expr} (h : p.Reaches env (.cls c :: after) e) :
    ∃ final : Class, p.bind.tables.classes.class? env.classes.size = some final ∧
      ∀ d ∈ c.members, ∃ entry, p.bind.tables.resolutions.declaration? d.id = some entry ∧ entry.kind = d.kind ∧
        final.members[d.key]? = some entry := by
  obtain ⟨final, hfinal, hdecides⟩ := h.decides hid
  refine ⟨final, hfinal, fun d hd => ?_⟩
  have hnodup := h.nodup_members hbind
  obtain ⟨pre, post, hmembers⟩ := List.append_of_mem hd
  rw [hmembers, List.map_append, List.map_cons] at hnodup
  have hfirst : d.key ∉ pre.map Declared.key := fun hmem =>
    (List.nodup_append.1 hnodup).2.2 _ hmem _ List.mem_cons_self rfl
  -- The first declaration of a name becomes a member or collides with an inherited one, and that would be
  -- reported.
  cases hdecides pre d post hmembers hfirst with
  | member _ he hk hm => exact ⟨_, he, hk, hm⟩
  | collision _ _ _ he _ =>
    rw [hbind] at he
    cases he

/-! ## Programs -/

/-- All that has to be below something has been compared with it. -/
structure Program.Compared (p : Program) (t : Tables) : Prop where
  args : ∀ {scopes : List Names} {e : Expr}, p.Stands scopes e → e.ArgsCompared t
  inits : ∀ {b : Block} {id : NodeId} {name : Name} {type : TypeExpr} {init : Expr} {span : Span}, p.HasBlock b →
    .var id name type init span ∈ b.decls → ∃ entry, t.resolutions.declaration? id = some entry ∧
      init.FitsIn t entry.ty
  results : ∀ {f : FunDecl}, p.HasFunction f → ∃ entry sig, t.resolutions.declaration? f.id = some entry ∧
    entry.ty = Signature.ty sig ∧ f.body.FitsIn t sig.ret
  overrides : ∀ {b : Block} {c : ClassDecl}, p.HasBlock b → .cls c ∈ b.decls → c.superclass ≠ none →
    ∃ q parent, t.classes.class? q = some parent ∧ t.parentLayout? c.id = some parent.layout ∧
      ∀ d ∈ c.members, d.Compared t parent

/-- In a clean program each member of a class with a superclass is compared with what it overrides. -/
theorem Program.Checked.overrides (h : p.Checked p.bind.tables) (hid : p.ids.Nodup) (hbind : p.bind.errors = [])
    {b : Block} {c : ClassDecl} (hb : p.HasBlock b) (hc : .cls c ∈ b.decls) (hsup : c.superclass ≠ none) :
    ∃ q parent, p.bind.tables.classes.class? q = some parent ∧
      p.bind.tables.parentLayout? c.id = some parent.layout ∧ ∀ d ∈ c.members, d.Compared p.bind.tables parent := by
  obtain ⟨⟨env, hdecls⟩, -⟩ := hb.checked h
  obtain ⟨Γ, hd⟩ := hdecls.exists_checked h.lineal hc
  obtain ⟨s, final, hcls⟩ := hd.cls h.lineal
  obtain ⟨q, parent, hq, hparent, hlayout, fs, ms, hlaid⟩ := hcls.exists_parent h.lineal hsup
  refine ⟨q, parent, hparent, hlayout, fun d hdm inherited hinherited => ?_⟩
  -- The walk comes to the class, too; the class that it leaves there is the same one.
  obtain ⟨Γ', hr⟩ := hb.reaches
  obtain ⟨before, after, heq⟩ := List.append_of_mem hc
  rw [heq] at hr
  have hsame := hr.skip.declaredClass? hid
  rw [hcls.declares.entry] at hsame
  obtain ⟨final', hfinal', hdeclares⟩ := hr.skip.declares hid hbind
  rw [← Option.some.inj hsame] at hfinal'
  cases hcls.class?.symm.trans hfinal'
  obtain ⟨e, he, hk, hmember⟩ := hdeclares d hdm
  obtain ⟨parent', hparent', hinherits⟩ := hcls.inherits h.lineal hq
  cases hparent.symm.trans hparent'
  obtain ⟨e', he', hoffset, hkind, hsub⟩ := hinherits.member hinherited
  cases hmember.symm.trans he'
  refine ⟨e, he, hk.symm.trans hkind, hoffset, ?_, hsub⟩
  rw [← hk, hkind, hoffset]
  exact hlaid.memberType? hinherited

/-- In a clean program everything has been compared, wherever it stands. -/
theorem Program.Checked.compared (h : p.Checked p.bind.tables) (hid : p.ids.Nodup) (hbind : p.bind.errors = []) :
    p.Compared p.bind.tables where
  args hs := by
    obtain ⟨env, hf, he⟩ := hs.checked h
    exact he.argsCompared hf
  inits hb hd := by
    obtain ⟨⟨env, hdecls⟩, -⟩ := hb.checked h
    obtain ⟨Γ, hvar⟩ := hdecls.exists_checked h.lineal hd
    obtain ⟨hinit, hfit, hdeclares, -⟩ := hvar.var
    exact ⟨_, hdeclares.entry, hinit.fitsIn hvar.fits hfit⟩
  results hf := by
    obtain ⟨env, sig, hchecked⟩ := hf.checked h
    obtain ⟨entry, hentry, hty⟩ := hchecked.entry
    obtain ⟨-, -, hfits, hbody, hfit⟩ := hchecked.body h.lineal
    exact ⟨entry, sig, hentry, hty, hbody.fitsIn hfits hfit⟩
  overrides hb hc hsup := h.overrides hid hbind hb hc hsup

/-- Where the ids of a program are distinct and its binding is clean, an expression has a type of values over the
classes of the program, or checking reports something in it. In a program that passes, the type of the program is told
and everything has been compared with what it has to be below. -/
theorem Program.types_told {p : Program} (hid : p.ids.Nodup) :
    (p.bind.errors = [] → ∀ {scopes : List Names} {e : Expr}, p.Stands scopes e →
      (e.type? p.bind.tables = none → e.typeErrors p.bind.tables ≠ []) ∧
      ∀ ty, e.type? p.bind.tables = some ty → ty.IsValue ∧ Ty.Known p.bind.tables.classes.size ty) ∧
    ∀ {o : Options} {a : Analysis}, o.checkTypes = true → p.analyze o = .ok a →
      (∃ ty, a.type? = some ty ∧ ty.IsValue ∧ Ty.Known a.tables.classes.size ty) ∧ p.Compared a.tables := by
  have hvalue : ∀ {e : Expr} (ty : Ty), e.type? p.bind.tables = some ty →
      ty.IsValue ∧ Ty.Known p.bind.tables.classes.size ty :=
    fun {e} ty h => ⟨Expr.isValue_type p.shaped_tables h, e.known_type p.known_tables ty h⟩
  refine ⟨fun hbind {scopes e} hs => ⟨hs.reported hid hbind, hvalue⟩, fun {o a} ho ha => ?_⟩
  obtain ⟨hbind, htype, rfl⟩ := analyze_eq_ok ho ha
  have h := checked hid hbind htype
  obtain ⟨ty, hty⟩ := h.body.exists_type h.fits
  exact ⟨⟨ty, hty, hvalue ty hty⟩, h.compared hid hbind⟩

/-- A conditional one branch of which calls a variable, so that neither of them has a type. -/
def Program.uncallable : Program := Program.built do
  let x ← Build.var "x" .int (← Build.literal (.int 1))
  let body ← Build.cond (← Build.literal (.bool true)) (← Build.call "x" []) (← Build.literal (.int 2))
  Build.program [x] body

/-- The first part at the conditional, and the second part at a program that passes. -/
theorem Program.types_told_uncallable :
    (uncallable.body.type? uncallable.bind.tables = none ∧ uncallable.body.typeErrors uncallable.bind.tables ≠ []) ∧
      ∃ (a : Analysis) (ty : Ty), overriding.analyze {} = .ok a ∧ a.type? = some ty ∧ ty.IsValue ∧
        overriding.Compared a.tables := by
  constructor
  · have hbind : uncallable.bind.errors = [] := List.isEmpty_iff.1 (by decide +kernel)
    have hnone : uncallable.body.type? uncallable.bind.tables = none := by decide +kernel
    have h := (types_told (p := uncallable) (by decide +kernel)).1 hbind (.body .top)
    exact ⟨hnone, h.1 hnone⟩
  · have hok : (overriding.analyze {}).toOption.isSome := by decide +kernel
    cases ha : overriding.analyze {} with
    | error es =>
      rw [ha] at hok
      cases hok
    | ok a =>
      obtain ⟨⟨ty, hty, hvalue, -⟩, h⟩ := (types_told (p := overriding) (by decide +kernel)).2 rfl ha
      exact ⟨a, ty, rfl, hty, hvalue, h⟩

end ObjLet
