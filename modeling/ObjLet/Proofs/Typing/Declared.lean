import ObjLet.Proofs.Typing.Members
import ObjLet.Syntax.Builder

/-!
# Declarations without errors

`Decl.Checked`, `FunDecl.Checked` and `ClassDecl.Checked` say of declarations what `Expr.Checked` says of
expressions. Each kind of declaration has one lemma that says what it declares (`Env.Declares`) and what
holds of its parts, so that later proofs follow the tree and never the walk. They hold of all declarations
of a program without errors (`Program.checked`).
-/

namespace ObjLet

open Findings

/-! ## What a declaration declares -/

/-- From `env` to `env'` a name is declared in the innermost scope, at the next free offset. -/
structure Env.Declares (r : Resolutions) (env env' : Env) (id : NodeId) (name : String)
    (kind : EntryKind) (ty : Ty) : Prop where
  entry : r.declaration? id = some ⟨kind, env.level, env.nextLocal, ty⟩
  scopes : ∃ s outer, env.scopes.scopes = s :: outer ∧ s[name]? = none ∧
    env'.scopes.scopes = s.insert name ⟨kind, env.level, env.nextLocal, ty⟩ :: outer
  nextLocal : env'.nextLocal = env.nextLocal - ty.words

/-- A local declaration whose findings are all recorded was no duplicate. -/
theorem Env.declares_declareLocal {r : Resolutions} {env : Env} {id : NodeId} {name : Name}
    {kind : EntryKind} {ty : Ty} (h : Recorded r (env.declareLocal id name kind ty).2) :
    env.Declares r (env.declareLocal id name kind ty).1 id name.text kind ty := by
  unfold Env.declareLocal at h ⊢
  obtain ⟨he, s, outer, hs, hn, heq⟩ := Env.declare_of_recorded h
  rw [heq]
  exact ⟨he, ⟨s, outer, hs, hn, rfl⟩, rfl⟩

/-- Only the scopes and the next offset behind a declaration matter. -/
theorem Env.Declares.of_eq {r : Resolutions} {env env' env'' : Env} {id : NodeId} {name : String}
    {kind : EntryKind} {ty : Ty} (h : env.Declares r env' id name kind ty)
    (hs : env''.scopes = env'.scopes) (hn : env''.nextLocal = env'.nextLocal) :
    env.Declares r env'' id name kind ty :=
  ⟨h.entry, by rw [hs]; exact h.scopes, by rw [hn]; exact h.nextLocal⟩

/-! ## Functions -/

/-- The environment of the local declarations of a function. -/
def FunDecl.inner (f : FunDecl) (env : Env) (paramTypes : List Ty) : Env :=
  (env.enterFrame.declareParams Env.firstParam (f.params.zip paramTypes)).1

/-- The environment of the body of a function. -/
def FunDecl.bodyEnv (f : FunDecl) (env : Env) (paramTypes : List Ty) : Env :=
  (Decl.bindAll (f.inner env paramTypes) f.decls).1

/-- Binding and checking find no error in a function that the tables hold with a signature. -/
structure FunDecl.Checked (t : Tables) (env : Env) (sig : Signature) (f : FunDecl) : Prop where
  fits : env.Fits t
  length : f.params.length = sig.params.length
  entry : ∃ e, t.resolutions.declaration? f.id = some e ∧ e.ty = sig.ty
  recorded : Recorded t.resolutions (f.bindBody env sig.params).2
  clean : ∃ routine, f.typeErrors t routine = []

/-! ## Declarations -/

/-- What holds in the outermost block: classes are laid out and known under their names. -/
structure Env.Top (env : Env) : Prop where
  laid : ∀ c ∈ env.classes.classes, ∃ fs ms, c.Laid fs ms
  named : ∀ {name : String} {c : ClassId}, env.classes.lookup? name = some c →
    ∃ e, env.scopes.lookupClass? name = some e ∧ e.declaredClass? = some c

/-- Binding and checking find no error in a declaration. -/
structure Decl.Checked (t : Tables) (env : Env) (d : Decl) : Prop where
  fits : env.Fits t
  recorded : Recorded t.resolutions (d.bind env).2
  clean : d.typeErrors t = []
  known : env.level = 0 → (d.bind env).1.classes.classes <+: t.classes.classes
  top : env.level = 0 → env.Top

/-- The same of a list of declarations. -/
structure Decl.CheckedAll (t : Tables) (env : Env) (ds : List Decl) : Prop where
  fits : env.Fits t
  recorded : Recorded t.resolutions (Decl.bindAll env ds).2
  clean : Decl.typeErrorsAll t ds = []
  known : env.level = 0 → (Decl.bindAll env ds).1.classes.classes <+: t.classes.classes
  top : env.level = 0 → env.Top

/-! ## Classes -/

/-- Nothing is wrong with the methods that are left in a class body, and with them the class becomes
`final`. -/
structure ClassBody.Checked (t : Tables) (s : ClassSite) (final : Class) (b : ClassBody) (cur : Class)
    (fs ms : List String) (methods : List FunDecl) : Prop where
  built : b.Built s cur fs ms
  fits : s.around.Fits t
  known : s.old ++ [final] <+: t.classes.classes
  ends : (b.bindMethods methods).1.env.classes.classes = s.old ++ [final]
  recorded : Recorded t.resolutions (b.bindMethods methods).2
  clean : FunDecl.typeErrorsAll t methods = []
  overrides : ∀ m ∈ methods, t.Overrides s.start .method m.id m.name.text

/-- What a class starts from: nothing, or the members of the class that the superclass name stands
for. -/
inductive ClassSite.Extends (t : Tables) (env : Env) (s : ClassSite) (name : String) :
    Option Name → Prop where
  | root (hs : s.start = ClassTable.newClass s.old.length name none) (hf : s.inheritedFields = [])
    (hm : s.inheritedMethods = []) : Extends t env s name none
  | sub {sup : Name} {e : Entry} {p : ClassId} {parent : Class}
    (he : env.scopes.lookupClass? sup.text = some e) (hp : e.declaredClass? = some p)
    (hlt : p < s.old.length) (hc : t.classes.class? p = some parent)
    (hl : parent.Laid s.inheritedFields s.inheritedMethods)
    (hs : s.start = ClassTable.newClass s.old.length name (some parent)) : Extends t env s name (some sup)

/-- Binding and checking find no error in a class, which becomes `final`. Its fields have been declared in
the body before its methods. -/
structure ClassDecl.Checked (t : Tables) (env env' : Env) (c : ClassDecl) (s : ClassSite)
    (final : Class) : Prop where
  level : env.level = 0
  old : s.old = env.classes.classes
  declares : env.Declares t.resolutions s.around c.id c.name.text .cls (.cls s.old.length)
  after : env' = { s.around with classes := ⟨s.old ++ [final]⟩ }
  super : s.Extends t env c.name.text c.superclass
  members : ∃ b cur, ClassBody.Checked t s final b cur
      (s.inheritedFields ++ (c.fields.map (·.name.text)).filter (· ∉ s.inheritedFields))
      s.inheritedMethods c.methods ∧
    b.declared = (c.fields.map (·.name.text)).reverse ∧
    s.start.members.Refines t.classes cur.members

namespace ClassBody.Checked

variable {t : Tables} {s : ClassSite} {final cur : Class} {b : ClassBody} {fs ms : List String}
  {m : FunDecl} {methods : List FunDecl}

/-- The members of a class keep their places to the end of its body. -/
theorem grows (ht : t.classes.Lineal) (h : b.Checked t s final cur fs ms methods) :
    ClassBody.Grows t.classes b cur (methods.map (·.name.text)) (b.bindMethods methods).1 final ∧
      (b.bindMethods methods).1.Built s final fs
        (ms ++ (methods.map (·.name.text)).filter (· ∉ s.inheritedMethods)) := by
  obtain ⟨last, hlast, hgrow⟩ := h.built.bindMethods ht methods h.recorded h.overrides
  have heq : last = final := by
    have := hlast.site.classes.symm.trans h.ends
    simpa using this
  subst heq
  exact ⟨hgrow, hlast⟩

theorem head (ht : t.classes.Lineal) (h : b.Checked t s final cur fs ms methods) :
    final.layout.head = cur.layout.head :=
  (h.grows ht).2.head.trans h.built.head.symm

theorem env_fits (ht : t.classes.Lineal) (h : b.Checked t s final cur fs ms methods) :
    b.env.Fits t := by
  exact h.built.fits h.fits h.known (h.grows ht).1.refines (h.head ht)

/-- The next method is clean in the environment after its declaration, and so are the others. -/
theorem cons (ht : t.classes.Lineal) (h : b.Checked t s final cur fs ms (m :: methods)) :
    ∃ b' cur', ClassBody.Checked t s final b' cur' fs
        (ms ++ [m.name.text].filter (· ∉ s.inheritedMethods)) methods ∧
      ClassBody.Grows t.classes b cur [m.name.text] b' cur' ∧
      m.Checked t b'.env (m.signature b.env.classes) ∧
      ∃ e, t.resolutions.declaration? m.id = some e ∧ cur'.members[m.name.text]? = some e ∧
        e.kind = .method ∧ e.ty = (m.signature b.env.classes).ty := by
  obtain ⟨hom, homs⟩ := List.forall_mem_cons.1 h.overrides
  have hr := h.recorded
  have hends := h.ends
  have hclean := h.clean
  simp only [ClassBody.bindMethods, recorded_append] at hr hends
  rw [FunDecl.typeErrorsAll, List.append_eq_nil_iff] at hclean
  -- The method is a member before its body is walked, and the body leaves the members alone.
  obtain ⟨cur', hb', hgrow, e, he, hmem, hk, hty⟩ := h.built.declareMethod hr.1.1.2 hom
  rw [hb'.site.bindMethod hr.1.2] at hr hends
  have hrest : ClassBody.Checked t s final (b.declareMethod m (m.signature b.env.classes)).1 cur' fs
      (ms ++ [m.name.text].filter (· ∉ s.inheritedMethods)) methods :=
    ⟨hb', h.fits, h.known, hends, hr.2, hclean.2, homs⟩
  exact ⟨_, cur', hrest, hgrow,
    ⟨hrest.env_fits ht, by simp [FunDecl.signature], ⟨e, he, hty⟩, hr.1.2, .method, hclean.1⟩,
    e, he, hmem, hk, hty⟩

/-- The methods of a clean class from a given one on, in a class body that has grown by those in front. -/
theorem split (ht : t.classes.Lineal) (pre : List FunDecl) {post : List FunDecl} :
    ∀ {b : ClassBody} {cur : Class} {ms : List String},
      b.Checked t s final cur fs ms (pre ++ m :: post) →
      ∃ b' cur', ClassBody.Checked t s final b' cur' fs
          (ms ++ (pre.map (·.name.text)).filter (· ∉ s.inheritedMethods)) (m :: post) ∧
        ClassBody.Grows t.classes b cur (pre.map (·.name.text)) b' cur' := by
  induction pre with
  | nil =>
    intro b cur ms h
    exact ⟨b, cur, by simpa using h, .refl _ _ _⟩
  | cons p pre ih =>
    intro b cur ms h
    obtain ⟨mid, curMid, hmid, hgrow, -⟩ := h.cons ht
    obtain ⟨b', cur', h', hgrow'⟩ := ih hmid
    refine ⟨b', cur', ?_, hgrow.trans ht hgrow'⟩
    rwa [List.append_assoc, ← List.filter_append] at h'

end ClassBody.Checked

/-! ## Inversion -/

section Inversion

variable {t : Tables} {env : Env}

theorem Env.Fits.singleton (h : env.Fits t) (hl : env.level = 0) :
    ∃ s, env.scopes.scopes = [s] := by
  have hd := h.level_succ
  rw [hl] at hd
  exact List.length_eq_one_iff.1 hd.symm

/-- A clean variable: its value fits the type that is written, and the name has that type. -/
theorem Decl.Checked.var {id : NodeId} {name : Name} {type : TypeExpr} {init : Expr} {span : Span}
    (h : (Decl.var id name type init span).Checked t env) :
    init.Checked t env ∧
      (∀ ty, init.type? t = some ty → t.classes.isSubtype ty (type.resolve env.classes)) ∧
      env.Declares t.resolutions ((Decl.var id name type init span).bind env).1 id name.text .var
        (type.resolve env.classes) ∧
      ((Decl.var id name type init span).bind env).1.classes = env.classes := by
  have hr := h.recorded
  have hclean := h.clean
  simp only [Decl.bind, recorded_append] at hr ⊢
  have hd := Env.declares_declareLocal hr.2
  simp only [Decl.typeErrors, hd.entry, List.append_eq_nil_iff] at hclean
  exact ⟨⟨hr.1.1, hclean.1⟩, Tables.fit_eq_nil.1 hclean.2, hd, by simp⟩

/-- A clean function is declared before its body is walked, so that it may call itself. -/
theorem Decl.Checked.func {f : FunDecl} (h : (Decl.func f).Checked t env) :
    env.Declares t.resolutions ((Decl.func f).bind env).1 f.id f.name.text .func
        (f.signature env.classes).ty ∧
      ((Decl.func f).bind env).1.classes = env.classes ∧
      f.Checked t ((Decl.func f).bind env).1 (f.signature env.classes) := by
  have hr := h.recorded
  have hclean := h.clean
  simp only [Decl.bind, recorded_append] at hr ⊢
  have hd := Env.declares_declareLocal hr.1.2
  have hpos := h.fits.depth_pos
  have hsame := FunDecl.classes_bindBody (by rw [Env.depth_declareLocal]; omega) _ f hr.2
  have hfits : (env.declareLocal f.id f.name .func (f.signature env.classes).ty).1.Fits t :=
    h.fits.declareLocal f.id f.name ⟨by rintro ⟨⟩, fun _ => ⟨_, rfl⟩⟩
  rw [hsame]
  exact ⟨hd, by simp, hfits, by simp [FunDecl.signature], ⟨_, hd.entry, rfl⟩, hr.2, .function, hclean⟩

/-- A clean superclass name stands for a class of the table. -/
theorem Env.superclass_cases {cls : Name} {superclass : Option Name}
    (h : Recorded t.resolutions (env.superclass cls superclass).2) :
    (superclass = none ∧ (env.superclass cls superclass).1 = none) ∨
      ∃ sup p, superclass = some sup ∧ env.classes.lookup? sup.text = some p ∧
        (env.superclass cls superclass).1 = some p := by
  unfold Env.superclass at h ⊢
  split at h
  · exact .inl ⟨rfl, rfl⟩
  next sup =>
  split at h
  · next p hp => exact .inr ⟨sup, p, rfl, hp, rfl⟩
  · exact (recorded_cons.1 h).1.elim

theorem ClassTable.lookup?_eq_some {u : ClassTable} {name : String} {p : ClassId}
    (h : u.lookup? name = some p) : ∃ parent, u.class? p = some parent := by
  have hlt := (List.findIdx?_eq_some_iff_getElem.1 h).1
  exact ⟨_, List.getElem?_eq_getElem hlt⟩

/-- Classes that are declared keep their positions when others are added. -/
theorem ClassTable.class?_of_prefix {u v : ClassTable} (h : u.classes <+: v.classes) {c : ClassId}
    {cls : Class} (hc : u.class? c = some cls) : v.class? c = some cls := by
  obtain ⟨rest, hrest⟩ := h
  rw [class?, ← hrest, List.getElem?_append_left (List.getElem?_eq_some_iff.1 hc).1]
  exact hc

theorem ClassTable.layout?_of_prefix {u v : ClassTable} (h : u.classes <+: v.classes) {c : ClassId}
    {l : ClassLayout} (hl : u.layout? c = some l) : v.layout? c = some l := by
  obtain ⟨cls, hcls, rfl⟩ := Option.map_eq_some_iff.1 hl
  rw [layout?, class?_of_prefix h hcls]
  rfl

/-- A class starts laid out, from nothing or from its superclass. -/
theorem Env.exists_classSite (id : NodeId) {name : Name} {superclass : Option Name} (htop : env.Top)
    (hd : env.scopes.depth = 1) (hknown : env.classes.classes <+: t.classes.classes)
    (h : Recorded t.resolutions (env.superclass name superclass).2) :
    ∃ s : ClassSite, s.around = (env.declareClass id name superclass).2.1 ∧
      s.old = env.classes.classes ∧ s.start = env.startClass name superclass ∧
      s.Extends t env name.text superclass := by
  have hd' : (env.declareClass id name superclass).2.1.scopes.depth = 1 := by
    rw [Env.depth_declareClass, hd]
  -- The superclass is looked up among classes and not in scopes; in the outermost block that is the same.
  obtain ⟨rfl, -⟩ | ⟨sup, p, rfl, hp, hsome⟩ := env.superclass_cases h
  · exact ⟨⟨_, _, env.startClass name none, [], [], hd', env.classes_declareClass_eq id name none,
      Class.Laid.newClass_none _ _⟩, rfl, rfl, rfl, .root rfl rfl rfl⟩
  · obtain ⟨parent, hparent⟩ := ClassTable.lookup?_eq_some hp
    obtain ⟨hlt, hget⟩ := List.getElem?_eq_some_iff.1 hparent
    obtain ⟨fs, ms, hl⟩ := htop.laid parent (List.mem_of_getElem? hparent)
    obtain ⟨e, he, hc⟩ := htop.named hp
    have hstart : env.startClass name (some sup) =
        ClassTable.newClass env.classes.classes.length name.text (some parent) := by
      rw [Env.startClass, hsome, Option.bind_some, hparent]
      rfl
    have hparent' : t.classes.class? p = some parent := ClassTable.class?_of_prefix hknown hparent
    refine ⟨⟨_, _, env.startClass name (some sup), fs, ms, hd',
      env.classes_declareClass_eq id name (some sup), ?_⟩, rfl, rfl, rfl,
      .sub he hc hlt hparent' hl hstart⟩
    rw [hstart]
    exact hl.newClass_some _ _

/-- The class that the superclass name of a class stands for is its superclass. -/
theorem ClassSite.Extends.exists_parent (ht : t.classes.Lineal) {s : ClassSite} {name : String} {sup : Name}
    (h : s.Extends t env name (some sup)) {l : ClassLayout} (hh : l.head = s.start.layout.head) :
    ∃ p parent, l.superclass = some p ∧ t.classes.class? p = some parent ∧
      parent.Laid s.inheritedFields s.inheritedMethods ∧
      s.start = ClassTable.newClass s.old.length name (some parent) := by
  obtain - | ⟨-, -, -, hparent, hlaid, hs⟩ := h
  refine ⟨_, _, ?_, hparent, hlaid, hs⟩
  rw [(ClassLayout.head_eq_iff.1 hh).2.2.1, hs, ← ht.id_eq (Option.map_eq_some_iff.2 ⟨_, hparent, rfl⟩)]
  rfl

/-- The superclass of a class, as its overriding members are checked against it. -/
theorem Tables.parentLayout?_eq_some {id : NodeId} {e : Entry} {c p : ClassId} {parent : Class} {l : ClassLayout}
    (he : t.resolutions.declaration? id = some e) (hc : e.declaredClass? = some c)
    (hl : t.classes.layout? c = some l) (hsup : l.superclass = some p) (hp : t.classes.class? p = some parent) :
    t.parentLayout? id = some parent.layout := by
  have hlp : t.classes.layout? p = some parent.layout := Option.map_eq_some_iff.2 ⟨parent, hp, rfl⟩
  simp [Tables.parentLayout?, he, hc, hl, hsup, hlp]

/-- Where there are members to override, they are those of the superclass. -/
theorem ClassSite.Extends.parentLayout? (ht : t.classes.Lineal) {s : ClassSite} {name : String}
    {superclass : Option Name} (h : s.Extends t env name superclass) {id : NodeId} {e : Entry}
    (he : t.resolutions.declaration? id = some e) (hc : e.declaredClass? = some s.old.length)
    {l : ClassLayout} (hl : t.classes.layout? s.old.length = some l)
    (hh : l.head = s.start.layout.head) :
    s.start.members = ∅ ∨ ∃ parent, t.parentLayout? id = some parent ∧
      parent.fields = s.start.layout.fields ∧ parent.methods = s.start.layout.methods := by
  cases superclass with
  | none =>
    obtain ⟨hs, -, -⟩ := h
    refine .inl ?_
    rw [hs]
    rfl
  | some sup =>
    obtain ⟨p, parent, hsup, hp, -, hs⟩ := h.exists_parent ht hh
    exact .inr ⟨parent.layout, Tables.parentLayout?_eq_some he hc hl hsup hp, by rw [hs]; rfl, by rw [hs]; rfl⟩

/-- Fitting is kept when a class is added as the last one, be it complete or not. -/
theorem Env.Fits.concat (h : env.Fits t) {u : ClassTable} {old : List Class} {cur final : Class}
    {fs ms : List String} (hu : u.classes = old ++ [cur])
    (hold : ∀ c ∈ old, c ∈ env.classes.classes) (hknown : old ++ [final] <+: t.classes.classes)
    (hl : cur.Laid fs ms) (hr : cur.members.Refines t.classes final.members)
    (hh : final.layout.head = cur.layout.head) : Env.Fits t { env with classes := u } := by
  obtain ⟨hclass, hmember⟩ := ClassTable.fits_concat hu hknown
    (fun c hc _ _ he => h.member_of_mem (hold c hc) he) hl hr hh
  exact ⟨h.nonempty, h.level, h.entry, hclass, hmember⟩

/-- A clean class: there is a site at which it stands and a class that it becomes, which is in the final table. -/
theorem Decl.Checked.cls (ht : t.classes.Lineal) {c : ClassDecl} (h : (Decl.cls c).Checked t env) :
    ∃ s final, c.Checked t env ((Decl.cls c).bind env).1 s final := by
  obtain ⟨id, name, superclass, fields, methods, span⟩ := c
  have hr := h.recorded
  have hclean := h.clean
  simp only [Decl.bind, recorded_append] at hr
  simp only [Decl.typeErrors, List.append_eq_nil_iff] at hclean
  obtain ⟨⟨hhead, hrf⟩, hrm⟩ := hr
  have hl := Env.level_of_declareClass hhead
  have hknown := h.known hl
  have hpos := h.fits.depth_pos
  have hdepth : env.scopes.depth = 1 := by
    have := h.fits.level_succ
    omega
  simp only [Env.declareClass, recorded_append] at hhead
  -- Classes are only ever added, so what is in the table here is in the final one.
  have hold : env.classes.classes <+: t.classes.classes :=
    (Decl.classes_prefix_bind (by omega) h.recorded).trans hknown
  obtain ⟨s, haround, hsold, hstart, hext⟩ :=
    env.exists_classSite id (h.top hl) hdepth hold hhead.1.2
  have hdecl : env.Declares t.resolutions s.around id name.text .cls (.cls s.old.length) := by
    rw [haround, hsold]
    have hd := Env.declares_declareLocal hhead.2
    exact ⟨hd.entry, hd.scopes, hd.nextLocal⟩
  -- The head of the class is settled before its members are, so its superclass is known.
  let b₀ := ClassBody.enter (env.declareClass id name superclass).2.1
    (env.declareClass id name superclass).1 name.text
  have hb₀ : b₀.Built s s.start s.inheritedFields s.inheritedMethods := by
    refine ⟨?_, s.laid, rfl, fun _ _ => rfl⟩
    rw [hsold, hstart, haround]
    exact env.enter_declareClass id name superclass
  have hcls₀ : b₀.env.classes.class? s.old.length = some s.start := by
    rw [← hb₀.site.cls]
    exact hb₀.site.class?
  have hbody : ((Decl.cls ⟨id, name, superclass, fields, methods, span⟩).bind env).1.classes =
      ((b₀.declareFields fields).1.bindMethods methods).1.env.classes := rfl
  obtain ⟨l, hl₁, hhl⟩ := ((ClassBody.evolves_declareFields fields b₀).trans
    (ClassBody.evolves_bindMethods _ methods)).layout? (c := s.old.length) (l := s.start.layout)
    (by rw [ClassTable.layout?, hcls₀]; rfl)
  rw [← hbody] at hl₁
  have hlt : t.classes.layout? s.old.length = some l := ClassTable.layout?_of_prefix hknown hl₁
  -- Overriding is checked in the final table, in which the superclass is as it was here.
  have hover := Tables.overrides_of_fitOverrides s.laid
    (hext.parentLayout? ht hdecl.entry rfl hlt hhl) hclean.1
  have hnext : b₀.nextField = s.start.layout.nextFieldOffset := by
    rw [hstart]
    exact ClassBody.nextField_enter name.text (env.classes_declareClass_eq id name superclass)
  -- Fields first and then methods. What each of them adds is refined by what follows.
  obtain ⟨mid, hmid, hmidgrow⟩ := hb₀.declareFields ht fields hnext hrf hover.1
  obtain ⟨final, hfin, hfingrow⟩ := hmid.bindMethods ht methods hrm hover.2
  have hends := hfin.site.classes
  rw [hbody, hends] at hknown
  -- The environment has the class in it while the class is still without members; the final class refines it.
  have haround_fits : s.around.Fits t := by
    rw [haround]
    refine Env.Fits.declareLocal ?_ id name ⟨fun _ => ⟨_, l, rfl, ?_⟩, by rintro (hk | hk) <;> cases hk⟩
    · have hu : (env.classes.declare name.text (env.superclass name superclass).1).2.classes =
          s.old ++ [s.start] := by
        rw [hsold, hstart]
        rfl
      refine h.fits.concat hu ?_ hknown s.laid (hmidgrow.refines.trans ht hfingrow.refines) hfin.head
      rw [hsold]
      exact fun c hc => hc
    · rw [hsold] at hlt
      exact hlt
  refine ⟨s, final, hl, hsold, hdecl, ?_, hext, _, mid, ⟨hmid, haround_fits, hknown, hends, hrm,
    hclean.2, hover.2⟩, by simpa [b₀, ClassBody.enter] using hmidgrow.declared, hmidgrow.refines⟩
  have hmk : ((b₀.declareFields fields).1.bindMethods methods).1.env.classes = ⟨s.old ++ [final]⟩ :=
    congrArg ClassTable.mk hends
  rw [haround, ← hmk]
  rfl

/-! ## After a declaration -/

namespace ClassDecl.Checked

variable {env' : Env} {c : ClassDecl} {s : ClassSite} {final : Class}

/-- The finished class is in the final table, behind those declared before it. -/
theorem known (h : c.Checked t env env' s final) : s.old ++ [final] <+: t.classes.classes := by
  obtain ⟨b, cur, hm, -, -⟩ := h.members
  exact hm.known

theorem class? (h : c.Checked t env env' s final) :
    t.classes.class? s.old.length = some final := by
  obtain ⟨rest, hrest⟩ := h.known
  rw [ClassTable.class?, ← hrest, List.getElem?_append_left (by simp)]
  exact List.getElem?_concat_length

/-- The names of the fields and methods of the finished class. -/
theorem laid (ht : t.classes.Lineal) (h : c.Checked t env env' s final) :
    final.Laid
      (s.inheritedFields ++ (c.fields.map (·.name.text)).filter (· ∉ s.inheritedFields))
      (s.inheritedMethods ++ (c.methods.map (·.name.text)).filter (· ∉ s.inheritedMethods)) := by
  obtain ⟨b, cur, hm, -, -⟩ := h.members
  exact (hm.grows ht).2.laid

theorem head (ht : t.classes.Lineal) (h : c.Checked t env env' s final) :
    final.layout.head = s.start.layout.head := by
  obtain ⟨b, cur, hm, -, -⟩ := h.members
  exact (hm.grows ht).2.head

/-- The finished class still has the name that was declared. -/
theorem name_final (ht : t.classes.Lineal) (h : c.Checked t env env' s final) :
    final.layout.name = c.name.text := by
  rw [(ClassLayout.head_eq_iff.1 (h.head ht)).2.1]
  have hsuper := h.super
  generalize c.superclass = sup at hsuper
  cases hsuper with
  | root hs _ _ => rw [hs]; rfl
  | sub _ _ _ _ _ hs => rw [hs]; rfl

theorem fits (ht : t.classes.Lineal) (h : c.Checked t env env' s final) : env'.Fits t := by
  obtain ⟨b, cur, hm, -, -⟩ := h.members
  rw [h.after]
  have hold : ∀ d ∈ s.old, d ∈ s.around.classes.classes := by
    intro d hd
    rw [s.classes]
    exact List.mem_append_left _ hd
  exact hm.fits.concat rfl hold hm.known (h.laid ht) (Scope.Refines.refl _ _) rfl

end ClassDecl.Checked

/-- The environment after a clean declaration fits the tables. -/
theorem Decl.Checked.fits_bind (ht : t.classes.Lineal) {d : Decl} (h : d.Checked t env) :
    (d.bind env).1.Fits t := by
  cases d with
  | var id name type init span =>
    simp only [Decl.bind]
    exact h.fits.declareLocal id name ⟨nofun, by rintro (hk | hk) <;> cases hk⟩
  | func f => exact h.func.2.2.fits
  | cls c =>
    obtain ⟨s, final, hc⟩ := h.cls ht
    exact hc.fits ht

/-- A declaration does not hide a class. -/
theorem Env.Top.named_of_declares (h : env.Top) (hf : env.Fits t) (hl : env.level = 0) {env' : Env}
    {id : NodeId} {name : String} {kind : EntryKind} {ty : Ty}
    (hd : env.Declares t.resolutions env' id name kind ty) {n : String} {c : ClassId}
    (hn : env.classes.lookup? n = some c) :
    n ≠ name ∧ ∃ e, env'.scopes.lookupClass? n = some e ∧ e.declaredClass? = some c := by
  obtain ⟨s, hs⟩ := hf.singleton hl
  obtain ⟨s', outer, hs', hnone, hafter⟩ := hd.scopes
  rw [hs] at hs'
  cases hs'
  obtain ⟨e, he, hc⟩ := h.named hn
  simp only [ScopeStack.lookupClass?, hs, List.findSome?_cons, List.findSome?_nil] at he
  have hne : n ≠ name := by
    rintro rfl
    simp [hnone] at he
  refine ⟨hne, e, ?_, hc⟩
  simp only [ScopeStack.lookupClass?, hafter, List.findSome?_cons, List.findSome?_nil,
    Scope.getElem?_insert, if_neg (Ne.symm hne)]
  exact he

/-- Behind a clean declaration of the outermost block, classes are still laid out and known under their names. -/
theorem Decl.Checked.top_bind (ht : t.classes.Lineal) {d : Decl} (h : d.Checked t env)
    (hl : env.level = 0) : (d.bind env).1.Top := by
  have htop := h.top hl
  cases d with
  | var id name type init span =>
    obtain ⟨-, -, hd, hsame⟩ := h.var
    refine ⟨by rw [hsame]; exact htop.laid, fun hn => ?_⟩
    rw [hsame] at hn
    exact (htop.named_of_declares h.fits hl hd hn).2
  | func f =>
    obtain ⟨hd, hsame, -⟩ := h.func
    refine ⟨by rw [hsame]; exact htop.laid, fun hn => ?_⟩
    rw [hsame] at hn
    exact (htop.named_of_declares h.fits hl hd hn).2
  | cls c =>
    obtain ⟨s, final, hc⟩ := h.cls ht
    rw [hc.after]
    constructor
    · intro d hd
      rcases List.mem_append.1 hd with hd | hd
      · rw [hc.old] at hd
        exact htop.laid d hd
      · cases List.mem_singleton.1 hd
        exact ⟨_, _, hc.laid ht⟩
    · intro n id hn
      -- The new class is the last one, so its name is found there if no class before it has the name.
      have hlook : (ClassTable.mk (s.old ++ [final])).lookup? n =
          (env.classes.lookup? n).or (if c.name.text = n then some s.old.length else none) := by
        simp only [ClassTable.lookup?, List.findIdx?_append, List.findIdx?_cons, hc.old, hc.name_final ht,
          beq_iff_eq]
        split <;> simp
      rw [hlook] at hn
      cases hold : env.classes.lookup? n with
      | some id' =>
        rw [hold] at hn
        cases hn
        exact (htop.named_of_declares h.fits hl hc.declares hold).2
      | none =>
        rw [hold, Option.none_or] at hn
        split at hn
        · next heq =>
          cases hn
          obtain ⟨sc, outer, -, -, hafter⟩ := hc.declares.scopes
          refine ⟨⟨.cls, env.level, env.nextLocal, .cls s.old.length⟩, ?_, rfl⟩
          simp [ScopeStack.lookupClass?, hafter, heq]
        · cases hn

/-! ## Bodies and programs -/

/-- The first declaration of a clean list is clean where it stands, and the others are so behind it. -/
theorem Decl.CheckedAll.cons (ht : t.classes.Lineal) {d : Decl} {ds : List Decl}
    (h : Decl.CheckedAll t env (d :: ds)) :
    d.Checked t env ∧ Decl.CheckedAll t (d.bind env).1 ds := by
  have hr := h.recorded
  have hclean := h.clean
  simp only [Decl.bindAll, recorded_append] at hr
  rw [Decl.typeErrorsAll, List.append_eq_nil_iff] at hclean
  have hd : d.Checked t env := by
    refine ⟨h.fits, hr.1, hclean.1, fun hl => ?_, h.top⟩
    -- What the first declaration leaves is a front part of what all of them leave.
    refine (Decl.classes_prefix_bindAll ds ?_ hr.2).trans (h.known hl)
    have := h.fits.depth_pos
    rw [Decl.depth_bind]
    omega
  refine ⟨hd, hd.fits_bind ht, hr.2, hclean.2, fun hl => ?_, fun hl => ?_⟩
  · rw [Decl.level_bind] at hl
    exact h.known hl
  · rw [Decl.level_bind] at hl
    exact hd.top_bind ht hl

theorem Decl.CheckedAll.fits_bindAll (ht : t.classes.Lineal) {ds : List Decl}
    (h : Decl.CheckedAll t env ds) : (Decl.bindAll env ds).1.Fits t := by
  induction ds generalizing env with
  | nil => exact h.fits
  | cons d ds ih => exact ih (h.cons ht).2

/-- Inside a function one is not in the outermost block, so no class can be declared there. -/
theorem FunDecl.level_inner_ne_zero (f : FunDecl) (hf : env.Fits t) (paramTypes : List Ty) :
    (f.inner env paramTypes).level ≠ 0 := by
  have := hf.depth_pos
  simp only [FunDecl.inner, Env.level, ScopeStack.level, Env.depth_declareParams,
    Env.depth_enterFrame]
  omega

/-- The local declarations and the body of a clean function are clean, and its body fits its result. -/
theorem FunDecl.Checked.body (ht : t.classes.Lineal) {sig : Signature} {f : FunDecl}
    (h : f.Checked t env sig) :
    Recorded t.resolutions
        (env.enterFrame.declareParams Env.firstParam (f.params.zip sig.params)).2 ∧
      Decl.CheckedAll t (f.inner env sig.params) f.decls ∧
      (f.bodyEnv env sig.params).Fits t ∧
      f.body.Checked t (f.bodyEnv env sig.params) ∧
      ∀ ty, f.body.type? t = some ty → t.classes.isSubtype ty sig.ret := by
  have hr := h.recorded
  obtain ⟨routine, hclean⟩ := h.clean
  obtain ⟨e, he, hty⟩ := h.entry
  rw [FunDecl.bindBody_eq] at hr
  simp only [recorded_append] at hr
  obtain ⟨id, name, params, ret, decls, body, span⟩ := f
  simp only [FunDecl.typeErrors, List.append_eq_nil_iff] at hclean
  have hl := FunDecl.level_inner_ne_zero ⟨id, name, params, ret, decls, body, span⟩ h.fits sig.params
  -- What is required of the outermost block is void here.
  have hall : Decl.CheckedAll t
      ((⟨id, name, params, ret, decls, body, span⟩ : FunDecl).inner env sig.params) decls :=
    ⟨h.fits.enterFrame.declareParams _, hr.1.2, hclean.1.1, fun h0 => absurd h0 hl,
      fun h0 => absurd h0 hl⟩
  refine ⟨hr.1.1, hall, hall.fits_bindAll ht, ⟨hr.2, hclean.1.2⟩, ?_⟩
  have hres := hclean.2
  simp only [Tables.fitResult, he, hty, Option.bind_some, Ty.signature?_ty] at hres
  exact Tables.fit_eq_nil.1 hres

end Inversion

/-- In the initial environment there is nothing that would have to fit. -/
theorem Env.fits_initial (t : Tables) : Env.initial.Fits t := by
  refine ⟨by simp [Env.initial, ScopeStack.push], ?_, ?_, ?_, ?_⟩
  · intro i s name e hi he
    cases i with
    | zero =>
      cases hi
      simp at he
    | succ i => cases hi
  · intro s name e hs he
    cases List.mem_singleton.1 hs
    simp at he
  · intro id c hc
    simp [ClassTable.class?, Env.initial, ClassTable.empty] at hc
  · intro id c name e hc
    simp [ClassTable.class?, Env.initial, ClassTable.empty] at hc

/-- The environment of the body of a program. -/
def Program.bodyEnv (p : Program) : Env := (Decl.bindAll .initial p.decls).1

/-- What holds of the parts of a program without errors. -/
structure Program.Checked (t : Tables) (p : Program) : Prop where
  lineal : t.classes.Lineal
  decls : Decl.CheckedAll t .initial p.decls
  fits : p.bodyEnv.Fits t
  body : p.body.Checked t p.bodyEnv

/-- Where the ids of a program are distinct, and binding and checking find no error, all its parts are
clean. -/
theorem Program.checked {p : Program} (hid : p.ids.Nodup) (hbind : p.bind.errors = [])
    (htype : p.typeErrors p.bind.tables = []) : p.Checked p.bind.tables := by
  have hr := Program.recorded hid hbind
  have ht := p.lineal
  simp only [Program.walk, recorded_append] at hr
  simp only [Program.typeErrors, List.append_eq_nil_iff] at htype
  have hall : Decl.CheckedAll p.bind.tables .initial p.decls := by
    refine ⟨Env.fits_initial _, hr.1, htype.1, fun _ => List.prefix_rfl, fun _ => ⟨nofun, ?_⟩⟩
    intro name c hc
    simp [ClassTable.lookup?, Env.initial, ClassTable.empty] at hc
  exact ⟨ht, hall, hall.fits_bindAll ht, hr.2, htype.2⟩

/-! ## A sample -/

/-- The tree that building ends with. -/
def Program.built (b : Build Program) : Program := (b.run {}).1

/-- A class, a subclass that overrides its method, and a call of the method through the superclass. -/
def Program.overriding : Program := Program.built do
  let get ← Build.function "get" [] .int [] (← Build.ident "a")
  let a ← Build.cls "A" none [← Build.param "a" .int] [get]
  let sum ← Build.binary .add (← Build.ident "a") (← Build.ident "a")
  let get' ← Build.function "get" [] .int [] sum
  let b ← Build.cls "B" (some "A") [] [get']
  let x ← Build.var "x" (← Build.refType "A") (← Build.new "B" [← Build.literal (.int 21)])
  Build.program [.cls a, .cls b, x] (← Build.methodCall "x" "get" [])

end ObjLet
