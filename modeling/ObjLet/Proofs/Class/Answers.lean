import ObjLet.Proofs.Binding.Accounted
import ObjLet.Proofs.Class.Inherit

/-!
# Methods that calls are bound to

A call is bound while classes are still being built: it sees a method as it was declared so far, perhaps that of
a superclass which is overridden further down. In a program without errors the final class and all classes
that descend from it answer the call (`ClassTable.Answers`, `Program.calls_answered`): they have the method at
the offset that the call has recorded, with a subtype of the recorded type.
-/

namespace ObjLet

open Findings

variable {p : Program} {t : Tables} {env : Env} {P : String → Entry → Prop}

/-- The class has a method of a name in the place of an entry, with a subtype of its type. -/
def Class.Offers (t : ClassTable) (c : Class) (name : String) (m : Entry) : Prop :=
  ∃ m', c.members[name]? = some m' ∧ m'.kind = .method ∧ m'.offset = m.offset ∧ t.isSubtype m'.ty m.ty

/-- A class and those that descend from it offer a method in a slot that their dispatch tables have. -/
structure ClassTable.Answers (t : ClassTable) (id : ClassId) (name : String) (m : Entry) : Prop where
  exists_class : ∃ c, t.class? id = some c ∧ c.layout.isDescendantOf id
  offers : ∀ {idd : ClassId} {d : Class}, t.class? idd = some d → d.layout.isDescendantOf id → d.Offers t name m
  slot : ∀ {idd : ClassId} {d : Class}, t.class? idd = some d → d.layout.isDescendantOf id →
    0 ≤ m.offset ∧ m.offset < d.layout.methods.length

/-! ## Methods in scope -/

/-- In the scopes around a place the methods have a property. -/
def Env.MethodsAre (P : String → Entry → Prop) (env : Env) : Prop :=
  ∀ s ∈ env.scopes.scopes, ∀ (name : String) (e : Entry), s[name]? = some e → e.kind = .method → P name e

namespace Env.MethodsAre

/-- Only the scopes say what methods there are. -/
theorem of_scopes_eq {env' : Env} (h : env.MethodsAre P) (hs : env'.scopes = env.scopes) : env'.MethodsAre P := by
  unfold Env.MethodsAre
  rw [hs]
  exact h

/-- Declarations of other kinds put no method into scope. -/
theorem declare (h : env.MethodsAre P) (id : NodeId) (name : Name) (entry : Entry) (hk : entry.kind ≠ .method) :
    (env.declare id name entry).1.MethodsAre P :=
  Env.all_declare (P := fun n e => e.kind = .method → P n e) h id name fun hm => absurd hm hk

theorem declareLocal (h : env.MethodsAre P) (id : NodeId) (name : Name) (kind : EntryKind) (ty : Ty)
    (hk : kind ≠ .method) : (env.declareLocal id name kind ty).1.MethodsAre P := by
  have h' : MethodsAre P { env with nextLocal := env.nextLocal - ty.words } := h
  exact h'.declare id name ⟨kind, env.level, env.nextLocal, ty⟩ hk

/-- Parameters are no methods. -/
theorem declareParams (pts : List (Param × Ty)) :
    ∀ {env : Env} {next : Int}, env.MethodsAre P → (env.declareParams next pts).1.MethodsAre P := by
  induction pts with
  | nil => exact fun h => h
  | cons pt pts ih =>
    intro env next h
    exact ih (h.declare pt.1.id pt.1.name ⟨.param, env.level, next + pt.2.words - 1, pt.2⟩ nofun)

/-- Inside a function the methods are those around it. -/
theorem inner (h : env.MethodsAre P) (f : FunDecl) (paramTypes : List Ty) : (f.inner env paramTypes).MethodsAre P := by
  apply declareParams
  intro s hs name e he hm
  obtain rfl | hs := List.mem_cons.1 hs
  · simp at he
  · exact h s hs name e he hm

/-- Behind a declaration the methods are those in front of it. Those of a class are in scope only inside of it. -/
theorem bind (h : env.MethodsAre P) (d : Decl) : (d.bind env).1.MethodsAre P := by
  obtain ⟨t, t', ty, heq, -⟩ := d.exists_declareLocal env
  have h' : MethodsAre P { env with classes := t } := h.of_scopes_eq rfl
  rw [heq]
  exact (h'.declareLocal d.id d.name d.kind ty d.kind_ne.2).of_scopes_eq rfl

theorem bindAll (ds : List Decl) : ∀ {env : Env}, env.MethodsAre P → (Decl.bindAll env ds).1.MethodsAre P := by
  induction ds with
  | nil => exact fun h => h
  | cons d ds ih => exact fun h => ih (h.bind d)

end Env.MethodsAre

/-! ## Where uses are bound -/

/-- A use is recorded as it was bound in an environment whose methods have a property. -/
def Use.Bound (t : Tables) (P : String → Entry → Prop) (u : Use) : Prop :=
  ∃ env : Env, env.Fits t ∧ env.MethodsAre P ∧ t.resolutions.Holds (u.bind env)

/-- The uses of a checked expression are bound in its environment. -/
theorem Expr.Checked.bound {e : Expr} (h : e.Checked t env) (hf : env.Fits t) (hm : env.MethodsAre P) :
    ∀ u ∈ e.uses, u.Bound t P := by
  intro u hu
  have hr := h.recorded
  rw [Expr.findings_eq] at hr
  exact ⟨env, hf, hm, hr _ (List.mem_map_of_mem hu)⟩

/-- The uses in a variable are those of its initial value. -/
theorem Decl.uses_var (id : NodeId) (name : Name) (type : TypeExpr) (init : Expr) (span : Span) :
    (Decl.var id name type init span).uses = init.uses := by
  rw [Decl.uses, Decl.mentions, List.filterMap_append, Mention.filterMap_use?_use, Mention.filterMap_use?_type,
    List.append_nil]

/-- The uses in a function. -/
def FunDecl.uses (f : FunDecl) : List Use := f.mentions.filterMap Mention.use?

/-- The uses in a function stand in its declarations or in its body. -/
theorem FunDecl.uses_eq (f : FunDecl) :
    f.uses = (Decl.mentionsAll f.decls).filterMap Mention.use? ++ f.body.uses := by
  rw [uses, mentions_eq, List.filterMap_append, List.filterMap_append, Mention.filterMap_use?_type,
    Mention.filterMap_use?_use, List.nil_append]

/-- A use in the methods of a class stands in one of them. -/
theorem FunDecl.mem_usesAll {ms : List FunDecl} {u : Use} :
    u ∈ (FunDecl.mentionsAll ms).filterMap Mention.use? ↔ ∃ m ∈ ms, u ∈ m.uses := by
  induction ms with
  | nil => simp [mentionsAll]
  | cons m ms ih => rw [mentionsAll, List.filterMap_append, List.mem_append, ih, List.exists_mem_cons_iff, uses]

/-- A use in the declarations of a block stands in one of them. -/
theorem Decl.mem_usesAll {ds : List Decl} {u : Use} :
    u ∈ (Decl.mentionsAll ds).filterMap Mention.use? ↔ ∃ d ∈ ds, u ∈ d.uses := by
  induction ds with
  | nil => simp [mentionsAll]
  | cons d ds ih => rw [mentionsAll, List.filterMap_append, List.mem_append, ih, List.exists_mem_cons_iff, uses]

/-- A use in a class stands in one of its methods. -/
theorem Decl.mem_uses_cls {c : ClassDecl} {u : Use} : u ∈ (Decl.cls c).uses ↔ ∃ m ∈ c.methods, u ∈ m.uses := by
  rw [← FunDecl.mem_usesAll]
  cases c
  simp only [Decl.uses, Decl.mentions, List.cons_append, List.filterMap_cons, List.filterMap_append, Mention.use?,
    Mention.filterMap_use?_type, List.nil_append]

mutual

/-- Inside functions no method comes into scope. -/
theorem Decl.Checked.bound (ht : t.classes.Lineal) {env : Env} (hl : env.level ≠ 0) :
    (d : Decl) → d.Checked t env → env.MethodsAre P → ∀ u ∈ d.uses, u.Bound t P
  | .var id name type init span, h, hm => by
    rw [Decl.uses_var]
    exact h.var.1.bound h.fits hm
  | .func f, h, hm => FunDecl.Checked.bound ht f h.func.2.2 (hm.bind _)
  | .cls c, h, _ => by
    obtain ⟨s, final, hc⟩ := h.cls ht
    exact absurd hc.level hl

/-- The uses of a function, where its parameters and its declarations are in scope as well. -/
theorem FunDecl.Checked.bound (ht : t.classes.Lineal) {env : Env} {sig : Signature} :
    (f : FunDecl) → f.Checked t env sig → env.MethodsAre P → ∀ u ∈ f.uses, u.Bound t P
  | ⟨id, name, params, ret, decls, body, span⟩, h, hm => by
    obtain ⟨-, hdecls, hfits, hbody, -⟩ := h.body ht
    have hinner := hm.inner ⟨id, name, params, ret, decls, body, span⟩ sig.params
    rw [FunDecl.uses_eq, List.forall_mem_append]
    constructor
    · exact Decl.CheckedAll.bound ht (FunDecl.level_inner_ne_zero _ h.fits _) decls hdecls hinner
    · exact hbody.bound hfits (hinner.bindAll decls)

/-- The uses of the declarations of a block, each bound behind those before it. -/
theorem Decl.CheckedAll.bound (ht : t.classes.Lineal) {env : Env} (hl : env.level ≠ 0) :
    (ds : List Decl) → Decl.CheckedAll t env ds → env.MethodsAre P →
      ∀ u ∈ (Decl.mentionsAll ds).filterMap Mention.use?, u.Bound t P
  | [], _, _ => nofun
  | d :: ds, h, hm => by
    obtain ⟨hd, hds⟩ := h.cons ht
    rw [Decl.mentionsAll, List.filterMap_append, List.forall_mem_append]
    constructor
    · exact Decl.Checked.bound ht hl d hd hm
    · refine Decl.CheckedAll.bound ht ?_ ds hds (hm.bind d)
      rwa [Decl.level_bind]

end

/-- In the methods of a class those methods are in scope that the final class offers. -/
theorem ClassDecl.Checked.bound (ht : t.classes.Lineal) {env' : Env} {c : ClassDecl} {s : ClassSite} {final : Class}
    (h : c.Checked t env env' s final) (hm : env.MethodsAre fun _ _ => False) :
    ∀ u ∈ (Decl.cls c).uses, u.Bound t (final.Offers t.classes) := by
  intro u hu
  obtain ⟨m, hmem, hu⟩ := Decl.mem_uses_cls.1 hu
  obtain ⟨pre, post, hmethods⟩ := List.append_of_mem hmem
  obtain ⟨b, cur, hbody, -, -⟩ := h.members
  rw [hmethods] at hbody
  obtain ⟨b₁, cur₁, hbody₁, -⟩ := hbody.split ht pre
  obtain ⟨b₂, cur₂, hbody₂, -, hfun, -⟩ := hbody₁.cons ht
  refine FunDecl.Checked.bound ht m hfun ?_ u hu
  -- The method is bound with the members that its class has at this point; the final class refines them.
  have hrefines := (hbody₂.grows ht).1.refines
  intro sc hsc name e he hk
  rw [hbody₂.built.site.scopes] at hsc
  obtain rfl | hsc := List.mem_cons.1 hsc
  · obtain ⟨e', he', hk', -, ho, hs⟩ := hrefines name e he
    exact ⟨e', he', hk'.trans hk, ho, hs⟩
  · -- Around the class there is the outermost block, which has no methods.
    obtain ⟨sc₀, outer, hscopes, -, hafter⟩ := h.declares.scopes
    rw [hafter] at hsc
    obtain rfl | hsc := List.mem_cons.1 hsc
    · rw [Scope.getElem?_insert] at he
      split at he
      · cases he
        cases hk
      · exact (hm sc₀ (hscopes ▸ List.mem_cons_self) name e he hk).elim
    · exact (hm sc (hscopes ▸ List.mem_cons_of_mem _ hsc) name e he hk).elim

/-! ## Where methods come into scope -/

/-- Around a declaration of the outermost block no method is in scope; in a class its own are, as the final class
offers them. -/
def Decl.Settles (t : Tables) : Decl → Prop
  | .cls c => ∃ (id : ClassId) (final : Class),
    (t.resolutions.declaration? c.id).bind (·.declaredClass?) = some id ∧ t.classes.class? id = some final ∧
      ∀ u ∈ (Decl.cls c).uses, u.Bound t (final.Offers t.classes)
  | d => ∀ u ∈ d.uses, u.Bound t fun _ _ => False

/-- In the outermost block a class brings its methods into scope, and nothing else does. -/
theorem Decl.Checked.settles (ht : t.classes.Lineal) {d : Decl} (h : d.Checked t env)
    (hm : env.MethodsAre fun _ _ => False) : d.Settles t := by
  cases d with
  | var id name type init span =>
    intro u hu
    rw [Decl.uses_var] at hu
    exact h.var.1.bound h.fits hm u hu
  | func f => exact FunDecl.Checked.bound ht f h.func.2.2 (hm.bind _)
  | cls c =>
    obtain ⟨s, final, hc⟩ := h.cls ht
    refine ⟨s.old.length, final, ?_, hc.class?, hc.bound ht hm⟩
    rw [hc.declares.entry]
    rfl

theorem Decl.CheckedAll.settles (ht : t.classes.Lineal) {ds : List Decl} (h : Decl.CheckedAll t env ds)
    (hm : env.MethodsAre fun _ _ => False) : ∀ d ∈ ds, d.Settles t := by
  induction ds generalizing env with
  | nil => exact nofun
  | cons d ds ih =>
    obtain ⟨hd, hds⟩ := h.cons ht
    exact List.forall_mem_cons.2 ⟨hd.settles ht hm, ih hds (hm.bind d)⟩

theorem Env.methodsAre_initial : Env.initial.MethodsAre P := by
  intro s hs name e he
  cases List.mem_singleton.1 hs
  simp at he

/-- A name that stands for a method stands for one that is in scope. -/
theorem Use.Bound.of_method {id : NodeId} {name : Name} {use : Resolution} (h : Use.Bound t P (.ident id name))
    (huse : t.resolutions.use? id = some use) (hk : use.entry.kind = .method) : P name.text use.entry := by
  obtain ⟨env, -, hm, hr⟩ := h
  obtain ⟨e, he, huse'⟩ := Expr.holds_bindName hr
  cases huse.symm.trans huse'
  obtain ⟨i, s, hs, he⟩ := Env.lookup?_eq_some he
  exact hm s (List.mem_of_getElem? hs) name.text e he hk

/-- A `new` stands for a class. -/
theorem Use.Bound.of_new {id : NodeId} {cls : Name} {use : Resolution} (h : Use.Bound t P (.new id cls))
    (huse : t.resolutions.use? id = some use) : use.entry.kind = .cls := by
  obtain ⟨env, -, -, hr⟩ := h
  obtain ⟨e, he, huse'⟩ := Expr.holds_bindNew hr
  cases huse.symm.trans huse'
  obtain ⟨i, s, -, -, hk⟩ := Env.lookupClass?_eq_some he
  exact hk

/-- The final class has the method that a method call has found in its class. -/
theorem Use.Bound.of_call {id : NodeId} {object method : Name} {call : MethodResolution}
    (h : Use.Bound t P (.methodCall id object method)) (hcall : t.resolutions.methodCall? id = some call) :
    call.object.entry.ty = .ref call.cls ∧ ∃ c, t.classes.class? call.cls = some c ∧
      c.Offers t.classes method.text call.method := by
  obtain ⟨env, hf, -, hr⟩ := h
  obtain ⟨e, id', m, -, hty, hm, hk, hcall'⟩ := Expr.holds_bindMethodCall hr
  cases hcall.symm.trans hcall'
  simp only [ClassTable.member?, ClassTable.members?, Option.bind_eq_some_iff, Option.map_eq_some_iff] at hm
  obtain ⟨_, ⟨c, hc, rfl⟩, hm⟩ := hm
  obtain ⟨c', hc', -, hrefines⟩ := hf.classes hc
  obtain ⟨m', hm', hk', -, ho, hs⟩ := hrefines _ _ hm
  exact ⟨hty, c', hc', m', hm', hk'.trans hk, ho, hs⟩

/-- What a class of a program without errors offers, all classes that descend from it answer. -/
theorem Program.Checked.answers (h : p.Checked p.bind.tables) {id : ClassId} {c : Class} {name : String} {m : Entry}
    (hc : p.bind.tables.classes.class? id = some c) (hm : c.Offers p.bind.tables.classes name m) :
    p.bind.tables.classes.Answers id name m := by
  have ht := h.lineal
  have hself : c.layout.isDescendantOf id := by
    have hl : p.bind.tables.classes.layout? id = some c.layout := by
      rw [ClassTable.layout?, hc]
      rfl
    rw [ClassLayout.isDescendantOf_iff, ClassLayout.lineage, ht.id_eq hl]
    exact List.mem_cons_self
  -- A descendant has the method through inheritance, perhaps overridden by one of a smaller type.
  have offers : ∀ {idd : ClassId} {d : Class}, p.bind.tables.classes.class? idd = some d →
      d.layout.isDescendantOf id → d.Offers p.bind.tables.classes name m := by
    intro idd d hd hdesc
    obtain ⟨m', hm', hk, ho, hs⟩ := hm
    have hinherits : d.Inherits p.bind.tables.classes c := by
      refine ClassTable.inherits_of_parents ht (fun hb hp => ?_) hc hd hdesc
      obtain ⟨decl, Γ, Γ', s, hchecked, -⟩ := p.exists_classDecl h hb
      exact hchecked.inherits ht hp
    obtain ⟨m'', hm'', ho', hk', hs'⟩ := hinherits.member hm'
    exact ⟨m'', hm'', hk'.trans hk, ho'.trans ho, ClassTable.isSubtype_trans ht hs' hs⟩
  refine ⟨⟨c, hc, hself⟩, offers, fun {idd d} hd hdesc => ?_⟩
  -- The slot lies in the dispatch table because the member is laid out as a method.
  obtain ⟨m', hm', hk, ho, -⟩ := offers hd hdesc
  obtain ⟨fields, methods, hlaid⟩ := (p.exists_classDecl h hd).laid ht
  obtain ⟨-, hfield⟩ | ⟨hmem, -⟩ := hlaid.kind_cases hm'
  · rw [hfield] at hk
    cases hk
  · obtain ⟨i, sig, hi, -, hm''⟩ := hlaid.entry_of_mem_methods hmem
    cases hm'.symm.trans hm''
    have hlt := (List.getElem?_eq_some_iff.1 hi).1
    rw [hlaid.length_methods] at hlt
    simp only at ho
    omega

/-- The classes of a program are declared in its outermost block. -/
theorem Program.mem_classes {c : ClassDecl} : c ∈ p.classes ↔ .cls c ∈ p.decls := by
  rw [classes, List.mem_filterMap]
  constructor
  · rintro ⟨d, hd, hc⟩
    cases d with
    | cls c' =>
      cases hc
      exact hd
    | _ => cases hc
  · exact fun h => ⟨_, h, rfl⟩

/-- A use stands in a class, or no method is in scope there. -/
theorem Program.Checked.use_cases (h : p.Checked p.bind.tables) {u : Use} (hu : u ∈ p.uses) :
    (u.Bound p.bind.tables fun _ _ => False) ∨
      ∃ c ∈ p.classes, u ∈ (Decl.cls c).uses ∧ ∃ Q, u.Bound p.bind.tables Q := by
  have hsettles := h.decls.settles h.lineal Env.methodsAre_initial
  rw [uses, mentions, List.filterMap_append, Mention.filterMap_use?_use, List.mem_append] at hu
  obtain hu | hu := hu
  · obtain ⟨d, hd, hu⟩ := Decl.mem_usesAll.1 hu
    cases d with
    | var id name type init span => exact .inl (hsettles _ hd u hu)
    | func f => exact .inl (hsettles _ hd u hu)
    | cls c =>
      obtain ⟨id, final, -, -, hbound⟩ := hsettles _ hd
      exact .inr ⟨c, mem_classes.2 hd, hu, _, hbound u hu⟩
  · exact .inl (h.body.bound h.fits (Env.methodsAre_initial.bindAll p.decls) u hu)

/-- Every use of a checked program is bound somewhere. -/
theorem Program.Checked.exists_bound (h : p.Checked p.bind.tables) {u : Use} (hu : u ∈ p.uses) :
    ∃ Q, u.Bound p.bind.tables Q := by
  obtain hbound | ⟨-, -, -, hbound⟩ := h.use_cases hu
  · exact ⟨_, hbound⟩
  · exact hbound

/-- In a program without errors a method call is recorded with the class of its object, and that class and all
that descend from it answer it; the same holds of the calls of methods in the body of a class, and only there
names stand for methods. -/
theorem Program.calls_answered {p : Program} (hid : p.ids.Nodup) (hbind : p.bind.errors = [])
    (htype : p.typeErrors p.bind.tables = []) :
    (∀ (id : NodeId) (call : MethodResolution), p.bind.tables.resolutions.methodCall? id = some call →
      call.object.entry.ty = .ref call.cls ∧ ∃ object method : Name, .methodCall id object method ∈ p.uses ∧
        p.bind.tables.classes.Answers call.cls method.text call.method) ∧
    (∀ c ∈ p.classes, ∃ cls : ClassId,
      (p.bind.tables.resolutions.declaration? c.id).bind (·.declaredClass?) = some cls ∧
        ∀ (id : NodeId) (name : Name) (use : Resolution), .ident id name ∈ (Decl.cls c).uses →
          p.bind.tables.resolutions.use? id = some use → use.entry.kind = .method →
          p.bind.tables.classes.Answers cls name.text use.entry) ∧
    ∀ (id : NodeId) (use : Resolution), p.bind.tables.resolutions.use? id = some use → use.entry.kind = .method →
      ∃ c ∈ p.classes, ∃ name : Name, .ident id name ∈ (Decl.cls c).uses := by
  have h := checked hid hbind htype
  have hsettles := h.decls.settles h.lineal Env.methodsAre_initial
  refine ⟨fun id call hcall => ?_, fun c hc => ?_, fun id use huse hk => ?_⟩
  · obtain ⟨u, hu, -, hrec, -⟩ := exists_use_of_mem hid ((p.methodCall?_eq_some hid).1 hcall) rfl rfl
    cases hrec with
    | methodCall id object method call =>
      obtain ⟨Q, hbound⟩ := h.exists_bound hu
      obtain ⟨hty, c, hc, hm⟩ := hbound.of_call hcall
      exact ⟨hty, object, method, hu, h.answers hc hm⟩
  · obtain ⟨cls, final, hdecl, hfinal, hbound⟩ := hsettles _ (mem_classes.1 hc)
    refine ⟨cls, hdecl, fun id name use hu huse hk => ?_⟩
    exact h.answers hfinal ((hbound _ hu).of_method huse hk)
  · obtain ⟨u, hu, -, hrec, -⟩ := exists_use_of_mem hid ((p.use?_eq_some hid).1 huse) rfl rfl
    cases hrec with
    | ident id name use =>
      obtain hbound | ⟨c, hc, hu, -⟩ := h.use_cases hu
      · exact (hbound.of_method huse hk).elim
      · exact ⟨c, hc, name, hu⟩
    | new id cls use =>
      obtain ⟨Q, hbound⟩ := h.exists_bound hu
      cases (hbound.of_new huse).symm.trans hk

/-- A subclass that calls an inherited method before it overrides it, and a call through a variable that holds an
object of a subclass of that one. -/
def Program.early : Program := Program.built do
  let get ← Build.function "get" [] .int [] (← Build.literal (.int 1))
  let a ← Build.cls "A" none [] [get]
  let twice ← Build.function "twice" [] .int [] (← Build.binary .add (← Build.call "get" []) (← Build.call "get" []))
  let get' ← Build.function "get" [] .bool [] (← Build.literal (.bool true))
  let b ← Build.cls "B" (some "A") [] [twice, get']
  let c ← Build.cls "C" (some "B") [] [← Build.function "other" [] .int [] (← Build.call "twice" [])]
  let x ← Build.var "x" (← Build.refType "B") (← Build.new "C" [])
  Build.program [.cls a, .cls b, .cls c, x] (← Build.methodCall "x" "get" [])

/-- A method call on an object of a subclass, and a call of a method that its class overrides only afterwards:
that one has the type of the inherited method, and the class and its subclasses answer it all the same. -/
theorem Program.calls_answered_early :
    (∃ call, early.bind.tables.resolutions.methodCall? 12 = some call ∧ ∃ method : Name,
      early.bind.tables.classes.Answers call.cls method.text call.method) ∧
    ∃ use, early.bind.tables.resolutions.use? 2 = some use ∧ use.entry.ty = .arrow [] .int ∧
      early.bind.tables.classes.Answers 1 "get" use.entry := by
  have hid : early.ids.Nodup := by decide +kernel
  have hbind : early.bind.errors = [] := List.isEmpty_iff.1 (by decide +kernel)
  have htype : early.typeErrors early.bind.tables = [] := List.isEmpty_iff.1 (by decide +kernel)
  obtain ⟨hcalls, hmethods, -⟩ := calls_answered hid hbind htype
  constructor
  · have hsome : (early.bind.tables.resolutions.methodCall? 12).isSome := by decide +kernel
    obtain ⟨call, hcall⟩ := Option.isSome_iff_exists.1 hsome
    obtain ⟨-, -, method, -, hanswers⟩ := hcalls 12 call hcall
    exact ⟨call, hcall, method, hanswers⟩
  · have hint : (early.bind.tables.resolutions.use? 2).any fun use =>
        use.entry.kind = .method ∧ use.entry.ty = .arrow [] .int := by decide +kernel
    obtain ⟨use, huse, hentry⟩ := (Option.any_eq_true _ _).1 hint
    obtain ⟨hk, hty⟩ := of_decide_eq_true hentry
    obtain ⟨cls, hdecl, hanswers⟩ := hmethods _ (List.mem_of_getElem? (i := 1) rfl)
    have hcls : cls = 1 := by
      have h : (early.bind.tables.resolutions.declaration? 6).bind (·.declaredClass?) = some 1 := by decide +kernel
      exact Option.some.inj (hdecl.symm.trans h)
    subst hcls
    exact ⟨use, huse, hty, hanswers 2 _ use (List.mem_of_getElem? (i := 0) rfl) huse hk⟩

end ObjLet
