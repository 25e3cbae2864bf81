import ObjLet.Proofs.Binding.Scoping
import ObjLet.Proofs.Typing.Declared

/-!
# Binding is lexical

The walk keeps a stack of scopes, which it seeds, overwrites and leaves; lexical scoping looks at positions
only. Both agree at every position of a clean program: the scopes of the walk hold the entries of what the
scopes around the position offer (`Env.Offers`), one declaration after the other. A class scope starts with
the members of the superclass in the class table, which are those that the superclass offered in the end
(`Env.Inherits`).
-/

namespace ObjLet

open Findings

variable {r : Resolutions} {p : Program}

/-! ## Scopes -/

/-- The entry of a name is that of the node which lexical scoping finds; entries of classes belong to
classes of the outermost block. -/
structure Entry.Of (r : Resolutions) (p : Program) (depth : Nat) (name : String) (node : NodeId)
    (e : Entry) : Prop where
  declared : r.declaration? node = some e
  level : e.level = depth
  cls : e.kind = .cls → depth = 0 ∧ ∃ c ∈ p.classes, c.name.text = name ∧ c.id = node

/-- A scope of the walk holds the names that a scope of the program offers. -/
def Scope.Offers (r : Resolutions) (p : Program) (level : Nat) (ns : Names) (s : Scope) : Prop :=
  ∀ name : String, Option.Rel (Entry.Of r p level name) (ns.node? name) s[name]?

/-- The scopes of the walk do, level by level. -/
inductive OfferedBy (r : Resolutions) (p : Program) : List Names → List Scope → Prop where
  | nil : OfferedBy r p [] []
  | cons {ns : Names} {outer : List Names} {s : Scope} {ss : List Scope}
      (hs : s.Offers r p outer.length ns) (hss : OfferedBy r p outer ss) :
      OfferedBy r p (ns :: outer) (s :: ss)

/-- The environment of a position holds what the scopes around it offer. -/
def Env.Offers (r : Resolutions) (p : Program) (scopes : List Names) (env : Env) : Prop :=
  OfferedBy r p scopes env.scopes.scopes

namespace Scope.Offers

variable {level : Nat} {ns : Names} {s : Scope} {name : String} {node : NodeId} {e : Entry}

theorem empty : Scope.Offers r p level [] ∅ := by
  intro name
  rw [Std.TreeMap.getElem?_emptyc]
  exact .none

/-- An entry of the scope is that of the node which the name stands for. -/
theorem node? (h : s.Offers r p level ns) (he : s[name]? = some e) :
    ∃ node, ns.node? name = some node ∧ e.Of r p level name node := by
  have hrel := h name
  rw [he] at hrel
  generalize ns.node? name = found at hrel ⊢
  cases hrel with
  | some hof => exact ⟨_, rfl, hof⟩

/-- A name without an entry stands for nothing here. -/
theorem node?_eq_none (h : s.Offers r p level ns) (he : s[name]? = none) : ns.node? name = none := by
  have hrel := h name
  rw [he] at hrel
  generalize ns.node? name = found at hrel ⊢
  cases hrel
  rfl

/-- A declared name is offered last, and hides the earlier ones of the name. -/
theorem insert (h : s.Offers r p level ns) (he : e.Of r p level name node) :
    Scope.Offers r p level (ns ++ [(name, node)]) (s.insert name e) := by
  intro n
  rw [Names.node?_concat, Scope.getElem?_insert]
  by_cases hn : name = n
  · subst hn
    rw [if_pos rfl, if_pos rfl]
    exact .some he
  · rw [if_neg hn, if_neg hn]
    exact h n

end Scope.Offers

namespace OfferedBy

variable {scopes : List Names} {ss : List Scope} {name : String} {e : Entry}

/-- There are as many scopes in the walk as in the program. -/
theorem length_eq (h : OfferedBy r p scopes ss) : ss.length = scopes.length := by
  induction h with
  | nil => rfl
  | cons _ _ ih => rw [List.length_cons, List.length_cons, ih]

/-- The lookup from the inside finds the entry of the node that lexical scoping selects. -/
theorem lexical? (h : OfferedBy r p scopes ss) (he : ScopeStack.lookup? ⟨ss⟩ name = some e) :
    ∃ node, lexical? scopes name = some (e.level, node) ∧ r.declaration? node = some e := by
  induction h with
  | nil => cases he
  | @cons ns outer s ss hs _ ih =>
    have hstep := ScopeStack.lookup?_push ⟨ss⟩ s name
    rw [ScopeStack.push, he] at hstep
    -- The innermost scope decides, unless it lacks the name.
    cases hfound : s[name]? with
    | some e' =>
      rw [hfound, Option.some_or] at hstep
      cases hstep
      obtain ⟨node, hnode, hof⟩ := hs.node? hfound
      exact ⟨node, by rw [ObjLet.lexical?, hnode, hof.level], hof.declared⟩
    | none =>
      rw [hfound, Option.none_or] at hstep
      obtain ⟨node, hlex, hdecl⟩ := ih hstep.symm
      exact ⟨node, by rw [ObjLet.lexical?, hs.node?_eq_none hfound]; exact hlex, hdecl⟩

/-- Only the outermost scope has classes, so that no other name hides them. -/
theorem lookupClass? (h : OfferedBy r p scopes ss)
    (he : ScopeStack.lookupClass? ⟨ss⟩ name = some e) :
    e.level = 0 ∧ ∃ c ∈ p.classes, c.name.text = name ∧ r.declaration? c.id = some e ∧
      scopes.getLast?.bind (·.node? name) = some c.id := by
  induction h with
  | nil => cases he
  | @cons ns outer s ss hs hss ih =>
    rw [ScopeStack.lookupClass?, List.findSome?_cons] at he
    split at he
    · next e' hfound =>
      cases he
      obtain ⟨hfound, hk⟩ := Option.filter_eq_some_iff.1 hfound
      obtain ⟨node, hnode, hof⟩ := hs.node? hfound
      obtain ⟨hlevel, c, hc, hname, rfl⟩ := hof.cls (by simpa using hk)
      rw [List.length_eq_zero_iff] at hlevel
      subst hlevel
      exact ⟨hof.level, c, hc, hname, hof.declared, hnode⟩
    · obtain ⟨hl, c, hc, hname, hdecl, hlast⟩ := ih he
      refine ⟨hl, c, hc, hname, hdecl, ?_⟩
      cases outer with
      | nil => cases hlast
      | cons ns' outer => exact hlast

end OfferedBy

/-! ## Declarations -/

namespace Env.Offers

variable {env env' : Env} {ns : Names} {outer : List Names}

/-- The level counts the scopes around the innermost one. -/
theorem level (h : env.Offers r p (ns :: outer)) : env.level = outer.length := by
  have hlen := OfferedBy.length_eq h
  simp [Env.level, ScopeStack.level, ScopeStack.depth, hlen]

theorem depth (h : env.Offers r p (ns :: outer)) : env.scopes.depth = outer.length + 1 :=
  OfferedBy.length_eq h

/-- What is put into the innermost scope is offered there. -/
theorem insert (h : env.Offers r p (ns :: outer)) {s : Scope} {ss : List Scope} {name : String}
    {node : NodeId} {e : Entry} (hs : env.scopes.scopes = s :: ss)
    (hs' : env'.scopes.scopes = s.insert name e :: ss) (he : e.Of r p outer.length name node) :
    env'.Offers r p ((ns ++ [(name, node)]) :: outer) := by
  rw [Env.Offers, hs] at h
  rw [Env.Offers, hs']
  cases h with
  | cons hoff hss => exact .cons (hoff.insert he) hss

/-- A declaration without error is offered behind it. -/
theorem declares (h : env.Offers r p (ns :: outer)) {id : NodeId} {name : String} {kind : EntryKind}
    {ty : Ty} (hd : env.Declares r env' id name kind ty)
    (hk : kind = .cls → env.level = 0 ∧ ∃ c ∈ p.classes, c.name.text = name ∧ c.id = id) :
    env'.Offers r p ((ns ++ [(name, id)]) :: outer) := by
  obtain ⟨s, ss, hs, -, hs'⟩ := hd.scopes
  rw [h.level] at hk
  exact h.insert hs hs' ⟨hd.entry, h.level, hk⟩

/-- A function starts with a scope that offers nothing. -/
theorem enterFrame (h : env.Offers r p outer) : env.enterFrame.Offers r p ([] :: outer) :=
  .cons Scope.Offers.empty h

theorem declareParams (ps : List (Param × Ty)) :
    ∀ {env : Env} {ns : Names} {next : Int}, env.Offers r p (ns :: outer) →
      Recorded r (env.declareParams next ps).2 →
      (env.declareParams next ps).1.Offers r p ((ns ++ (ps.map (·.1)).map Param.named) :: outer) := by
  induction ps with
  | nil =>
    intro env ns next h _
    rwa [List.map_nil, List.map_nil, List.append_nil]
  | cons q ps ih =>
    intro env ns next h hr
    simp only [Env.declareParams, recorded_append] at hr ⊢
    obtain ⟨hdecl, s, ss, hs, -, heq⟩ := Env.declare_of_recorded hr.1
    have hmid : Env.Offers r p ((ns ++ [q.1.named]) :: outer) (env.declare q.1.id q.1.name
        { kind := .param, level := env.level, offset := next + q.2.words - 1, ty := q.2 }).1 :=
      h.insert hs (by rw [heq]) ⟨hdecl, h.level, by rintro ⟨⟩⟩
    have hrest := ih hmid hr.2
    rwa [List.append_assoc] at hrest

/-- The parameters of a function are what its scope offers first. -/
theorem inner (h : env.Offers r p outer) {f : FunDecl} {paramTypes : List Ty}
    (hlen : f.params.length = paramTypes.length) (hr : Recorded r (f.bindBody env paramTypes).2) :
    (f.inner env paramTypes).Offers r p (f.params.map Param.named :: outer) ∧
      Recorded r (Decl.bindAll (f.inner env paramTypes) f.decls).2 ∧
      Recorded r (f.body.findings (f.bodyEnv env paramTypes)) := by
  rw [FunDecl.bindBody_eq] at hr
  simp only [recorded_append] at hr
  refine ⟨?_, hr.1.2, hr.2⟩
  have hparams := declareParams (f.params.zip paramTypes) h.enterFrame hr.1.1
  rwa [List.map_fst_zip (Nat.le_of_eq hlen), List.nil_append] at hparams

end Env.Offers

/-- The kind of what a declaration declares. -/
def Decl.kind : Decl → EntryKind
  | .var .. => .var
  | .func _ => .func
  | .cls _ => .cls

/-- A clean declaration declares its name, and a clean class stands in the outermost block. -/
theorem Decl.declares_bind {env : Env} {d : Decl} (h : Recorded r (d.bind env).2) :
    (∃ ty, env.Declares r (d.bind env).1 d.id d.name.text d.kind ty) ∧
      (d.kind = .cls → env.level = 0) := by
  cases d with
  | var id name type init span =>
    simp only [Decl.bind, recorded_append] at h ⊢
    exact ⟨⟨_, Env.declares_declareLocal h.2⟩, by rintro ⟨⟩⟩
  | func f =>
    simp only [Decl.bind, recorded_append] at h ⊢
    exact ⟨⟨_, (Env.declares_declareLocal h.1.2).of_eq rfl rfl⟩, by rintro ⟨⟩⟩
  | cls c =>
    obtain ⟨id, name, superclass, fields, methods, span⟩ := c
    simp only [Decl.bind, recorded_append] at h ⊢
    have hhead := h.1.1
    have hl := Env.level_of_declareClass hhead
    simp only [Env.declareClass, recorded_append] at hhead
    have hd := Env.declares_declareLocal hhead.2
    exact ⟨⟨_, hd.entry, hd.scopes, hd.nextLocal⟩, fun _ => hl⟩

/-- Declarations are bound one after the other. -/
theorem Decl.bindAll_append (env : Env) (ds es : List Decl) :
    Decl.bindAll env (ds ++ es) =
      ((Decl.bindAll (Decl.bindAll env ds).1 es).1,
        (Decl.bindAll env ds).2 ++ (Decl.bindAll (Decl.bindAll env ds).1 es).2) := by
  induction ds generalizing env with
  | nil => simp [Decl.bindAll]
  | cons d ds ih => simp [Decl.bindAll, ih]

namespace Env.Offers

variable {env : Env} {ns : Names} {outer : List Names}

/-- A declaration is offered behind it, and what is inside of it is not. -/
theorem bind {d : Decl} (h : env.Offers r p (ns :: outer)) (hd : outer = [] → d ∈ p.decls)
    (hr : Recorded r (d.bind env).2) : (d.bind env).1.Offers r p ((ns ++ [d.named]) :: outer) := by
  obtain ⟨⟨ty, hdecl⟩, hcls⟩ := Decl.declares_bind hr
  refine h.declares hdecl fun hk => ?_
  have hl := hcls hk
  have houter : outer = [] := List.length_eq_zero_iff.1 (h.level.symm.trans hl)
  cases d with
  | var id name type init span => cases hk
  | func f => cases hk
  | cls c => exact ⟨hl, c, List.mem_filterMap.2 ⟨_, hd houter, rfl⟩, rfl, rfl⟩

/-- The declarations of a block are offered in their order. -/
theorem bindAll (ds : List Decl) :
    ∀ {env : Env} {ns : Names}, env.Offers r p (ns :: outer) → (outer = [] → ∀ d ∈ ds, d ∈ p.decls) →
      Recorded r (Decl.bindAll env ds).2 →
      (Decl.bindAll env ds).1.Offers r p ((ns ++ ds.map Decl.named) :: outer) := by
  induction ds with
  | nil =>
    intro env ns h _ _
    rwa [List.map_nil, List.append_nil]
  | cons d ds ih =>
    intro env ns h hds hr
    simp only [Decl.bindAll, recorded_append] at hr ⊢
    have hd := h.bind (fun ho => hds ho d List.mem_cons_self) hr.1
    have hrest := ih hd (fun ho e he => hds ho e (List.mem_cons_of_mem _ he)) hr.2
    rwa [List.append_assoc] at hrest

end Env.Offers

/-! ## Class bodies -/

namespace ClassBody

variable {b b' : ClassBody} {old : List Class} {cur : Class} {outer : List Scope} {ns : Names}

/-- A member that is added to the class is offered by the scope of its body. -/
theorem Adds.offers {id : NodeId} {name : String} {kind : EntryKind} {ty : Ty} {free : Int}
    {fresh : ClassLayout → ClassLayout} {override : Int → ClassLayout → ClassLayout}
    (h : Adds r b b' old cur outer id name kind ty free fresh override) (hk : kind ≠ .cls)
    (hoff : cur.members.Offers r p outer.length ns) :
    ∃ cur', b'.At old cur' outer ∧ cur'.members.Offers r p outer.length (ns ++ [(name, id)]) := by
  obtain ⟨offset, f, he, hat, -⟩ := h.entry
  exact ⟨_, hat, hoff.insert ⟨he, rfl, fun heq => absurd heq hk⟩⟩

/-- The fields are offered behind the inherited members. -/
theorem At.offers_declareFields (ps : List Param) :
    ∀ {b : ClassBody} {cur : Class} {ns : Names}, b.At old cur outer →
      cur.members.Offers r p outer.length ns → Recorded r (b.declareFields ps).2 →
      ∃ cur', (b.declareFields ps).1.At old cur' outer ∧
        cur'.members.Offers r p outer.length (ns ++ ps.map Param.named) := by
  induction ps with
  | nil =>
    intro b cur ns h hoff _
    exact ⟨cur, h, by rwa [List.map_nil, List.append_nil]⟩
  | cons q ps ih =>
    intro b cur ns h hoff hr
    simp only [ClassBody.declareFields, recorded_append] at hr ⊢
    obtain ⟨mid, hmid, hmoff⟩ := (h.declareField hr.1.2).1.offers (by rintro ⟨⟩) hoff
    obtain ⟨cur', hcur, hcoff⟩ := ih hmid hmoff hr.2
    exact ⟨cur', hcur, by rwa [List.append_assoc] at hcoff⟩

/-- In front of a method its class has the fields and the methods up to it. -/
theorem At.offers_method {m : FunDecl} {post : List FunDecl} (h : b.At old cur outer)
    (hoff : cur.members.Offers r p outer.length ns) (hr : Recorded r (b.bindMethods (m :: post)).2) :
    ∃ (b' : ClassBody) (cur' : Class), b'.At old cur' outer ∧
      cur'.members.Offers r p outer.length (ns ++ [m.named]) ∧
      Recorded r (m.bindBody b'.env (m.signature b.env.classes).params).2 ∧
      Recorded r (b'.bindMethods post).2 ∧ (b.bindMethods (m :: post)).1 = (b'.bindMethods post).1 := by
  simp only [ClassBody.bindMethods, recorded_append] at hr ⊢
  obtain ⟨cur', hat, hcoff⟩ := (h.declareMethod hr.1.1.2).offers (by rintro ⟨⟩) hoff
  rw [hat.bindMethod hr.1.2] at hr ⊢
  exact ⟨_, cur', hat, hcoff, hr.1.2, hr.2, rfl⟩

/-- The methods are offered behind the fields, each from its own body on. -/
theorem At.offers_methods (pre : List FunDecl) {post : List FunDecl} :
    ∀ {b : ClassBody} {cur : Class} {ns : Names}, b.At old cur outer →
      cur.members.Offers r p outer.length ns → Recorded r (b.bindMethods (pre ++ post)).2 →
      ∃ (b' : ClassBody) (cur' : Class), b'.At old cur' outer ∧
        cur'.members.Offers r p outer.length (ns ++ pre.map FunDecl.named) ∧
        Recorded r (b'.bindMethods post).2 ∧
        (b.bindMethods (pre ++ post)).1 = (b'.bindMethods post).1 := by
  induction pre with
  | nil =>
    intro b cur ns h hoff hr
    exact ⟨b, cur, h, by rwa [List.map_nil, List.append_nil], hr, rfl⟩
  | cons m pre ih =>
    intro b cur ns h hoff hr
    obtain ⟨mid, curMid, hmid, hmoff, -, hrest, heq⟩ := h.offers_method hoff hr
    obtain ⟨b', cur', hat, hcoff, hpost, heq'⟩ := ih hmid hmoff hrest
    exact ⟨b', cur', hat, by rwa [List.append_assoc] at hcoff, hpost, heq.trans heq'⟩

end ClassBody

/-! ## Inherited members -/

/-- Behind some declarations of the outermost block a class name stands for one of the classes among them,
and its members are what that class offers. -/
structure Env.Inherits (r : Resolutions) (p : Program) (before : List Decl) (env : Env) : Prop where
  offers : env.Offers r p [before.map Decl.named]
  members : ∀ {name : String} {id : ClassId}, env.classes.lookup? name = some id →
    (∃ d ∈ before, d.name.text = name) ∧ ∃ cls, env.classes.class? id = some cls ∧
      cls.members.Offers r p 1 (classMembers before.reverse name)

/-- The last class counts where no class before it has the name. -/
theorem ClassTable.lookup?_concat (old : List Class) (c : Class) (name : String) :
    (ClassTable.mk (old ++ [c])).lookup? name =
      ((ClassTable.mk old).lookup? name).or (if c.layout.name = name then some old.length else none) := by
  simp only [lookup?, List.findIdx?_append, List.findIdx?_cons, beq_iff_eq]
  split <;> simp

namespace Env.Inherits

variable {env : Env} {before : List Decl}

theorem initial : Env.initial.Inherits r p [] where
  offers := .cons Scope.Offers.empty .nil
  members h := by simp [ClassTable.lookup?, Env.initial, ClassTable.empty] at h

/-- A declaration that leaves the classes alone. -/
theorem of_classes_eq (h : env.Inherits r p before) {d : Decl} (hd : d ∈ p.decls)
    (hr : Recorded r (d.bind env).2) (hsame : (d.bind env).1.classes = env.classes)
    (hm : ∀ name, classMembers (d :: before.reverse) name = classMembers before.reverse name) :
    (d.bind env).1.Inherits r p (before ++ [d]) where
  offers := by
    rw [List.map_append]
    exact h.offers.bind (fun _ => hd) hr
  members {name id} hl := by
    rw [hsame] at hl ⊢
    obtain ⟨⟨e, he, hname⟩, cls, hcls, hoff⟩ := h.members hl
    refine ⟨⟨e, List.mem_append_left _ he, hname⟩, cls, hcls, ?_⟩
    rwa [List.reverse_concat, hm]

/-- A class starts with the members that it inherits. -/
theorem startClass (h : env.Inherits r p before) {c : ClassDecl}
    (hr : Recorded r (env.superclass c.name c.superclass).2) :
    (env.startClass c.name c.superclass).members.Offers r p 1 (c.inherited before) := by
  rw [ClassDecl.inherited]
  obtain ⟨hnone, -⟩ | ⟨sup, id, hsup, hl, hsome⟩ := Env.superclass_cases (t := ⟨r, .empty⟩) hr
  · rw [hnone]
    exact Scope.Offers.empty
  · obtain ⟨-, parent, hparent, hoff⟩ := h.members hl
    rw [Env.startClass, hsome, Option.bind_some, hparent, hsup]
    exact hoff

/-- The body of a class behind its fields. -/
theorem fields (h : env.Inherits r p before) {c : ClassDecl} (hc : .cls c ∈ p.decls)
    (hr : Recorded r ((Decl.cls c).bind env).2) :
    ∃ (b : ClassBody) (cur : Class) (ss : List Scope), b.At env.classes.classes cur ss ∧
      OfferedBy r p [(before ++ [Decl.cls c]).map Decl.named] ss ∧
      cur.members.Offers r p 1 (c.inherited before ++ c.fields.map Param.named) ∧
      Recorded r (b.bindMethods c.methods).2 ∧
      ((Decl.cls c).bind env).1.classes = (b.bindMethods c.methods).1.env.classes := by
  have hafter := h.offers.bind (fun _ => hc) hr
  obtain ⟨id, name, superclass, fields, methods, span⟩ := c
  simp only [Decl.bind, recorded_append] at hr hafter ⊢
  have hsup := hr.1.1
  simp only [Env.declareClass, recorded_append] at hsup
  have hstart := h.startClass (c := ⟨id, name, superclass, fields, methods, span⟩) hsup.1.2
  have hlen := OfferedBy.length_eq hafter
  have hat := env.enter_declareClass id name superclass
  rw [show 1 = (env.declareClass id name superclass).2.1.scopes.scopes.length from hlen.symm] at hstart
  obtain ⟨cur, hcur, hoff⟩ := hat.offers_declareFields fields hstart hr.1.2
  refine ⟨_, cur, _, hcur, by rw [List.map_append]; exact hafter, ?_, hr.2, rfl⟩
  rwa [show (env.declareClass id name superclass).2.1.scopes.scopes.length = 1 from hlen] at hoff

/-- The name of a class is settled before its members. -/
theorem name_final {c : ClassDecl} {cur : Class}
    (h : ((Decl.cls c).bind env).1.classes.classes = env.classes.classes ++ [cur]) :
    cur.layout.name = c.name.text := by
  obtain ⟨id, name, superclass, fields, methods, span⟩ := c
  let b₀ := ClassBody.enter (env.declareClass id name superclass).2.1
    (env.declareClass id name superclass).1 name.text
  have hstart : b₀.env.classes.layout? env.classes.classes.length =
      some (env.startClass name superclass).layout := by
    rw [ClassTable.layout?, ClassTable.class?,
      show b₀.env.classes.classes = _ from env.classes_declareClass_eq id name superclass,
      List.getElem?_concat_length]
    rfl
  obtain ⟨l, hl, hhead⟩ := ((ClassBody.evolves_declareFields fields b₀).trans
    (ClassBody.evolves_bindMethods _ methods)).layout? hstart
  rw [ClassTable.layout?, ClassTable.class?,
    show ((b₀.declareFields fields).1.bindMethods methods).1.env.classes.classes = _ from h,
    List.getElem?_concat_length] at hl
  cases hl
  rw [(ClassLayout.head_eq_iff.1 hhead).2.1, Env.startClass]
  cases (env.superclass name superclass).1.bind env.classes.class? <;> rfl

/-- A class is found under its name from now on, with the members that it inherits and its own. -/
theorem cls (h : env.Inherits r p before) {c : ClassDecl} (hc : .cls c ∈ p.decls)
    (hr : Recorded r ((Decl.cls c).bind env).2) :
    ((Decl.cls c).bind env).1.Inherits r p (before ++ [Decl.cls c]) := by
  have hafter := h.offers.bind (fun _ => hc) hr
  obtain ⟨⟨ty, hdecl⟩, -⟩ := Decl.declares_bind hr
  obtain ⟨b, cur, ss, hat, hss, hoff, hrm, hsame⟩ := h.fields hc hr
  have hlen := OfferedBy.length_eq hss
  rw [← List.append_nil c.methods] at hrm hsame
  rw [show 1 = ss.length from hlen.symm] at hoff
  obtain ⟨b', final, hat', hfoff, -, heq⟩ := hat.offers_methods c.methods hoff hrm
  have hclasses : ((Decl.cls c).bind env).1.classes.classes = env.classes.classes ++ [final] := by
    rw [hsame, heq]
    exact hat'.classes
  rw [show ss.length = 1 from hlen] at hfoff
  refine ⟨by rw [List.map_append]; exact hafter, fun {name id} hl => ?_⟩
  rw [show ((Decl.cls c).bind env).1.classes = ⟨env.classes.classes ++ [final]⟩ from
    congrArg ClassTable.mk hclasses] at hl ⊢
  rw [ClassTable.lookup?_concat, name_final hclasses] at hl
  rw [List.reverse_concat, classMembers]
  -- The classes up to here keep their names. That the new one cannot take the name of any of them follows from
  -- its declaration, which found no entry of the name in the scope.
  cases hold : env.classes.lookup? name with
  | some id' =>
    rw [show ClassTable.mk env.classes.classes = env.classes from rfl, hold, Option.some_or] at hl
    cases hl
    obtain ⟨⟨d, hd, hname⟩, cls, hcls, hcoff⟩ := h.members hold
    -- The class has a name of its own.
    have hne : c.name.text ≠ name := by
      rintro rfl
      obtain ⟨s, outer, hs, hnone, -⟩ := hdecl.scopes
      have hscope := h.offers
      rw [Env.Offers, hs] at hscope
      cases hscope with
      | cons hfirst _ =>
        have hnamed : (c.name.text, d.id) ∈ before.map Decl.named :=
          List.mem_map.2 ⟨d, hd, Prod.ext hname rfl⟩
        exact Names.node?_ne_none hnamed (hfirst.node?_eq_none hnone)
    rw [if_neg hne]
    refine ⟨⟨d, List.mem_append_left _ hd, hname⟩, cls, ?_, hcoff⟩
    rw [ClassTable.class?, List.getElem?_append_left (List.getElem?_eq_some_iff.1 hcls).1]
    exact hcls
  | none =>
    rw [show ClassTable.mk env.classes.classes = env.classes from rfl, hold, Option.none_or] at hl
    split at hl
    · next heq =>
      cases hl
      rw [if_pos heq]
      exact ⟨⟨_, List.mem_append_right _ List.mem_cons_self, heq⟩, final, List.getElem?_concat_length,
        hfoff⟩
    · cases hl

theorem bind (h : env.Inherits r p before) {d : Decl} (hd : d ∈ p.decls)
    (hr : Recorded r (d.bind env).2) : (d.bind env).1.Inherits r p (before ++ [d]) := by
  cases d with
  | var id name type init span =>
    exact h.of_classes_eq hd hr (by simp [Decl.bind]) fun _ => rfl
  | func f =>
    have hrec := hr
    simp only [Decl.bind, recorded_append] at hrec
    have hdepth := h.offers.depth
    have hsame := FunDecl.classes_bindBody (by rw [Env.depth_declareLocal]; omega) _ f hrec.2
    exact h.of_classes_eq hd hr (hsame.trans (Env.classes_declareLocal _ _ _ _ _)) fun _ => rfl
  | cls c => exact h.cls hd hr

/-- The declarations of the outermost block, as far as they go. -/
theorem bindAll (ds : List Decl) :
    ∀ {env : Env} {before : List Decl}, env.Inherits r p before → (∀ d ∈ ds, d ∈ p.decls) →
      Recorded r (Decl.bindAll env ds).2 → (Decl.bindAll env ds).1.Inherits r p (before ++ ds) := by
  induction ds with
  | nil =>
    intro env before h _ _
    rwa [List.append_nil]
  | cons d ds ih =>
    intro env before h hds hr
    obtain ⟨hd, hds⟩ := List.forall_mem_cons.1 hds
    simp only [Decl.bindAll, recorded_append] at hr ⊢
    have hrest := ih (h.bind hd hr.1) hds hr.2
    rwa [List.append_assoc] at hrest

end Env.Inherits

/-! ## Positions -/

/-- The walk goes through a block without errors, from an environment of what the scopes there offer. -/
structure Block.Walked (r : Resolutions) (p : Program) (b : Block) (env : Env) : Prop where
  offers : env.Offers r p (b.params :: b.outer)
  decls : Recorded r (Decl.bindAll env b.decls).2
  body : Recorded r (b.body.findings (Decl.bindAll env b.decls).1)
  /-- Only the outermost block has no scopes around it. -/
  top : b.outer = [] → b = p.block ∧ env = .initial

namespace Block.Walked

variable {b : Block} {env : Env}

/-- A function is walked from an environment in which its parameters are declared. -/
theorem of_function {f : FunDecl} {outer : List Names} {paramTypes : List Ty}
    (h : env.Offers r p outer) (hne : outer ≠ []) (hlen : f.params.length = paramTypes.length)
    (hr : Recorded r (f.bindBody env paramTypes).2) :
    (f.block outer).Walked r p (f.inner env paramTypes) := by
  obtain ⟨hoff, hdecls, hbody⟩ := h.inner hlen hr
  exact ⟨hoff, hdecls, hbody, fun hnil => absurd hnil hne⟩

/-- Behind the first declarations of a block its scope offers them, and in the outermost block the classes among
them have their members. -/
theorem after (h : b.Walked r p env) {before rest : List Decl} (hb : b.decls = before ++ rest) :
    (Decl.bindAll env before).1.Offers r p (b.scopes before) ∧
      Recorded r (Decl.bindAll (Decl.bindAll env before).1 rest).2 ∧
      (b.outer = [] → (Decl.bindAll env before).1.Inherits r p before) := by
  have hr := h.decls
  rw [hb, Decl.bindAll_append, recorded_append] at hr
  have hmem : b.outer = [] → ∀ d ∈ before, d ∈ p.decls := by
    intro hout d hd
    have hdecls : b.decls = p.decls := by rw [(h.top hout).1]; rfl
    rw [← hdecls, hb]
    exact List.mem_append_left _ hd
  refine ⟨h.offers.bindAll before hmem hr.1, hr.2, fun hout => ?_⟩
  obtain ⟨-, rfl⟩ := h.top hout
  have hinh := Env.Inherits.initial.bindAll before (hmem hout) hr.1
  rwa [List.nil_append] at hinh

end Block.Walked

theorem Block.scopes_concat (b : Block) (before : List Decl) (d : Decl) :
    b.scopes (before ++ [d]) = (b.params ++ before.map Decl.named ++ [d.named]) :: b.outer := by
  simp [Block.scopes]

/-- The walk comes through every block of a clean program. -/
theorem Program.HasBlock.walked (hr : Recorded r p.walk.2) {b : Block} (hb : p.HasBlock b) :
    ∃ env, b.Walked r p env := by
  -- The induction is on the way to the block: from a block to a function declared in it, or to a method of a
  -- class in it.
  induction hb with
  | top =>
    simp only [Program.walk, recorded_append] at hr
    exact ⟨.initial, Env.Inherits.initial.offers, hr.1, hr.2, fun _ => ⟨rfl, rfl⟩⟩
  | @func b before after f _ hf ih =>
    obtain ⟨env, h⟩ := ih
    obtain ⟨hoff, hrest, -⟩ := h.after hf
    simp only [Decl.bindAll, Decl.bind, recorded_append] at hrest
    have hinside := hoff.declares (Env.declares_declareLocal hrest.1.1.2) nofun
    rw [Block.scopes_concat]
    exact ⟨_, .of_function hinside (List.cons_ne_nil _ _) (by simp [FunDecl.signature]) hrest.1.2⟩
  | @method b before after c pre post m _ hc hm ih =>
    obtain ⟨env, h⟩ := ih
    obtain ⟨hoff, hrest, hinh⟩ := h.after hc
    simp only [Decl.bindAll, recorded_append] at hrest
    -- A clean class stands in the outermost block.
    have hout : b.outer = [] :=
      List.length_eq_zero_iff.1 (hoff.level.symm.trans ((Decl.declares_bind hrest.1).2 rfl))
    obtain ⟨rfl, rfl⟩ := h.top hout
    have hmem : Decl.cls c ∈ p.decls := by
      rw [show p.decls = _ from hc]
      simp
    obtain ⟨b₀, cur, ss, hat, hss, hcur, hrm, -⟩ := (hinh hout).fields hmem hrest.1
    have hlen : ss.length = 1 := OfferedBy.length_eq hss
    rw [← hlen] at hcur
    rw [hm] at hrm
    obtain ⟨b₁, cur₁, hat₁, hcur₁, hrm₁, -⟩ := hat.offers_methods pre hcur hrm
    obtain ⟨b₂, cur₂, hat₂, hcur₂, hbody, -⟩ := hat₁.offers_method hcur₁ hrm₁
    refine ⟨_, .of_function ?_ (List.cons_ne_nil _ _) (by simp [FunDecl.signature]) hbody⟩
    rw [Env.Offers, hat₂.scopes]
    refine .cons ?_ hss
    rwa [hlen, List.append_assoc, ← List.map_singleton, ← List.map_append] at hcur₂

/-- What is recorded of an expression is recorded of its parts. -/
theorem Expr.recorded_part {env : Env} {e e' : Expr} (h : Recorded r (e.findings env))
    (he : e' ∈ e.parts) : Recorded r (e'.findings env) := by
  have args : ∀ {es : List Expr}, Recorded r (Expr.findingsAll env es) → e' ∈ es →
      Recorded r (e'.findings env) := by
    intro es hes hmem f hf
    rw [Expr.findingsAll_eq_flatMap] at hes
    exact hes f (List.mem_flatMap.2 ⟨e', hmem, hf⟩)
  cases e with
  | literal value span | ident id name => cases he
  | call id callee es span =>
    rw [Expr.findings, recorded_cons] at h
    exact args h.2 he
  | new id cls es span | methodCall id object method es span =>
    rw [Expr.findings, recorded_append] at h
    exact args h.1 he
  | binary op left right span =>
    rw [Expr.findings, recorded_append] at h
    simp only [Expr.parts, List.mem_cons, List.not_mem_nil, or_false] at he
    obtain rfl | rfl := he
    · exact h.1
    · exact h.2
  | unary op operand span | print operand span =>
    cases List.mem_singleton.1 he
    exact h
  | cond condition thenExpr elseExpr span =>
    rw [Expr.findings, recorded_append, recorded_append] at h
    simp only [Expr.parts, List.mem_cons, List.not_mem_nil, or_false] at he
    obtain rfl | rfl | rfl := he
    · exact h.1.1
    · exact h.1.2
    · exact h.2

/-- The walk comes to every expression with what the scopes around it offer. -/
theorem Program.Stands.walked (hr : Recorded r p.walk.2) {scopes : List Names} {e : Expr}
    (h : p.Stands scopes e) : ∃ env, env.Offers r p scopes ∧ Recorded r (e.findings env) ∧ scopes ≠ [] := by
  induction h with
  | @body b hb =>
    obtain ⟨env, h⟩ := hb.walked hr
    obtain ⟨hoff, -⟩ := h.after (List.append_nil b.decls).symm
    exact ⟨_, hoff, h.body, List.cons_ne_nil _ _⟩
  | init hb hd =>
    obtain ⟨env, h⟩ := hb.walked hr
    obtain ⟨hoff, hrest, -⟩ := h.after hd
    simp only [Decl.bindAll, Decl.bind, recorded_append] at hrest
    exact ⟨_, hoff, hrest.1.1.1, List.cons_ne_nil _ _⟩
  | part _ he ih =>
    obtain ⟨env, hoff, hrec, hne⟩ := ih
    exact ⟨env, hoff, Expr.recorded_part hrec he, hne⟩

/-- The level of a use counts the scopes around it. -/
theorem Env.Offers.useLevel {env : Env} {scopes : List Names} (h : env.Offers r p scopes)
    (hne : scopes ≠ []) : env.level + 1 = scopes.length := by
  cases scopes with
  | nil => exact absurd rfl hne
  | cons ns outer => rw [h.level, List.length_cons]

/-- In a program whose binding is clean, all uses of names are bound to what lexical scoping selects, and
every `new` to the class of the outermost block that has the name. -/
theorem Program.uses_static {p : Program} (hid : p.ids.Nodup) (hbind : p.bind.errors = [])
    {scopes : List Names} {e : Expr} (h : p.Stands scopes e) :
    e.Static p.bind.tables.resolutions p scopes := by
  obtain ⟨env, hoff, hrec, hne⟩ := h.walked (Program.recorded hid hbind)
  have hlevel := hoff.useLevel hne
  cases e with
  | ident id name =>
    obtain ⟨entry, hl, huse⟩ := Expr.holds_bindName (recorded_cons.1 hrec).1
    exact ⟨_, huse, hlevel, OfferedBy.lexical? hoff hl⟩
  | call id name args span =>
    obtain ⟨entry, hl, huse⟩ := Expr.holds_bindName (recorded_cons.1 hrec).1
    exact ⟨_, huse, hlevel, OfferedBy.lexical? hoff hl⟩
  | new id cls args span =>
    rw [Expr.findings, recorded_append, recorded_cons] at hrec
    obtain ⟨entry, hl, huse⟩ := Expr.holds_bindNew hrec.2.1
    obtain ⟨hzero, hcls⟩ := OfferedBy.lookupClass? hoff hl
    exact ⟨_, huse, hlevel, hzero, hcls⟩
  | methodCall id object method args span =>
    rw [Expr.findings, recorded_append, recorded_cons] at hrec
    obtain ⟨entry, c, m, hl, -, -, -, hcall⟩ := Expr.holds_bindMethodCall hrec.2.1
    exact ⟨_, hcall, hlevel, OfferedBy.lexical? hoff hl⟩
  | literal _ _ | binary _ _ _ _ | unary _ _ _ | cond _ _ _ _ | print _ _ => trivial

/-- In a method of a subclass a parameter hides the superclass, and a local function an inherited method. -/
def Program.shadowing : Program := Program.built do
  let get ← Build.function "get" [] .int [] (← Build.ident "x")
  let a ← Build.cls "A" none [← Build.param "x" .int] [get]
  let make ← Build.function "get" [← Build.param "x" .int] (← Build.refType "A") []
    (← Build.new "A" [← Build.ident "x"])
  let object ← Build.var "object" (← Build.refType "A") (← Build.call "get" [← Build.literal (.int 1)])
  let sum ← Build.binary .add (← Build.methodCall "object" "get" []) (← Build.ident "x")
  let twice ← Build.function "twice" [← Build.param "A" .bool] .int [.func make, object] sum
  let b ← Build.cls "B" (some "A") [] [twice]
  Build.program [.cls a, .cls b] (← Build.literal .null)

/-- A `new` in a method where a parameter and a local function hide names of the outermost block: it still stands
for the class that is declared there, at level 0. -/
theorem Program.uses_static_shadowing :
    ∃ (cls : Name) (args : List Expr) (span : Span), cls.text = "A" ∧
      shadowing.Stands [[("x", 4)], [("A", 12), ("get", 7)], [("x", 2), ("get", 1), ("twice", 13)],
        [("A", 3), ("B", 14)]] (.new 6 cls args span) ∧
      ∃ use, shadowing.bind.tables.resolutions.use? 6 = some use ∧ use.useLevel + 1 = 4 ∧
        use.entry.level = 0 ∧ shadowing.bind.tables.resolutions.declaration? 3 = some use.entry := by
  have hid : shadowing.ids.Nodup := by decide +kernel
  have hbind : shadowing.bind.errors = [] := List.isEmpty_iff.1 (by decide +kernel)
  have htwice := @HasBlock.method shadowing _ (shadowing.decls.take 1) [] _ [] [] _ .top rfl rfl
  have hmake := @HasBlock.func shadowing _ [] _ _ htwice rfl
  have hstands : shadowing.Stands [[("x", 4)], [("A", 12), ("get", 7)],
      [("x", 2), ("get", 1), ("twice", 13)], [("A", 3), ("B", 14)]] _ := .body hmake
  obtain ⟨use, huse, hlevel, hzero, c, -, -, hdecl, hlast⟩ := uses_static hid hbind hstands
  have hc : c.id = 3 := (Option.some.inj hlast).symm
  exact ⟨_, _, _, rfl, hstands, use, huse, hlevel, hzero, hc ▸ hdecl⟩

end ObjLet
