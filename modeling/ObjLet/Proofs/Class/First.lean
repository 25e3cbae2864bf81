import ObjLet.Proofs.Binding.Duplicates
import ObjLet.Proofs.Binding.Frames
import ObjLet.Proofs.Binding.Shaped

/-!
# First members

The members of a class are declared one after the other over those that it inherits. Whatever is wrong with the
program, the first declaration of a name decides what the class has under the name (`Declared.Decides`,
`Program.Reaches.decides`): it becomes the member or, where it collides with an inherited member of the other kind,
that one stays. Later declarations of the name do not matter, those of nested classes neither.
-/

namespace ObjLet

open Findings

variable {p : Program} {env : Env} {found found' : Findings} {cls : String} {met : List String}
  {m m' m'' : VirtualTable} {d : Declared} {ds es : List Declared} {n : String}

namespace Declared

/-! ## One member after the other -/

/-- What the declaration of a member makes of the members of a class, with some names met before. -/
inductive Joins (found : Findings) (cls : String) (met : List String) (m : VirtualTable) (d : Declared) :
    VirtualTable → Prop where
  | duplicate (hd : d.key ∈ met) : Joins found cls met m d m
  | collision {i : Entry} (hd : d.key ∉ met) (hi : m[d.key]? = some i) (hk : i.kind ≠ d.kind)
      (he : d.name.error (.memberCollision (.entry d.kind) (.entry i.kind) cls d.key) ∈ found) :
      Joins found cls met m d m
  | member {e : Entry} (hd : d.key ∉ met) (hi : ∀ i, m[d.key]? = some i → i.kind = d.kind) (hk : e.kind = d.kind)
      (he : found.HasEntry d.id e) : Joins found cls met m d (m.insert d.key e)

/-- What the declarations of several members make of the members of a class. -/
inductive JoinAll (found : Findings) (cls : String) :
    List String → VirtualTable → List Declared → VirtualTable → Prop where
  | nil {met : List String} {m : VirtualTable} : JoinAll found cls met m [] m
  | cons {met : List String} {m m' m'' : VirtualTable} {d : Declared} {ds : List Declared}
      (hd : d.Joins found cls met m m') (hds : JoinAll found cls (met ++ [d.key]) m' ds m'') :
      JoinAll found cls met m (d :: ds) m''

theorem Joins.mono (h : d.Joins found cls met m m') (hsub : found ⊆ found') : d.Joins found' cls met m m' := by
  cases h with
  | duplicate hd => exact .duplicate hd
  | collision hd hi hk he => exact .collision hd hi hk (hsub he)
  | member hd hi hk he => exact .member hd hi hk (hsub he)

theorem JoinAll.mono (h : JoinAll found cls met m ds m') (hsub : found ⊆ found') :
    JoinAll found' cls met m ds m' := by
  induction h with
  | nil => exact .nil
  | cons hd _ ih => exact .cons (hd.mono hsub) ih

theorem JoinAll.append (h : JoinAll found cls met m ds m')
    (h' : JoinAll found cls (met ++ ds.map key) m' es m'') : JoinAll found cls met m (ds ++ es) m'' := by
  induction h with
  | nil => rwa [List.map_nil, List.append_nil] at h'
  | cons hd _ ih =>
    rw [List.map_cons, List.append_cons] at h'
    exact .cons hd (ih h')

/-- Other names keep their members. -/
theorem Joins.getElem?_of_ne (h : d.Joins found cls met m m') (hn : d.key ≠ n) : m'[n]? = m[n]? := by
  cases h with
  | duplicate _ => rfl
  | collision _ _ _ _ => rfl
  | member _ _ _ _ => rw [Scope.getElem?_insert, if_neg hn]

/-- A name that is met keeps its member. -/
theorem Joins.getElem?_of_mem (h : d.Joins found cls met m m') (hn : n ∈ met) : m'[n]? = m[n]? := by
  by_cases heq : d.key = n
  · subst heq
    cases h with
    | duplicate _ => rfl
    | collision hd _ _ _ => exact absurd hn hd
    | member hd _ _ _ => exact absurd hn hd
  · exact h.getElem?_of_ne heq

/-- Members that are met before stay, whatever comes behind. -/
theorem JoinAll.getElem?_of_mem (h : JoinAll found cls met m ds m') (hn : n ∈ met) : m'[n]? = m[n]? := by
  induction h with
  | nil => rfl
  | cons hd _ ih => exact (ih (List.mem_append_left _ hn)).trans (hd.getElem?_of_mem hn)

theorem Joins.membersOnly (h : d.Joins found cls met m m') (hd : d.kind = .field ∨ d.kind = .method)
    (hm : m.MembersOnly) : m'.MembersOnly := by
  cases h with
  | duplicate _ => exact hm
  | collision _ _ _ _ => exact hm
  | member _ _ hk _ =>
    refine Scope.forall_insert (P := fun _ e => e.IsMember) hm ?_
    rwa [Entry.IsMember, hk]

theorem JoinAll.membersOnly (h : JoinAll found cls met m ds m') (hds : ∀ d ∈ ds, d.kind = .field ∨ d.kind = .method)
    (hm : m.MembersOnly) : m'.MembersOnly := by
  induction h with
  | nil => exact hm
  | cons hd _ ih =>
    obtain ⟨hkind, hds⟩ := List.forall_mem_cons.1 hds
    exact ih hds (hd.membersOnly hkind hm)

/-- What a class has under the name of a declaration, over what it inherits: the declared member, or an inherited
member of the other kind, and then the declaration is rejected. -/
inductive Decides (p : Program) (cls : String) (inherited members : VirtualTable) (d : Declared) : Prop where
  | member {e : Entry} (hi : ∀ i, inherited[d.key]? = some i → i.kind = d.kind)
      (he : p.bind.tables.resolutions.declaration? d.id = some e) (hk : e.kind = d.kind)
      (hm : members[d.key]? = some e)
  | collision {i : Entry} (hi : inherited[d.key]? = some i) (himember : i.IsMember) (hk : i.kind ≠ d.kind)
      (he : ⟨.memberCollision (.entry d.kind) (.entry i.kind) cls d.key, d.name.span⟩ ∈ p.bind.errors)
      (hm : members[d.key]? = some i)

/-- Of the declarations of a name the first decides. -/
theorem JoinAll.decides (hid : p.ids.Nodup) (hfound : found ⊆ p.walk.2) (pre : List Declared) {post : List Declared} :
    ∀ {met : List String} {m : VirtualTable}, JoinAll found cls met m (pre ++ d :: post) m' →
      (∀ i, m[d.key]? = some i → i.IsMember) → d.key ∉ met → d.key ∉ pre.map key → d.Decides p cls m m' := by
  -- The members in front of the declaration have other names, so they change nothing under this one; those
  -- behind it find the name met.
  induction pre with
  | nil =>
    intro met m h hm hmet _
    obtain - | ⟨hd, hpost⟩ := h
    have hlast := hpost.getElem?_of_mem (List.mem_append_right met (List.mem_singleton_self d.key))
    cases hd with
    | duplicate hd => exact absurd hd hmet
    | collision _ hi hk he =>
      exact .collision hi (hm _ hi) hk (List.mem_filterMap.2 ⟨_, hfound he, rfl⟩) (hlast.trans hi)
    | member _ hi hk he =>
      rw [Scope.getElem?_insert, if_pos rfl] at hlast
      exact .member hi ((p.declaration?_eq_some hid).2 (hfound he)) hk hlast
  | cons x pre ih =>
    intro met m h hm hmet hpre
    rw [List.map_cons, List.mem_cons, not_or] at hpre
    obtain - | ⟨hx, hrest⟩ := h
    have hmet' : d.key ∉ met ++ [x.key] := by simp [hmet, hpre.1]
    have hsame := hx.getElem?_of_ne (Ne.symm hpre.1)
    cases ih hrest (fun i hi => hm i (hsame.symm.trans hi)) hmet' hpre.2 with
    | member hi he hk hm => exact .member (fun i h => hi i (hsame.trans h)) he hk hm
    | collision hi himember hk he hm => exact .collision (hsame.symm.trans hi) himember hk he hm

end Declared

open Declared (JoinAll)

/-! ## The body of a class -/

namespace ClassBody

/-- The body of the class `k` with the members `m`, which are its innermost scope, and the names met so far. -/
structure Holds (b : ClassBody) (k : ClassId) (className : String) (outer : List Scope) (met : List String)
    (m : VirtualTable) : Prop where
  cls : b.cls = k
  name : b.name = className
  met : b.Met met
  scopes : b.env.scopes.scopes = m :: outer
  members : b.env.classes.members? k = some m

namespace Holds

variable {b : ClassBody} {k : ClassId} {outer : List Scope}

/-- The layout has no part in what members there are. -/
theorem modifyLayout (h : b.Holds k cls outer met m) (f : ClassLayout → ClassLayout) :
    (b.modifyLayout f).Holds k cls outer met m := by
  refine ⟨h.cls, h.name, h.met, h.scopes, ?_⟩
  rw [← h.members]
  change (b.env.classes.modifyLayout b.cls f).members? k = b.env.classes.members? k
  simp only [ClassTable.members?, ClassTable.modifyLayout, ClassTable.class?_modify]
  split
  · exact Option.map_map _ _ _
  · rfl

/-- The name of a rejected member is met as well. -/
theorem reserve (h : b.Holds k cls outer met m) (name : String) :
    (b.reserve name).Holds k cls outer (met ++ [name]) m :=
  ⟨h.cls, h.name, h.met.reserve name, h.scopes, h.members⟩

theorem of_mem (h : b.Holds k cls outer met m) {name : String} (hn : name ∈ met) :
    b.Holds k cls outer (met ++ [name]) m := ⟨h.cls, h.name, h.met.of_mem hn, h.scopes, h.members⟩

/-- A new member goes to the members of the class and into the scope of the body. -/
theorem addMember (h : b.Holds k cls outer met m) (d : Declared) (ty : Ty) (offset : Int) :
    ∃ e : Entry, e.kind = d.kind ∧ (b.addMember d.id d.name d.kind ty offset).2.HasEntry d.id e ∧
      (b.addMember d.id d.name d.kind ty offset).1.Holds k cls outer (met ++ [d.key]) (m.insert d.key e) := by
  refine ⟨_, rfl, List.mem_singleton_self _, h.cls, h.name, h.met.reserve d.key, ?_, ?_⟩
  · change (b.env.scopes.overwrite _ _).scopes = _
    rw [ScopeStack.overwrite, h.scopes]
    rfl
  · obtain ⟨c, hc, rfl⟩ := Option.map_eq_some_iff.1 h.members
    change ((b.env.classes.insertMember b.cls _ _).class? k).map (·.members) = _
    rw [ClassTable.insertMember, ClassTable.class?_modify, if_pos h.cls, hc]
    rfl

/-- A member is declared where its placement says. -/
theorem joins (h : b.Holds k cls outer met m) (d : Declared) {override : Int → ClassBody × Findings}
    {fresh : ClassBody × Findings}
    (hoverride : ∀ offset, ∃ e : Entry, e.kind = d.kind ∧ (override offset).2.HasEntry d.id e ∧
      (override offset).1.Holds k cls outer (met ++ [d.key]) (m.insert d.key e))
    (hfresh : ∃ e : Entry, e.kind = d.kind ∧ fresh.2.HasEntry d.id e ∧
      fresh.1.Holds k cls outer (met ++ [d.key]) (m.insert d.key e)) :
    let r := match b.placement d.kind d.name.text with
      | .duplicate => b.rejectDuplicate d.name d.kind
      | .collision inherited => b.rejectCollision d.name d.kind inherited
      | .override offset => override offset
      | .fresh => fresh
    ∃ m', d.Joins r.2 cls met m m' ∧ r.1.Holds k cls outer (met ++ [d.key]) m' := by
  -- The scope of the body has the members so far, so the name is looked up among them.
  have hlocal : b.env.scopes.lookupLocal? d.name.text = m[d.key]? := by
    rw [ScopeStack.lookupLocal?, h.scopes]
    rfl
  unfold placement
  -- In the order in which the walk decides: a repetition first, whatever the superclass has.
  by_cases hmem : d.name.text ∈ b.declared
  · have hmet := (h.met d.key).1 hmem
    simp only [if_pos hmem]
    exact ⟨m, .duplicate hmet, h.of_mem hmet⟩
  have hmet : d.key ∉ met := fun hm => hmem ((h.met d.key).2 hm)
  simp only [if_neg hmem, hlocal]
  cases hi : m[d.key]? with
  | none =>
    obtain ⟨e, hk, he, hholds⟩ := hfresh
    refine ⟨_, .member hmet (fun i h => ?_) hk he, hholds⟩
    rw [hi] at h
    cases h
  | some i =>
    by_cases hk : i.kind = d.kind
    · simp only [if_pos hk]
      obtain ⟨e, hk', he, hholds⟩ := hoverride i.offset
      refine ⟨_, .member hmet (fun i' h => ?_) hk' he, hholds⟩
      rw [hi] at h
      cases h
      exact hk
    · simp only [if_neg hk]
      refine ⟨m, .collision hmet hi hk ?_, h.reserve d.key⟩
      rw [← h.name]
      exact List.mem_singleton_self _

/-- A field joins the members of its class, or is rejected. -/
theorem declareField (h : b.Holds k cls outer met m) (f : Param) (ty : Ty) :
    ∃ m', (f.declared .field).Joins (b.declareField f ty).2 cls met m m' ∧
      (b.declareField f ty).1.Holds k cls outer (met ++ [f.name.text]) m' := by
  refine h.joins (f.declared .field) (fun offset => ?_) ?_
  · exact (h.modifyLayout _).addMember (f.declared .field) ty offset
  · have h' := h.modifyLayout (·.addField ty)
    have h'' : Holds { b.modifyLayout (·.addField ty) with nextField := b.nextField - ty.words } k cls outer met m :=
      ⟨h'.cls, h'.name, h'.met, h'.scopes, h'.members⟩
    exact h''.addMember (f.declared .field) ty b.nextField

/-- A method joins the members of its class, or is rejected. -/
theorem declareMethod (h : b.Holds k cls outer met m) (f : FunDecl) (sig : Signature) :
    ∃ m', f.declared.Joins (b.declareMethod f sig).2 cls met m m' ∧
      (b.declareMethod f sig).1.Holds k cls outer (met ++ [f.name.text]) m' := by
  refine h.joins f.declared (fun slot => ?_) ?_
  · exact (h.modifyLayout _).addMember f.declared sig.ty slot
  · exact (h.modifyLayout _).addMember f.declared sig.ty b.nextSlot

/-- What happens in the body of a method changes no class around it. -/
theorem bindMethod (h : b.Holds k cls outer met m) (f : FunDecl) :
    ∃ m', f.declared.Joins (b.bindMethod f).2 cls met m m' ∧
      (b.bindMethod f).1.Holds k cls outer (met ++ [f.name.text]) m' := by
  obtain ⟨m', hjoins, h'⟩ := h.declareMethod f (f.signature b.env.classes)
  refine ⟨m', hjoins.mono ?_, h'.cls, h'.name, h'.met, h'.scopes, ?_⟩
  · intro g hg
    exact List.mem_append_left _ (List.mem_append_right _ hg)
  · obtain ⟨c, hc, hm⟩ := Option.map_eq_some_iff.1 h'.members
    exact Option.map_eq_some_iff.2 ⟨c, FunDecl.keeps_bindBody _ _ f k c hc, hm⟩

theorem declareFields (fs : List Param) :
    ∀ {b : ClassBody} {met : List String} {m : VirtualTable}, b.Holds k cls outer met m →
      ∃ m', JoinAll (b.declareFields fs).2 cls met m (fs.map (·.declared .field)) m' ∧
        (b.declareFields fs).1.Holds k cls outer (met ++ (fs.map (·.declared .field)).map Declared.key) m' := by
  induction fs with
  | nil =>
    intro b met m h
    refine ⟨m, .nil, ?_⟩
    rwa [List.map_nil, List.map_nil, List.append_nil]
  | cons f fs ih =>
    intro b met m h
    obtain ⟨m₁, hjoins, h₁⟩ := h.declareField f (f.type.resolve b.env.classes)
    obtain ⟨m', hall, h'⟩ := ih h₁
    rw [List.append_assoc] at h'
    refine ⟨m', .cons (hjoins.mono ?_) (hall.mono ?_), h'⟩
    · intro g hg
      exact List.mem_append_left _ (List.mem_append_right _ hg)
    · intro g hg
      exact List.mem_append_right _ hg

/-- The methods join one after the other, with their bodies walked in between. -/
theorem bindMethods (ms : List FunDecl) :
    ∀ {b : ClassBody} {met : List String} {m : VirtualTable}, b.Holds k cls outer met m →
      ∃ m', JoinAll (b.bindMethods ms).2 cls met m (ms.map FunDecl.declared) m' ∧
        (b.bindMethods ms).1.Holds k cls outer (met ++ (ms.map FunDecl.declared).map Declared.key) m' := by
  induction ms with
  | nil =>
    intro b met m h
    refine ⟨m, .nil, ?_⟩
    rwa [List.map_nil, List.map_nil, List.append_nil]
  | cons f ms ih =>
    intro b met m h
    obtain ⟨m₁, hjoins, h₁⟩ := h.bindMethod f
    obtain ⟨m', hall, h'⟩ := ih h₁
    rw [List.append_assoc] at h'
    rw [bindMethods_cons]
    refine ⟨m', .cons (hjoins.mono ?_) (hall.mono ?_), h'⟩
    · intro g hg
      exact List.mem_append_left _ hg
    · intro g hg
      exact List.mem_append_right _ hg

end Holds

end ClassBody

/-! ## The members of a class -/

/-- What is found at the members of a class up to some of its methods. -/
def ClassDecl.memberFindings (c : ClassDecl) (env : Env) (methods : List FunDecl) : Findings :=
  ((c.opened env).declareFields c.fields).2 ++ (((c.opened env).declareFields c.fields).1.bindMethods methods).2

/-- Behind some methods of a class its members have joined the inherited ones. -/
theorem ClassDecl.holds_bodyBehind (c : ClassDecl) (env : Env) (ms : List FunDecl) :
    ∃ (met : List String) (m : VirtualTable),
      JoinAll (c.memberFindings env ms) c.name.text [] (env.startClass c.name c.superclass).members
        (c.fields.map (·.declared .field) ++ ms.map FunDecl.declared) m ∧
      (c.bodyBehind env ms).Holds env.classes.size c.name.text ((Decl.cls c).bind env).1.scopes.scopes met m := by
  have hat := env.enter_declareClass c.id c.name c.superclass
  have hopened : (c.opened env).Holds env.classes.size c.name.text
      (env.declareClass c.id c.name c.superclass).2.1.scopes.scopes []
      (env.startClass c.name c.superclass).members := by
    refine ⟨rfl, rfl, fun n => Iff.rfl, hat.scopes, Option.map_eq_some_iff.2 ⟨_, ?_, rfl⟩⟩
    exact hat.class?
  obtain ⟨m₁, hfields, h₁⟩ := hopened.declareFields c.fields
  obtain ⟨m₂, hmethods, h₂⟩ := h₁.bindMethods ms
  rw [Decl.bind_cls]
  refine ⟨_, m₂, (hfields.mono ?_).append (hmethods.mono ?_), h₂⟩
  · exact List.subset_append_left _ _
  · exact List.subset_append_right _ _

/-- The members of a class are decided by the first declarations of their names. -/
theorem Program.Reaches.decides (hid : p.ids.Nodup) {c : ClassDecl} {after : List Decl} {e : Expr}
    (h : p.Reaches env (.cls c :: after) e) :
    ∃ final : Class, p.bind.tables.classes.class? env.classes.size = some final ∧
      ∀ (pre : List Declared) (d : Declared) (post : List Declared), c.members = pre ++ d :: post →
        d.key ∉ pre.map Declared.key →
        d.Decides p c.name.text (env.startClass c.name c.superclass).members final.members := by
  obtain ⟨met, m, hall, hholds⟩ := c.holds_bodyBehind env c.methods
  obtain ⟨final, hfinal, rfl⟩ := Option.map_eq_some_iff.1 hholds.members
  refine ⟨final, h.class? (Nat.le_refl _) ?_, fun pre d post hmembers hpre => ?_⟩
  · rw [Decl.bind_cls]
    exact hfinal
  · have hfound : c.memberFindings env c.methods ⊆ p.walk.2 := by
      intro f hf
      apply h.within_decl.mem
      rw [Decl.bind_cls, List.append_assoc]
      exact List.mem_append_right _ hf
    change JoinAll _ _ _ _ c.members _ at hall
    rw [hmembers] at hall
    have hstart := h.shaped.classes.newClass env.classes.size c.name.text (env.superclass c.name c.superclass).1
    exact hall.decides hid hfound pre (hstart.membersOnly _) List.not_mem_nil hpre

/-- The entry of a class declaration belongs to the next class of the table. -/
theorem Program.Reaches.declaredClass? (hid : p.ids.Nodup) {c : ClassDecl} {after : List Decl} {e : Expr}
    (h : p.Reaches env (.cls c :: after) e) :
    (p.bind.tables.resolutions.declaration? c.id).bind (·.declaredClass?) = some env.classes.size := by
  have hentry : (env.declareClass c.id c.name c.superclass).2.2.HasEntry c.id
      ⟨.cls, env.level, env.nextLocal, .cls env.classes.size⟩ := by
    simp only [Env.declareClass]
    exact List.mem_append_right _ (Env.hasEntry_declare _ _ _ _)
  have hdecl := (p.declaration?_eq_some hid).2 (h.within_decl.mem (by
    rw [Decl.bind_cls, List.append_assoc]
    exact List.mem_append_left _ hentry))
  rw [hdecl]
  rfl

end ObjLet
