import ObjLet.Proofs.Binding.Uses
import ObjLet.Proofs.Class.Kept
import ObjLet.Proofs.Class.Known
import ObjLet.Proofs.Typing.Parts

/-!
# Where the walk comes

`Program.Reaches` gives the environments in which the walk through a program comes to the declarations of its
blocks, whatever is wrong with the program. What is found there is part of the findings of the program
(`Program.Reaches.within`), and the classes that are declared from there on stay as they are at the end of the
block (`Program.Reaches.class?`).

With distinct ids the tables hold what was found and nothing else (`Program.holds_iff`).
-/

namespace ObjLet

open Findings
open scoped List

variable {p : Program} {env : Env}

/-! ## What the tables hold -/

namespace Findings

/-- A table holds what was recorded last or what it held before. -/
theorem eq_or_holds_of_record {r : Resolutions} {f g : Finding} (h : (r.record g).Holds f) :
    f = g ∨ r.Holds f := by
  cases g with
  | error e => exact .inr h
  | use id use =>
    cases f with
    | use id' use' =>
      simp only [Resolutions.Holds, Resolutions.record, Resolutions.use?_recordUse] at h
      split at h
      · next heq =>
        cases heq
        cases h
        exact .inl rfl
      · exact .inr h
    | _ => exact .inr h
  | methodCall id call =>
    cases f with
    | methodCall id' call' =>
      simp only [Resolutions.Holds, Resolutions.record, Resolutions.methodCall?_recordMethodCall] at h
      split at h
      · next heq =>
        cases heq
        cases h
        exact .inl rfl
      · exact .inr h
    | _ => exact .inr h
  | declaration id entry =>
    cases f with
    | declaration id' entry' =>
      simp only [Resolutions.Holds, Resolutions.record, Resolutions.declaration?_recordDeclaration] at h
      split at h
      · next heq =>
        cases heq
        cases h
        exact .inl rfl
      · exact .inr h
    | _ => exact .inr h

/-- What tables hold after recording findings is among them, or was there before. -/
theorem mem_or_holds_of_foldl {f : Finding} (fs : Findings) :
    ∀ {r : Resolutions}, (fs.foldl Resolutions.record r).Holds f → f ∈ fs ∨ r.Holds f := by
  induction fs with
  | nil => exact fun h => .inr h
  | cons g fs ih =>
    intro r h
    obtain hmem | hholds := ih h
    · exact .inl (List.mem_cons_of_mem _ hmem)
    · obtain rfl | hr := eq_or_holds_of_record hholds
      · exact .inl List.mem_cons_self
      · exact .inr hr

theorem not_holds_empty (f : Finding) : ¬ Resolutions.Holds {} f := by
  cases f with
  | error e => exact id
  | _ => simp [Resolutions.Holds, Resolutions.use?, Resolutions.methodCall?, Resolutions.declaration?]

/-- The tables hold only what was found. -/
theorem mem_of_holds {f : Finding} {fs : Findings} (h : (resolutions fs).Holds f) : f ∈ fs := by
  obtain hmem | hempty := mem_or_holds_of_foldl fs h
  · exact hmem
  · exact absurd hempty (not_holds_empty f)

/-- Under distinct ids every record stays, whatever was recorded before. -/
theorem holds_foldl_of_mem {f : Finding} {fs : Findings} (hid : (ids fs).Nodup) (hf : f ∈ fs) (hne : f.id? ≠ none)
    (r : Resolutions) : (fs.foldl Resolutions.record r).Holds f := by
  obtain ⟨before, after, rfl⟩ := List.append_of_mem hf
  rw [List.foldl_append, List.foldl_cons]
  refine holds_foldl after ?_ fun id hid' hmem => ?_
  · cases f with
    | error e => exact absurd rfl hne
    | _ => simp [Resolutions.Holds, Resolutions.record]
  · rw [ids_append, List.nodup_append] at hid
    have hcons : ids (f :: after) = id :: ids after := by simp [ids, hid']
    rw [hcons, List.nodup_cons] at hid
    exact hid.2.1.1 hmem

/-- With distinct ids the tables hold every record, whatever errors there are beside it. -/
theorem holds_of_mem {f : Finding} {fs : Findings} (hid : (ids fs).Nodup) (hf : f ∈ fs) (hne : f.id? ≠ none) :
    (resolutions fs).Holds f :=
  holds_foldl_of_mem hid hf hne {}

end Findings

/-- With distinct ids the tables of a program hold exactly the records that the walk found. -/
theorem Program.holds_iff (hid : p.ids.Nodup) {f : Finding} :
    p.bind.tables.resolutions.Holds f ↔ f ∈ p.walk.2 ∧ f.id? ≠ none := by
  constructor
  · intro h
    refine ⟨mem_of_holds h, ?_⟩
    cases f with
    | error e => exact h.elim
    | _ => exact nofun
  · rintro ⟨hmem, hne⟩
    exact holds_of_mem (hid.sublist p.ids_walk) hmem hne

/-- The tables have the entry of a node exactly where the walk declared it. -/
theorem Program.declaration?_eq_some (hid : p.ids.Nodup) {id : NodeId} {e : Entry} :
    p.bind.tables.resolutions.declaration? id = some e ↔ .declaration id e ∈ p.walk.2 := by
  simpa [Resolutions.Holds, Finding.id?] using p.holds_iff hid (f := .declaration id e)

/-- The tables have a use exactly where the walk recorded it. -/
theorem Program.use?_eq_some (hid : p.ids.Nodup) {id : NodeId} {use : Resolution} :
    p.bind.tables.resolutions.use? id = some use ↔ .use id use ∈ p.walk.2 := by
  simpa [Resolutions.Holds, Finding.id?] using p.holds_iff hid (f := .use id use)

/-- The tables have a method call exactly where the walk recorded it. -/
theorem Program.methodCall?_eq_some (hid : p.ids.Nodup) {id : NodeId} {call : MethodResolution} :
    p.bind.tables.resolutions.methodCall? id = some call ↔ .methodCall id call ∈ p.walk.2 := by
  simpa [Resolutions.Holds, Finding.id?] using p.holds_iff hid (f := .methodCall id call)

/-! ## Parts of a tree and of its findings -/

/-- The findings `fs` of nodes `is` among the findings `gs` of nodes `js`: what stands around them belongs to
the nodes around. -/
def Findings.Within (fs : Findings) (is : List NodeId) (gs : Findings) (js : List NodeId) : Prop :=
  ∃ (left right : Findings) (l r : List NodeId), gs = left ++ fs ++ right ∧ js = l ++ is ++ r ∧
    left.ids <+ l ∧ right.ids <+ r

namespace Findings.Within

variable {fs gs hs : Findings} {is js ks : List NodeId}

theorem refl (fs : Findings) (is : List NodeId) : Within fs is fs is :=
  ⟨[], [], [], [], (List.append_nil fs).symm, (List.append_nil is).symm, .refl _, .refl _⟩

theorem trans (h : Within fs is gs js) (h' : Within gs js hs ks) : Within fs is hs ks := by
  obtain ⟨left, right, l, r, rfl, rfl, hl, hr⟩ := h
  obtain ⟨left', right', l', r', rfl, rfl, hl', hr'⟩ := h'
  refine ⟨left' ++ left, right ++ right', l' ++ l, r ++ r', by simp, by simp, ?_, ?_⟩
  · rw [ids_append]
    exact hl'.append hl
  · rw [ids_append]
    exact hr.append hr'

/-- The findings of a part are findings of the whole. -/
theorem mem (h : Within fs is gs js) {f : Finding} (hf : f ∈ fs) : f ∈ gs := by
  obtain ⟨left, right, l, r, rfl, -⟩ := h
  simp [hf]

/-- Distinct ids stay distinct in a part. -/
theorem nodup (h : Within fs is gs js) (hid : js.Nodup) : is.Nodup := by
  obtain ⟨left, right, l, r, -, rfl, -⟩ := h
  exact (List.nodup_append.1 (List.nodup_append.1 hid).1).2.1

/-- With distinct ids nothing else is found for the nodes. -/
theorem mem_of_id (h : Within fs is gs js) (hid : js.Nodup) {f : Finding} (hf : f ∈ gs) {id : NodeId}
    (hf' : f.id? = some id) (his : id ∈ is) : f ∈ fs := by
  obtain ⟨left, right, l, r, rfl, rfl, hl, hr⟩ := h
  have hmem : ∀ {es : Findings}, f ∈ es → id ∈ es.ids := fun he => List.mem_filterMap.2 ⟨f, he, hf'⟩
  rw [List.append_assoc, List.nodup_append, List.nodup_append] at hid
  rw [List.append_assoc, List.mem_append, List.mem_append] at hf
  obtain hleft | hin | hright := hf
  · exact absurd rfl (hid.2.2 id (hl.subset (hmem hleft)) id (List.mem_append_left _ his))
  · exact hin
  · exact absurd rfl (hid.2.1.2.2 id his id (hr.subset (hmem hright)))

/-- What comes first. -/
theorem left (hg : gs.ids <+ js) : Within fs is (fs ++ gs) (is ++ js) :=
  ⟨[], gs, [], js, rfl, rfl, .refl _, hg⟩

/-- What comes last. -/
theorem right (hf : fs.ids <+ is) : Within gs js (fs ++ gs) (is ++ js) :=
  ⟨fs, [], is, [], (List.append_nil _).symm, (List.append_nil _).symm, hf, .refl _⟩

/-- What stands behind findings without ids. -/
theorem behind (hf : fs.ids = []) : Within gs js (fs ++ gs) js := right (List.sublist_nil.2 hf)

end Findings.Within

/-! ## Positions -/

/-- The environment around the body of a function that is declared in a block. -/
def FunDecl.declaredIn (f : FunDecl) (env : Env) : Env :=
  (env.declareLocal f.id f.name .func (f.signature env.classes).ty).1

/-- The body of a class before its members. -/
def ClassDecl.opened (c : ClassDecl) (env : Env) : ClassBody :=
  ClassBody.enter (env.declareClass c.id c.name c.superclass).2.1
    (env.declareClass c.id c.name c.superclass).1 c.name.text

/-- The body of a class behind its fields and some of its methods. -/
def ClassDecl.bodyBehind (c : ClassDecl) (env : Env) (methods : List FunDecl) : ClassBody :=
  (((c.opened env).declareFields c.fields).1.bindMethods methods).1

/-- At a declaration in `env` the walk enters the body of a function in another environment. -/
inductive Decl.Opens (env : Env) : Decl → Env → Signature → FunDecl → Prop where
  | func (f : FunDecl) : Opens env (.func f) (f.declaredIn env) (f.signature env.classes) f
  | method {c : ClassDecl} {pre post : List FunDecl} {m : FunDecl} (hm : c.methods = pre ++ m :: post) :
    Opens env (.cls c)
      ((c.bodyBehind env pre).declareMethod m (m.signature (c.bodyBehind env pre).env.classes)).1.env
      (m.signature (c.bodyBehind env pre).env.classes) m

/-- The walk comes in an environment to the declarations that are left of a block with some body. -/
inductive Program.Reaches (p : Program) : Env → List Decl → Expr → Prop where
  | start : p.Reaches .initial p.decls p.body
  | next {env : Env} {d : Decl} {ds : List Decl} {e : Expr} (h : p.Reaches env (d :: ds) e) :
    p.Reaches (d.bind env).1 ds e
  | inside {env env' : Env} {d : Decl} {ds : List Decl} {e : Expr} {sig : Signature} {f : FunDecl}
    (h : p.Reaches env (d :: ds) e) (ho : d.Opens env env' sig f) :
    p.Reaches (f.inner env' sig.params) f.decls f.body

/-- To come to a block is to come behind its first declarations. -/
theorem Program.Reaches.skip {before rest : List Decl} {e : Expr} (h : p.Reaches env (before ++ rest) e) :
    p.Reaches (Decl.bindAll env before).1 rest e := by
  induction before generalizing env with
  | nil => exact h
  | cons d before ih => exact ih h.next

/-- The walk enters the body of a function in an environment. -/
def Program.Enters (p : Program) (env : Env) (sig : Signature) (f : FunDecl) : Prop :=
  ∃ (Γ : Env) (d : Decl) (ds : List Decl) (e : Expr), p.Reaches Γ (d :: ds) e ∧ d.Opens Γ env sig f

/-- Inside a function the walk comes to its block. -/
theorem Program.Enters.reaches {sig : Signature} {f : FunDecl} (h : p.Enters env sig f) :
    p.Reaches (f.inner env sig.params) f.decls f.body := by
  obtain ⟨Γ, d, ds, e, hr, ho⟩ := h
  exact hr.inside ho

/-- The walk comes to every block. -/
theorem Program.HasBlock.reaches {b : Block} (hb : p.HasBlock b) : ∃ env, p.Reaches env b.decls b.body := by
  induction hb with
  | top => exact ⟨_, .start⟩
  | func _ hf ih =>
    obtain ⟨env, h⟩ := ih
    rw [hf] at h
    exact ⟨_, h.skip.inside (.func _)⟩
  | method _ hc hm ih =>
    obtain ⟨env, h⟩ := ih
    rw [hc] at h
    exact ⟨_, h.skip.inside (.method hm)⟩

/-- The walk enters every function. -/
theorem Program.HasFunction.enters {f : FunDecl} (hf : p.HasFunction f) : ∃ env sig, p.Enters env sig f := by
  cases hf with
  | func hb hf =>
    obtain ⟨env, h⟩ := hb.reaches
    obtain ⟨before, after, heq⟩ := List.append_of_mem hf
    rw [heq] at h
    exact ⟨_, _, _, _, _, _, h.skip, .func _⟩
  | method hb hc hm =>
    obtain ⟨env, h⟩ := hb.reaches
    obtain ⟨before, after, heq⟩ := List.append_of_mem hc
    obtain ⟨pre, post, hmethods⟩ := List.append_of_mem hm
    rw [heq] at h
    exact ⟨_, _, _, _, _, _, h.skip, .method hmethods⟩

/-- The signature has the parameters of the function. -/
theorem Decl.Opens.length_params {d : Decl} {env' : Env} {sig : Signature} {f : FunDecl}
    (h : d.Opens env env' sig f) : f.params.length = sig.params.length := by
  cases h <;> simp [FunDecl.signature]

/-! ## Findings of positions -/

/-- What is found in the rest of a block. -/
def Block.findings (env : Env) (ds : List Decl) (e : Expr) : Findings :=
  (Decl.bindAll env ds).2 ++ e.findings (Decl.bindAll env ds).1

theorem Block.findings_cons (env : Env) (d : Decl) (ds : List Decl) (e : Expr) :
    findings env (d :: ds) e = (d.bind env).2 ++ findings (d.bind env).1 ds e := by
  rw [findings, findings, ← List.append_assoc]
  rfl

/-- What is found in a block is recorded under the ids of the block. -/
theorem Block.ids_findings (env : Env) (ds : List Decl) (e : Expr) :
    (findings env ds e).ids <+ Decl.idsAll ds ++ e.ids := by
  rw [findings, ids_append]
  exact (Decl.ids_bindAll env ds).append (e.ids_findings _)

/-- Methods are bound one after the other. -/
theorem ClassBody.bindMethods_append (pre post : List FunDecl) :
    ∀ b : ClassBody, b.bindMethods (pre ++ post) =
      (((b.bindMethods pre).1.bindMethods post).1,
        (b.bindMethods pre).2 ++ ((b.bindMethods pre).1.bindMethods post).2) := by
  induction pre with
  | nil => exact fun _ => rfl
  | cons m pre ih =>
    intro b
    rw [List.cons_append, bindMethods_cons, bindMethods_cons, ih, List.append_assoc]

theorem FunDecl.idsAll_append (ms ms' : List FunDecl) :
    FunDecl.idsAll (ms ++ ms') = FunDecl.idsAll ms ++ FunDecl.idsAll ms' := by
  induction ms with
  | nil => rfl
  | cons m ms ih => rw [List.cons_append, idsAll, idsAll, ih, List.append_assoc]

/-- What binding a class finds: at its head, in its fields and in its methods. -/
theorem Decl.bind_cls (env : Env) (c : ClassDecl) :
    (Decl.cls c).bind env =
      ({ (env.declareClass c.id c.name c.superclass).2.1 with
          classes := (c.bodyBehind env c.methods).env.classes },
        (env.declareClass c.id c.name c.superclass).2.2 ++ ((c.opened env).declareFields c.fields).2 ++
          (((c.opened env).declareFields c.fields).1.bindMethods c.methods).2) := by
  cases c
  rfl

/-- The ids in a class: its own, those of its fields and those of its methods. -/
theorem Decl.ids_cls (c : ClassDecl) :
    (Decl.cls c).ids = c.id :: c.fields.map (·.id) ++ FunDecl.idsAll c.methods := by
  cases c
  rfl

/-- Apart from the classes a declaration declares its name and changes nothing. -/
theorem Decl.exists_declareLocal (env : Env) (d : Decl) :
    ∃ (t t' : ClassTable) (ty : Ty),
      (d.bind env).1 = { ({ env with classes := t }.declareLocal d.id d.name d.kind ty).1 with classes := t' } ∧
        ({ env with classes := t }.declareLocal d.id d.name d.kind ty).2 ⊆ (d.bind env).2 := by
  cases d with
  | var id name type init span =>
    refine ⟨env.classes, _, type.resolve env.classes, rfl, fun f hf => ?_⟩
    exact List.mem_append_right _ hf
  | func f =>
    refine ⟨env.classes, _, (f.signature env.classes).ty, rfl, fun g hg => ?_⟩
    exact List.mem_append_left _ (List.mem_append_right _ hg)
  | cls c =>
    rw [bind_cls]
    refine ⟨(env.classes.declare c.name.text (env.superclass c.name c.superclass).1).2, _, .cls env.classes.size, rfl,
      fun f hf => ?_⟩
    exact List.mem_append_left _ (List.mem_append_left _ (List.mem_append_right _ hf))

/-- No member is declared in a block. -/
theorem Decl.kind_ne (d : Decl) : d.kind ≠ .field ∧ d.kind ≠ .method := by
  cases d <;> simp [kind]

/-- A method is recorded with the type of its signature, new or inherited. -/
theorem ClassBody.declaration_ty_of_declareMethod {b : ClassBody} {m : FunDecl} {sig : Signature} {id : NodeId}
    {e : Entry} (h : .declaration id e ∈ (b.declareMethod m sig).2) : e.ty = sig.ty := by
  unfold declareMethod at h
  split at h
  · cases List.mem_singleton.1 h
  · cases List.mem_singleton.1 h
  · cases List.mem_singleton.1 h
    rfl
  · cases List.mem_singleton.1 h
    rfl

/-- A name is put into the innermost scope, unless it stands there already. -/
theorem Env.declare_cases {s : Scope} {outer : List Scope} (hs : env.scopes.scopes = s :: outer) (id : NodeId)
    (name : Name) (entry : Entry) :
    (∃ old, s[name.text]? = some old ∧ env.declare id name entry =
      (env, [.declaration id entry, name.error (.alreadyDeclared (.entry entry.kind) name.text)])) ∨
    s[name.text]? = none ∧ env.declare id name entry =
      ({ env with scopes := ⟨s.insert name.text entry :: outer⟩ }, [.declaration id entry]) := by
  unfold declare ScopeStack.declare
  rw [hs]
  cases hold : s[name.text]? with
  | some old => exact .inl ⟨old, rfl, by simp only [hold]⟩
  | none => exact .inr ⟨rfl, by simp only [hold]⟩

/-- A declaration in a block is recorded under its own id with its own entry. -/
theorem Env.declaration_of_declare {id id' : NodeId} {name : Name} {entry e : Entry}
    (h : .declaration id' e ∈ (env.declare id name entry).2) : id' = id ∧ e = entry := by
  unfold declare at h
  split at h
  · cases List.mem_singleton.1 h
    exact ⟨rfl, rfl⟩
  · obtain h | h := List.mem_cons.1 h
    · cases h
      exact ⟨rfl, rfl⟩
    · cases List.mem_singleton.1 h

/-- What is found in the body of a function stands behind its declaration, if it is declared at all. -/
theorem Decl.Opens.within {d : Decl} {env' : Env} {sig : Signature} {f : FunDecl} (h : d.Opens env env' sig f) :
    ∃ declared : Findings, (∀ e, .declaration f.id e ∈ declared → e.ty = sig.ty) ∧ declared.ids <+ [f.id] ∧
      Within (declared ++ (f.bindBody env' sig.params).2) f.ids (d.bind env).2 d.ids := by
  cases h with
  | func f =>
    refine ⟨(env.declareLocal f.id f.name .func (f.signature env.classes).ty).2, fun e he => ?_, ?_, ?_⟩
    · rw [(Env.declaration_of_declare he).2]
    · rw [Env.ids_declareLocal]
    · simp only [Decl.bind, List.append_assoc, Decl.ids]
      exact Within.behind (FunDecl.ids_headFindings _ _)
  | @method c pre post _ hm =>
    let b := c.bodyBehind env pre
    let sig := f.signature b.env.classes
    refine ⟨(b.declareMethod f sig).2, fun e he => ClassBody.declaration_ty_of_declareMethod he,
      b.ids_declareMethod f sig, ?_⟩
    have hmethod : Within ((b.declareMethod f sig).2 ++ (f.bindBody (b.declareMethod f sig).1.env sig.params).2)
        f.ids (b.bindMethod f).2 f.ids := by
      simp only [ClassBody.bindMethod, List.append_assoc]
      exact Within.behind (FunDecl.ids_headFindings _ _)
    rw [Decl.bind_cls, Decl.ids_cls, hm, ClassBody.bindMethods_append, FunDecl.idsAll_append,
      ClassBody.bindMethods_cons, FunDecl.idsAll]
    have hfields : ((env.declareClass c.id c.name c.superclass).2.2 ++ ((c.opened env).declareFields c.fields).2).ids
        <+ c.id :: c.fields.map (·.id) := by
      rw [ids_append, Env.ids_declareClass]
      exact ((c.opened env).ids_declareFields c.fields).cons_cons _
    refine ((hmethod.trans (Within.left ?_)).trans (Within.right ?_)).trans (Within.right hfields)
    · exact ClassBody.ids_bindMethods _ post
    · exact ClassBody.ids_bindMethods _ pre

/-- What is found in a function: its parameters, then its block. -/
theorem FunDecl.bindBody_findings (f : FunDecl) (env : Env) (paramTypes : List Ty) :
    (f.bindBody env paramTypes).2 =
      (env.enterFrame.declareParams Env.firstParam (f.params.zip paramTypes)).2 ++
        Block.findings (f.inner env paramTypes) f.decls f.body := by
  rw [FunDecl.bindBody_eq, Block.findings, ← List.append_assoc]
  rfl

/-- The ids in a function: its own, those of its parameters and those of its block. -/
theorem FunDecl.ids_eq (f : FunDecl) : f.ids = f.id :: f.params.map (·.id) ++ (Decl.idsAll f.decls ++ f.body.ids) := by
  cases f
  simp [FunDecl.ids]

/-- What is found of the parameters is recorded under their ids. -/
theorem FunDecl.ids_paramFindings (f : FunDecl) (env : Env) (paramTypes : List Ty) :
    (env.enterFrame.declareParams Env.firstParam (f.params.zip paramTypes)).2.ids <+ f.params.map (·.id) := by
  rw [Env.ids_declareParams, show (fun x : Param × Ty => x.1.id) = (·.id) ∘ Prod.fst from rfl, ← List.map_map]
  exact (map_fst_zip_sublist f.params paramTypes).map _

/-- What is found in a block comes from the walk through the program. -/
theorem Program.Reaches.within {ds : List Decl} {e : Expr} (h : p.Reaches env ds e) :
    Within (Block.findings env ds e) (Decl.idsAll ds ++ e.ids) p.walk.2 p.ids := by
  -- The induction is on the way of the walk: along a block what has been found stands to the left, and on
  -- entering a function what the block around finds stands on both sides.
  induction h with
  | start => exact Within.refl _ _
  | @next env d ds e _ ih =>
    refine Within.trans ?_ ih
    rw [Block.findings_cons, Decl.idsAll, List.append_assoc]
    exact Within.right (d.ids_bind env)
  | @inside env env' d ds e sig f _ ho ih =>
    obtain ⟨declared, -, hids, hf⟩ := ho.within
    refine (Within.trans ?_ hf).trans (Within.trans ?_ ih)
    · rw [FunDecl.bindBody_findings, FunDecl.ids_eq, ← List.append_assoc, ← List.singleton_append]
      apply Within.right
      rw [ids_append]
      exact hids.append (f.ids_paramFindings _ _)
    · rw [Block.findings_cons, Decl.idsAll, List.append_assoc]
      exact Within.left (Block.ids_findings _ _ _)

/-- What is found in a declaration comes from the walk through the program. -/
theorem Program.Reaches.within_decl {d : Decl} {ds : List Decl} {e : Expr} (h : p.Reaches env (d :: ds) e) :
    Within (d.bind env).2 d.ids p.walk.2 p.ids := by
  refine Within.trans ?_ h.within
  rw [Block.findings_cons, Decl.idsAll, List.append_assoc]
  exact Within.left (Block.ids_findings _ _ _)

/-! ## Classes at the end of the walk -/

/-- Parameters declare no class. -/
theorem FunDecl.classes_inner (f : FunDecl) (env : Env) (paramTypes : List Ty) :
    (f.inner env paramTypes).classes = env.classes :=
  Env.classes_declareParams _ _ _

/-- The classes behind a function are those that its block declares. -/
theorem FunDecl.classes_bindBody_eq (f : FunDecl) (env : Env) (paramTypes : List Ty) :
    (f.bindBody env paramTypes).1 = (Decl.bindAll (f.inner env paramTypes) f.decls).1.classes := by
  rw [FunDecl.bindBody_eq]
  rfl

/-- The class of a body stays the one that was opened. -/
theorem ClassDecl.cls_bodyBehind (c : ClassDecl) (env : Env) (methods : List FunDecl) :
    (c.bodyBehind env methods).cls = env.classes.size := by
  have hcls : ∀ (ms : List FunDecl) (b : ClassBody), (b.bindMethods ms).1.cls = b.cls := by
    intro ms
    induction ms with
    | nil => exact fun _ => rfl
    | cons m ms ih => exact fun b => (ih _).trans (b.cls_bindMethod m)
  rw [bodyBehind, hcls, ClassBody.cls_declareFields]
  rfl

/-- In the body of a class the class itself is there, behind the classes around it. -/
theorem ClassDecl.size_lt_bodyBehind (c : ClassDecl) (env : Env) (methods : List FunDecl) :
    env.classes.size < (c.bodyBehind env methods).env.classes.size := by
  have hbody := ((c.opened env).evolves_declareFields c.fields).trans (ClassBody.evolves_bindMethods _ methods)
  have hopened : (c.opened env).env.classes.size = env.classes.size + 1 := by
    change (env.declareClass c.id c.name c.superclass).2.1.classes.size = _
    rw [Env.classes_declareClass, ClassTable.size_declare]
  have hle := hbody.size_le
  rw [hopened] at hle
  exact hle

namespace Decl.Opens

variable {d : Decl} {env' : Env} {sig : Signature} {f : FunDecl}

/-- The function is walked behind the classes that were there at the declaration. -/
theorem size_le (h : d.Opens env env' sig f) : env.classes.size ≤ env'.classes.size := by
  cases h with
  | func f => exact Nat.le_of_eq (by rw [FunDecl.declaredIn, Env.classes_declareLocal])
  | @method c pre post _ hm =>
    have hmember := ((c.bodyBehind env pre).evolves_declareMethod f
      (f.signature (c.bodyBehind env pre).env.classes)).size_le
    exact Nat.le_trans (Nat.le_of_lt (c.size_lt_bodyBehind env pre)) hmember

/-- Behind a function the classes that its body has declared stay. -/
theorem class? (h : d.Opens env env' sig f) {k : ClassId} {c : Class} (hk : env'.classes.size ≤ k)
    (hc : (f.bindBody env' sig.params).1.class? k = some c) : (d.bind env).1.classes.class? k = some c := by
  cases h with
  | func f => exact hc
  | @method cls pre post _ hm =>
    let b := cls.bodyBehind env pre
    have hb : b.cls = env.classes.size := cls.cls_bodyBehind env pre
    -- Only the layout of the class around the methods still changes behind this one.
    have hmember := (b.evolves_declareMethod f (f.signature b.env.classes)).size_le
    -- The class of the body lies before the classes of the function.
    have hne : k ≠ b.cls := by
      rw [hb]
      exact Nat.ne_of_gt (Nat.lt_of_lt_of_le (cls.size_lt_bodyBehind env pre) (Nat.le_trans hmember hk))
    rw [Decl.bind_cls]
    simp only [ClassDecl.bodyBehind, hm, ClassBody.bindMethods_append, ClassBody.bindMethods_cons]
    exact ClassBody.keepsBut_bindMethods (b.cls_bindMethod f) post k c hne hc

end Decl.Opens

/-- The classes that are declared from a declaration on stay as they are behind it. -/
theorem Program.Reaches.class? {d : Decl} {ds : List Decl} {e : Expr} (h : p.Reaches env (d :: ds) e)
    {k : ClassId} {c : Class} (hk : env.classes.size ≤ k) (hc : (d.bind env).1.classes.class? k = some c) :
    p.bind.tables.classes.class? k = some c := by
  -- Stated for what is left of a block, so that the induction goes along the block and out of the functions
  -- around it.
  have hrest : ∀ {env ds e}, p.Reaches env ds e → env.classes.size ≤ k →
      (Decl.bindAll env ds).1.classes.class? k = some c → p.bind.tables.classes.class? k = some c := by
    intro env ds e h
    induction h with
    | start => exact fun _ hc => hc
    | @next env d ds e _ ih =>
      intro hk hc
      exact ih (Nat.le_trans (d.evolves_bind env).size_le hk) hc
    | @inside env env' d ds e sig f _ ho ih =>
      intro hk hc
      rw [FunDecl.classes_inner] at hk
      rw [← FunDecl.classes_bindBody_eq] at hc
      exact ih (Nat.le_trans ho.size_le hk) (Decl.keeps_bindAll _ ds _ _ (ho.class? hk hc))
  exact hrest h hk (Decl.keeps_bindAll _ ds _ _ hc)

end ObjLet
