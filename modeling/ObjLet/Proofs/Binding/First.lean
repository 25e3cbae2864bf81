import Mathlib.Algebra.GroupWithZero.Nat
import ObjLet.Proofs.Binding.Sites
import ObjLet.Proofs.Class.First
import ObjLet.Syntax.Builder

/-!
# First declarations

Declarations of a name that stands already in its scope are reported one by one, and they do not count
(`Program.FirstWins`, `Program.first_wins`): whatever else is wrong with the program, a use that is bound in a block
gets the entry of the first declaration of the name there. The walk holds these entries in its scopes
(`Program.Around`); the scopes of classes between them hold nothing but members.
-/

namespace ObjLet

open Findings
open scoped List

variable {p : Program} {env : Env}

/-! ## Scopes of blocks -/

/-- A scope of the walk has the entries of the first nodes that declare the names of a block. -/
def Scope.Firsts (p : Program) (level : Nat) (ns : Names) (s : Scope) : Prop :=
  ∀ name : String,
    Option.Rel (fun node e => Finding.declaration node e ∈ p.walk.2 ∧ e.level = level ∧ ¬ e.IsMember) (ns.lookup name)
      s[name]?

/-- The scopes of the walk around a position, and what the scopes of the program offer there. -/
inductive Program.Around (p : Program) : List Names → List Scope → Prop where
  | nil : p.Around [] []
  | block {b : Block} {before after : List Decl} {s : Scope} {ss : List Scope} (hb : p.HasBlock b)
      (hd : b.decls = before ++ after) (hs : s.Firsts p b.outer.length (b.params ++ before.map Decl.named))
      (hss : p.Around b.outer ss) : p.Around (b.scopes before) (s :: ss)
  | members {b : Block} {before after : List Decl} {c : ClassDecl} {pre post : List FunDecl} {m : FunDecl} {s : Scope}
      {ss : List Scope} (hb : p.HasBlock b) (hc : b.decls = before ++ .cls c :: after)
      (hm : c.methods = pre ++ m :: post) (hs : s.MembersOnly) (hss : p.Around (b.scopes (before ++ [.cls c])) ss) :
      p.Around (c.scope (c.inherited before) (pre ++ [m]) :: b.scopes (before ++ [.cls c])) (s :: ss)

theorem Scope.firsts_empty (p : Program) (level : Nat) : Scope.Firsts p level [] ∅ := by
  intro name
  rw [Std.TreeMap.getElem?_emptyc]
  exact .none

/-- A name that is added last counts only where it did not stand before. -/
theorem Names.lookup_concat (ns : Names) (n : String) (node : NodeId) (name : String) :
    (ns ++ [(n, node)]).lookup name = (ns.lookup name).or (if n = name then some node else none) := by
  rw [List.lookup_append]
  by_cases h : n = name
  · rw [if_pos h, h, List.lookup_cons_self]
  · rw [if_neg h, List.lookup_cons, beq_false_of_ne (Ne.symm h)]
    rfl

namespace Scope.Firsts

variable {level : Nat} {ns : Names} {s : Scope} {name : String} {node : NodeId} {e : Entry}

/-- An entry of the scope is that of the first node with the name. -/
theorem lookup (h : s.Firsts p level ns) (he : s[name]? = some e) :
    ∃ node, ns.lookup name = some node ∧ .declaration node e ∈ p.walk.2 ∧ e.level = level ∧ ¬ e.IsMember := by
  have hrel := h name
  rw [he] at hrel
  generalize ns.lookup name = found at hrel ⊢
  cases hrel with
  | some hnode => exact ⟨_, rfl, hnode⟩

/-- A name without an entry is declared nowhere in the block so far. -/
theorem lookup_eq_none (h : s.Firsts p level ns) (he : s[name]? = none) : ns.lookup name = none := by
  have hrel := h name
  rw [he] at hrel
  generalize ns.lookup name = found at hrel ⊢
  cases hrel
  rfl

/-- A second declaration of a name is not the first one. -/
theorem again (h : s.Firsts p level ns) (he : s[name]? = some e) (node : NodeId) :
    s.Firsts p level (ns ++ [(name, node)]) := by
  intro n
  have hsame : (ns ++ [(name, node)]).lookup n = ns.lookup n := by
    rw [Names.lookup_concat]
    split
    · next heq =>
      obtain ⟨first, hfirst, -⟩ := h.lookup he
      rw [← heq, hfirst, Option.some_or]
    · exact Option.or_none
  rw [hsame]
  exact h n

/-- A name that the scope does not have yet gets the entry of its node. -/
theorem insert (h : s.Firsts p level ns) (he : s[name]? = none) (hnode : .declaration node e ∈ p.walk.2)
    (hlevel : e.level = level) (hmember : ¬ e.IsMember) :
    Scope.Firsts p level (ns ++ [(name, node)]) (s.insert name e) := by
  intro n
  rw [Names.lookup_concat, Scope.getElem?_insert]
  split
  · next heq =>
    rw [← heq, h.lookup_eq_none he]
    exact .some ⟨hnode, hlevel, hmember⟩
  · rw [Option.or_none]
    exact h n

end Scope.Firsts

/-! ## The walk through a block -/

/-- In a block, behind the declarations of some names and inside of some scopes. -/
structure Env.Behind (p : Program) (ns : Names) (outer : List Names) (env : Env) : Prop where
  scopes : ∃ (s : Scope) (ss : List Scope), env.scopes.scopes = s :: ss ∧ s.Firsts p outer.length ns ∧
    ss.length = outer.length ∧ p.Around outer ss

/-- There are as many scopes around a position in the walk as in the program. -/
theorem Program.Around.length_eq {scopes : List Names} {ss : List Scope} (h : p.Around scopes ss) :
    ss.length = scopes.length := by
  induction h with
  | nil => rfl
  | block _ _ _ _ ih => exact congrArg (· + 1) ih
  | members _ _ _ _ _ ih => exact congrArg (· + 1) ih

namespace Env.Behind

variable {ns : Names} {outer : List Names}

/-- Only the scopes say where in a block an environment stands. -/
theorem of_scopes_eq (h : env.Behind p ns outer) {env' : Env} (hs : env'.scopes = env.scopes) :
    env'.Behind p ns outer := by
  refine ⟨?_⟩
  rw [hs]
  exact h.scopes

/-- The level counts the scopes around the block. -/
theorem level (h : env.Behind p ns outer) : env.level = outer.length := by
  obtain ⟨s, ss, hs, -, hlen, -⟩ := h.scopes
  simp [Env.level, ScopeStack.level, ScopeStack.depth, hs, hlen]

/-- Behind the declaration of a name, whether it was declared or reported. -/
theorem declare (h : env.Behind p ns outer) {id : NodeId} {name : Name} {entry : Entry}
    (hlevel : entry.level = env.level) (hmember : ¬ entry.IsMember)
    (hfound : (env.declare id name entry).2 ⊆ p.walk.2) :
    (env.declare id name entry).1.Behind p (ns ++ [(name.text, id)]) outer := by
  rw [h.level] at hlevel
  have hnode := hfound (env.hasEntry_declare id name entry)
  obtain ⟨s, ss, hs, hfirsts, hlen, hss⟩ := h.scopes
  obtain ⟨old, hold, heq⟩ | ⟨hnone, heq⟩ := declare_cases hs id name entry
  · rw [heq]
    exact ⟨s, ss, hs, hfirsts.again hold id, hlen, hss⟩
  · rw [heq]
    exact ⟨_, ss, rfl, hfirsts.insert hnone hnode hlevel hmember, hlen, hss⟩

theorem declareLocal (h : env.Behind p ns outer) {id : NodeId} {name : Name} {kind : EntryKind} {ty : Ty}
    (hkind : ¬ (kind = .field ∨ kind = .method)) (hfound : (env.declareLocal id name kind ty).2 ⊆ p.walk.2) :
    (env.declareLocal id name kind ty).1.Behind p (ns ++ [(name.text, id)]) outer := by
  have h' : Behind p ns outer { env with nextLocal := env.nextLocal - ty.words } := h.of_scopes_eq rfl
  exact h'.declare rfl hkind hfound

/-- Behind the parameters, which are the first names of a function's block. -/
theorem declareParams (pts : List (Param × Ty)) :
    ∀ {env : Env} {ns : Names} {next : Int}, env.Behind p ns outer → (env.declareParams next pts).2 ⊆ p.walk.2 →
      (env.declareParams next pts).1.Behind p (ns ++ (pts.map (·.1)).map Param.named) outer := by
  induction pts with
  | nil =>
    intro env ns next h _
    rwa [List.map_nil, List.map_nil, List.append_nil]
  | cons pt pts ih =>
    intro env ns next h hfound
    obtain ⟨hhead, htail⟩ := List.append_subset.1 hfound
    have hrest := ih (h.declare rfl (by simp [Entry.IsMember]) hhead) htail
    rwa [List.append_assoc] at hrest

/-- Behind a declaration of the block, whatever it declares inside. -/
theorem bind (h : env.Behind p ns outer) {d : Decl} (hfound : (d.bind env).2 ⊆ p.walk.2) :
    (d.bind env).1.Behind p (ns ++ [d.named]) outer := by
  obtain ⟨t, t', ty, heq, hdeclared⟩ := d.exists_declareLocal env
  have h' : Behind p ns outer { env with classes := t } := h.of_scopes_eq rfl
  rw [heq]
  exact (h'.declareLocal (not_or.2 d.kind_ne) (List.Subset.trans hdeclared hfound)).of_scopes_eq rfl

/-- Behind declarations of a block the scopes are those around what follows. -/
theorem around {b : Block} {before after : List Decl} (hb : p.HasBlock b) (hd : b.decls = before ++ after)
    (h : env.Behind p (b.params ++ before.map Decl.named) b.outer) : p.Around (b.scopes before) env.scopes.scopes := by
  obtain ⟨s, ss, hs, hfirsts, -, hss⟩ := h.scopes
  rw [hs]
  exact .block hb hd hfirsts hss

end Env.Behind

theorem Program.Reaches.behind {outer : List Names} (before : List Decl) {rest : List Decl} {e : Expr} :
    ∀ {env : Env} {ns : Names}, p.Reaches env (before ++ rest) e → env.Behind p ns outer →
      (Decl.bindAll env before).1.Behind p (ns ++ before.map Decl.named) outer := by
  induction before with
  | nil =>
    intro env ns _ h
    rwa [List.map_nil, List.append_nil]
  | cons d before ih =>
    intro env ns hr h
    have hd := h.bind (fun f hf => hr.within_decl.mem hf)
    have hrest := ih hr.next hd
    rwa [List.append_assoc] at hrest

/-- In the body of a class its members are the scope around each method. -/
theorem Program.Reaches.exists_members {c : ClassDecl} {after : List Decl} {e : Expr}
    (h : p.Reaches env (.cls c :: after) e) (pre : List FunDecl) (m : FunDecl) (sig : Signature) :
    ∃ s : Scope, s.MembersOnly ∧ ((c.bodyBehind env pre).declareMethod m sig).1.env.scopes.scopes =
      s :: ((Decl.cls c).bind env).1.scopes.scopes := by
  obtain ⟨met, members, hall, hholds⟩ := c.holds_bodyBehind env pre
  obtain ⟨members', hjoins, hholds'⟩ := hholds.declareMethod m sig
  have hkinds : ∀ d ∈ c.fields.map (·.declared .field) ++ pre.map FunDecl.declared,
      d.kind = .field ∨ d.kind = .method := by
    intro d hd
    obtain hd | hd := List.mem_append.1 hd
    · obtain ⟨f, -, rfl⟩ := List.mem_map.1 hd
      exact .inl rfl
    · obtain ⟨m, -, rfl⟩ := List.mem_map.1 hd
      exact .inr rfl
  have hstart := h.shaped.classes.newClass env.classes.size c.name.text (env.superclass c.name c.superclass).1
  exact ⟨members', hjoins.membersOnly (.inr rfl) (hall.membersOnly hkinds hstart.membersOnly), hholds'.scopes⟩

theorem Block.named_concat (b : Block) (before : List Decl) (d : Decl) :
    b.params ++ before.map Decl.named ++ [d.named] = b.params ++ (before ++ [d]).map Decl.named := by
  rw [List.map_append, List.map_singleton, List.append_assoc]

/-- A function that is entered in scopes of the program starts with its parameters. -/
theorem Program.Enters.behind {sig : Signature} {f : FunDecl} (h : p.Enters env sig f) {outer : List Names}
    (hss : p.Around outer env.scopes.scopes) : (f.inner env sig.params).Behind p (f.params.map Param.named) outer := by
  obtain ⟨declared, -, -, hwithin⟩ := h.within
  have hfound : (f.bindBody env sig.params).2 ⊆ p.walk.2 := fun g hg => hwithin.mem (List.mem_append_right _ hg)
  rw [FunDecl.bindBody_findings] at hfound
  have henter : env.enterFrame.Behind p [] outer := ⟨∅, _, rfl, Scope.firsts_empty p _, hss.length_eq, hss⟩
  have hparams := henter.declareParams (f.params.zip sig.params) (List.append_subset.1 hfound).1
  rwa [List.map_fst_zip (Nat.le_of_eq h.length_params), List.nil_append] at hparams

/-- The walk comes to every block behind its parameters. -/
theorem Program.HasBlock.behind {b : Block} (hb : p.HasBlock b) :
    ∃ env, p.Reaches env b.decls b.body ∧ env.Behind p b.params b.outer := by
  induction hb with
  | top => exact ⟨_, .start, ∅, [], rfl, Scope.firsts_empty p 0, rfl, .nil⟩
  | @func b before after f hb hf ih =>
    obtain ⟨env, hr, h⟩ := ih
    rw [hf] at hr
    have hdeclared := (hr.behind before h).bind fun g hg => hr.skip.within_decl.mem hg
    rw [b.named_concat] at hdeclared
    have hss := hdeclared.around hb (hf.trans (List.append_cons _ _ _))
    have henters : p.Enters _ _ f := ⟨_, _, _, _, hr.skip, .func f⟩
    exact ⟨_, henters.reaches, henters.behind hss⟩
  | @method b before after c pre post m hb hc hm ih =>
    obtain ⟨env, hr, h⟩ := ih
    rw [hc] at hr
    have hdeclared := (hr.behind before h).bind fun g hg => hr.skip.within_decl.mem hg
    rw [b.named_concat] at hdeclared
    have hss := hdeclared.around hb (hc.trans (List.append_cons _ _ _))
    have henters : p.Enters _ _ m := ⟨_, _, _, _, hr.skip, .method hm⟩
    obtain ⟨s, hs, heq⟩ := hr.skip.exists_members pre m _
    refine ⟨_, henters.reaches, henters.behind ?_⟩
    rw [heq]
    exact .members hb hc hm hs hss

/-! ## Uses in blocks -/

/-- The name that is looked up for a use. -/
def Use.name : Use → Name
  | ident _ name => name
  | new _ cls => cls
  | methodCall _ object _ => object

/-- The entry that a use is recorded with; that of a method call is the one of its object. -/
def Use.entry? (r : Resolutions) : Use → Option Entry
  | ident id _ | new id _ => (r.use? id).map (·.entry)
  | methodCall id _ _ => (r.methodCall? id).map (·.object.entry)

/-- The entry that a use gets stands in a scope around it. -/
theorem Use.exists_scope (hid : p.ids.Nodup) {u : Use} {e : Entry}
    (hbind : ∀ f ∈ p.walk.2, f.id? = some u.id → f = u.bind env)
    (he : u.entry? p.bind.tables.resolutions = some e) : ∃ s ∈ env.scopes.scopes, s[u.name.text]? = some e := by
  have holds : ∀ f ∈ p.walk.2, f.id? = some u.id → p.bind.tables.resolutions.Holds (u.bind env) := by
    intro f hf hfid
    rw [← hbind f hf hfid, p.holds_iff hid, hfid]
    exact ⟨hf, Option.some_ne_none _⟩
  cases u with
  | ident id name =>
    obtain ⟨use, huse, rfl⟩ := Option.map_eq_some_iff.1 he
    obtain ⟨entry, hl, huse'⟩ := Expr.holds_bindName (holds _ ((p.use?_eq_some hid).1 huse) rfl)
    cases huse.symm.trans huse'
    exact List.exists_of_findSome?_eq_some hl
  | new id cls =>
    obtain ⟨use, huse, rfl⟩ := Option.map_eq_some_iff.1 he
    obtain ⟨entry, hl, huse'⟩ := Expr.holds_bindNew (holds _ ((p.use?_eq_some hid).1 huse) rfl)
    cases huse.symm.trans huse'
    obtain ⟨s, hs, he⟩ := List.exists_of_findSome?_eq_some hl
    exact ⟨s, hs, (Option.filter_eq_some_iff.1 he).1⟩
  | methodCall id object method =>
    obtain ⟨call, hcall, rfl⟩ := Option.map_eq_some_iff.1 he
    obtain ⟨entry, cls, m, hl, -, -, -, hcall'⟩ :=
      Expr.holds_bindMethodCall (holds _ ((p.methodCall?_eq_some hid).1 hcall) rfl)
    cases hcall.symm.trans hcall'
    exact List.exists_of_findSome?_eq_some hl

/-- A use in one of several expressions is a use in all of them. -/
theorem Expr.mem_usesAll {es : List Expr} {e : Expr} (he : e ∈ es) {u : Use} (hu : u ∈ e.uses) : u ∈ usesAll es := by
  induction es with
  | nil => cases he
  | cons e' es ih =>
    rw [usesAll, List.mem_append]
    obtain rfl | he := List.mem_cons.1 he
    · exact .inl hu
    · exact .inr (ih he)

/-- The uses in a part of an expression are among its uses. -/
theorem Expr.uses_part {e e' : Expr} (he : e' ∈ e.parts) {u : Use} (hu : u ∈ e'.uses) : u ∈ e.uses := by
  cases e with
  | literal value span | ident id name => cases he
  | call id callee args span => exact List.mem_cons_of_mem _ (mem_usesAll he hu)
  | new id cls args span | methodCall id object method args span =>
    exact List.mem_append_left _ (mem_usesAll he hu)
  | binary op left right span =>
    simp only [parts, List.mem_cons, List.not_mem_nil, or_false] at he
    obtain rfl | rfl := he
    · exact List.mem_append_left _ hu
    · exact List.mem_append_right _ hu
  | unary op operand span | print operand span =>
    cases List.mem_singleton.1 he
    exact hu
  | cond condition thenExpr elseExpr span =>
    simp only [parts, List.mem_cons, List.not_mem_nil, or_false] at he
    obtain rfl | rfl | rfl := he
    · exact List.mem_append_left _ (List.mem_append_left _ hu)
    · exact List.mem_append_left _ (List.mem_append_right _ hu)
    · exact List.mem_append_right _ hu

/-- With distinct ids nothing else is found for a use than what it is bound to where its expression stands. -/
theorem Expr.eq_bind {e : Expr} (hid : p.ids.Nodup) (h : Within (e.findings env) e.ids p.walk.2 p.ids) {u : Use}
    (hu : u ∈ e.uses) : ∀ f ∈ p.walk.2, f.id? = some u.id → f = u.bind env := by
  intro f hf hfid
  have hnodup := h.nodup hid
  rw [Expr.ids_eq] at h hnodup
  have hmem := h.mem_of_id hid hf hfid (List.mem_map_of_mem hu)
  rw [Expr.findings_eq] at hmem
  obtain ⟨u', hu', rfl⟩ := List.mem_map.1 hmem
  obtain hrec | ⟨e', heq, -⟩ := u'.bind_cases env
  · rw [hrec.id?] at hfid
    rw [List.inj_on_of_nodup_map hnodup hu' hu (Option.some.inj hfid)]
  · rw [heq] at hfid
    cases hfid

/-- The walk comes to every use in scopes of the program. -/
theorem Program.Stands.around (hid : p.ids.Nodup) {scopes : List Names} {e : Expr} (h : p.Stands scopes e) :
    ∃ env, p.Around scopes env.scopes.scopes ∧ ∀ u ∈ e.uses, ∀ f ∈ p.walk.2, f.id? = some u.id → f = u.bind env := by
  induction h with
  | @body b hb =>
    obtain ⟨env, hr, h⟩ := hb.behind
    have hd := (List.append_nil b.decls).symm
    rw [hd] at hr
    refine ⟨_, (hr.behind b.decls h).around hb hd, fun u hu => Expr.eq_bind hid ?_ hu⟩
    exact hr.skip.within
  | @init b before after id name type init span hb hd =>
    obtain ⟨env, hr, h⟩ := hb.behind
    rw [hd] at hr
    refine ⟨_, (hr.behind before h).around hb hd, fun u hu => Expr.eq_bind hid (Within.trans ?_ hr.skip.within_decl) hu⟩
    simp only [Decl.bind, Decl.ids, List.append_assoc]
    apply Within.left
    rw [ids_append, TypeExpr.ids_findings, Env.ids_declareLocal]
    exact .refl _
  | part _ he ih =>
    obtain ⟨env, hss, hbind⟩ := ih
    exact ⟨env, hss, fun u hu => hbind u (Expr.uses_part he hu)⟩

/-- The entry of a name is that of its first declaration in a block, which is one of those around a position. -/
structure Entry.FirstIn (p : Program) (scopes : List Names) (name : String) (b : Block) (e : Entry) : Prop where
  block : p.HasBlock b
  around : ∃ before after, b.decls = before ++ after ∧ b.scopes before <:+ scopes
  level : e.level = b.outer.length
  notMember : ¬ e.IsMember
  first : ∃ node, (b.params ++ b.decls.map Decl.named).lookup name = some node ∧
    p.bind.tables.resolutions.declaration? node = some e

/-- What is first in a block around a position is so deeper inside as well. -/
theorem Entry.FirstIn.outward {scopes : List Names} {name : String} {b : Block} {e : Entry}
    (h : e.FirstIn p scopes name b) (ns : Names) : e.FirstIn p (ns :: scopes) name b := by
  obtain ⟨before, after, hd, hsuffix⟩ := h.around
  exact ⟨h.block, ⟨before, after, hd, hsuffix.trans (List.suffix_cons _ _)⟩, h.level, h.notMember, h.first⟩

/-- The entry is that of a member, and the position lies in a method. -/
structure Entry.InMethod (p : Program) (scopes : List Names) (e : Entry) : Prop where
  member : e.IsMember
  around : ∃ (b : Block) (before after : List Decl) (c : ClassDecl) (pre post : List FunDecl) (m : FunDecl),
    p.HasBlock b ∧ b.decls = before ++ .cls c :: after ∧ c.methods = pre ++ m :: post ∧
      c.scope (c.inherited before) (pre ++ [m]) :: b.scopes (before ++ [.cls c]) <:+ scopes

/-- A position inside a method stays inside of it deeper down. -/
theorem Entry.InMethod.outward {scopes : List Names} {e : Entry} (h : e.InMethod p scopes) (ns : Names) :
    e.InMethod p (ns :: scopes) := by
  obtain ⟨b, before, after, c, pre, post, m, hb, hc, hm, hsuffix⟩ := h.around
  exact ⟨h.member, b, before, after, c, pre, post, m, hb, hc, hm, hsuffix.trans (List.suffix_cons _ _)⟩

/-- An entry in a scope around a position is that of a member, or it comes first in a block. -/
theorem Program.Around.first (hid : p.ids.Nodup) {scopes : List Names} {ss : List Scope} (h : p.Around scopes ss)
    {s : Scope} (hs : s ∈ ss) {name : String} {e : Entry} (he : s[name]? = some e) :
    e.InMethod p scopes ∨ ∃ b, e.FirstIn p scopes name b := by
  induction h with
  | nil => cases hs
  | @block b before after s' ss hb hd hfirsts _ ih =>
    obtain rfl | hs := List.mem_cons.1 hs
    · obtain ⟨node, hnode, hdecl, hlevel, hmember⟩ := hfirsts.lookup he
      refine .inr ⟨b, hb, ⟨before, after, hd, List.suffix_rfl⟩, hlevel, hmember, node, ?_, ?_⟩
      · rw [hd, List.map_append, ← List.append_assoc, List.lookup_append, hnode, Option.some_or]
      · exact (p.declaration?_eq_some hid).2 hdecl
    · exact (ih hs).imp (fun h => h.outward _) fun ⟨b, h⟩ => ⟨b, h.outward _⟩
  | members hb hc hm hmembers _ ih =>
    obtain rfl | hs := List.mem_cons.1 hs
    · exact .inl ⟨hmembers _ _ he, _, _, _, _, _, _, _, hb, hc, hm, List.suffix_rfl⟩
    · exact (ih hs).imp (fun h => h.outward _) fun ⟨b, h⟩ => ⟨b, h.outward _⟩

/-! ## The first declaration wins -/

/-- Of the declarations of a name in a scope all but the first are reported, and the first counts. -/
structure Program.FirstWins (p : Program) : Prop where
  /-- The errors about duplicates are those of the repeated declarations, one for each. -/
  reported : (p.bind.errors.filter (·.problem.isDuplicate)).Perm
    ((p.nameScopes.flatMap (repeats [])).map Declared.duplicate)
  /-- Every scope has as many of them as it has declarations beyond its distinct names. -/
  length_reported : (p.bind.errors.filter (·.problem.isDuplicate)).length =
    (p.nameScopes.map fun ds => ds.length - (ds.map Declared.key).dedup.length).sum
  /-- A use stands for a member of a class around it or for the first declaration in a block around it. -/
  uses : ∀ {scopes : List Names} {e : Expr} {u : Use} {entry : Entry}, p.Stands scopes e → u ∈ e.uses →
    u.entry? p.bind.tables.resolutions = some entry →
      entry.InMethod p scopes ∨ ∃ b, entry.FirstIn p scopes u.name.text b
  /-- The members of a class are decided by the first declarations of their names. -/
  members : ∀ {b : Block} {before after : List Decl} {c : ClassDecl}, p.HasBlock b →
    b.decls = before ++ .cls c :: after →
    ∃ (env : Env) (final : Class), p.Reaches env (.cls c :: after) b.body ∧
      (p.bind.tables.resolutions.declaration? c.id).bind (·.declaredClass?) = some env.classes.size ∧
      p.bind.tables.classes.class? env.classes.size = some final ∧
      ∀ {pre : List Declared} {d : Declared} {post : List Declared}, c.members = pre ++ d :: post →
        d.key ∉ pre.map Declared.key →
          d.Decides p c.name.text (env.startClass c.name c.superclass).members final.members

theorem Program.first_wins {p : Program} (hid : p.ids.Nodup) : p.FirstWins where
  reported := p.duplicates_perm
  length_reported := by
    have hlength := p.duplicates_perm.length_eq
    rw [scopesDuplicates, List.length_map, List.length_flatMap] at hlength
    simp only [length_repeats] at hlength
    exact hlength
  uses h hu he := by
    obtain ⟨env, hss, hbind⟩ := h.around hid
    obtain ⟨s, hs, hentry⟩ := Use.exists_scope hid (hbind _ hu) he
    exact hss.first hid hs hentry
  members hb hd := by
    obtain ⟨env, hr⟩ := hb.reaches
    rw [hd] at hr
    obtain ⟨final, hfinal, hdecides⟩ := hr.skip.decides hid
    exact ⟨_, final, hr.skip, hr.skip.declaredClass? hid, hfinal, fun {pre d post} => hdecides pre d post⟩

/-- Two fields and two methods of one name, of which the first method has two parameters and a variable of one name,
a subclass with a field that collides with the method and a method behind it, and a variable named like a class. -/
def Program.repeated : Program := Program.built do
  let x ← Build.var "x" .int (← Build.literal (.int 1))
  let get ← Build.function "get" [← Build.param "x" .int, ← Build.param "x" .bool] .int [x] (← Build.ident "x")
  let get' ← Build.function "get" [] .int [] (← Build.literal (.int 2))
  let a ← Build.cls "A" none [← Build.param "size" .int, ← Build.param "size" .bool] [get, get']
  let get'' ← Build.function "get" [] .int [] (← Build.literal (.int 3))
  let b ← Build.cls "B" (some "A") [← Build.param "get" .int] [get'']
  Build.program [.cls a, .cls b, ← Build.var "A" .int (← Build.literal (.int 4))] (← Build.new "A" [])

/-- A program with six repeated declarations: the doubled parameter means its first declaration, and in the
subclass the inherited method stays where a field collides with it. -/
theorem Program.first_wins_repeated :
    (repeated.bind.errors.filter (·.problem.isDuplicate)).length = 6 ∧
      (∃ entry, (repeated.bind.tables.resolutions.use? 3).map (·.entry) = some entry ∧ entry.kind = .param ∧
        ∃ b, entry.FirstIn repeated [[("x", 1), ("x", 2), ("x", 0)], [("size", 6), ("size", 7), ("get", 4)], [("A", 8)]]
          "x" b) ∧
      ∃ (final : Class) (inherited : Entry), repeated.bind.tables.classes.class? 1 = some final ∧
        final.members["get"]? = some inherited ∧ inherited.kind = .method ∧
        ∃ span, ⟨.memberCollision (.entry .field) (.entry .method) "B" "get", span⟩ ∈ repeated.bind.errors := by
  have h := first_wins (p := repeated) (by decide +kernel)
  refine ⟨?_, ?_, ?_⟩
  · rw [h.length_reported]
    decide +kernel
  · have hget := @HasBlock.method repeated _ [] _ _ [] _ _ .top rfl rfl
    have hentry : ((repeated.bind.tables.resolutions.use? 3).map (·.entry)).any (·.kind = .param) := by decide +kernel
    obtain ⟨entry, he, hk⟩ := (Option.any_eq_true _ _).1 hentry
    have hk := of_decide_eq_true hk
    have hfirst := h.uses (.body hget) List.mem_cons_self he
    refine ⟨entry, he, hk, hfirst.resolve_left fun h => ?_⟩
    simpa [Entry.IsMember, hk] using h.member
  · obtain ⟨env, final, -, hdecl, hfinal, hdecides⟩ :=
      @FirstWins.members _ h repeated.block (repeated.decls.take 1) (repeated.decls.drop 2) _ .top rfl
    have hone : env.classes.size = 1 := by
      have hcls : (repeated.bind.tables.resolutions.declaration? 11).bind (·.declaredClass?) = some 1 := by
        decide +kernel
      exact Option.some.inj (hdecl.symm.trans hcls)
    rw [hone] at hfinal
    have hmember : (repeated.bind.tables.classes.member? 1 "get").any (·.kind = .method) := by decide +kernel
    rw [ClassTable.member?, ClassTable.members?, hfinal] at hmember
    cases hdecides (List.nil_append _).symm List.not_mem_nil with
    | @member e _ _ hk hm =>
      have hmethod : (some e).any (·.kind = .method) := hm ▸ hmember
      cases hk.symm.trans (of_decide_eq_true hmethod)
    | @collision i _ himember hk he hm =>
      have hmethod := himember.resolve_left hk
      rw [hmethod] at he
      exact ⟨final, i, hfinal, hm, hmethod, _, he⟩

end ObjLet
