import ObjLet.Proofs.Binding.Frames
import ObjLet.Proofs.Binding.Sites

/-!
# What comes later

The walk through a program carries scopes, classes, records and errors along (`Walk`). A declaration or an
expression changes none of what is there already: it adds its name, its classes, its records and its errors
(`Walk.Declares`, `Walk.Uses`). This holds from any state on, whatever is wrong with the tree, and also inside a
class that is still being built. So what is found out about the first declarations of a program does not depend on
how the program goes on (`Program.first_settled`).
-/

namespace ObjLet

open Findings
open scoped List

/-! ## Records -/

/-- All that is recorded under an id. -/
def Resolutions.records (r : Resolutions) (id : NodeId) :
    Option Resolution × Option MethodResolution × Option Entry :=
  (r.use? id, r.methodCall? id, r.declaration? id)

namespace Findings

/-- A finding is recorded under its own id only. -/
theorem records_record {f : Finding} {id : NodeId} (h : f.id? ≠ some id) (r : Resolutions) :
    (r.record f).records id = r.records id := by
  cases f with
  | error e => rfl
  | use id' use =>
    have hne : id' ≠ id := fun heq => h (congrArg some heq)
    exact Prod.ext ((r.use?_recordUse id' id use).trans (if_neg hne)) rfl
  | methodCall id' call =>
    have hne : id' ≠ id := fun heq => h (congrArg some heq)
    exact Prod.ext rfl (Prod.ext ((r.methodCall?_recordMethodCall id' id call).trans (if_neg hne)) rfl)
  | declaration id' entry =>
    have hne : id' ≠ id := fun heq => h (congrArg some heq)
    exact Prod.ext rfl (Prod.ext rfl ((r.declaration?_recordDeclaration id' id entry).trans (if_neg hne)))

/-- Findings are recorded under their own ids only. -/
theorem records_foldl {id : NodeId} {fs : Findings} (h : id ∉ fs.ids) (r : Resolutions) :
    (fs.foldl Resolutions.record r).records id = r.records id := by
  induction fs generalizing r with
  | nil => rfl
  | cons f fs ih =>
    have hne : f.id? ≠ some id := fun hf => h (List.mem_filterMap.2 ⟨f, List.mem_cons_self, hf⟩)
    have hids : id ∉ ids fs := by
      intro hmem
      obtain ⟨g, hg, hid⟩ := List.mem_filterMap.1 hmem
      exact h (List.mem_filterMap.2 ⟨g, List.mem_cons_of_mem _ hg, hid⟩)
    rw [List.foldl_cons, ih hids, records_record hne]

/-- Findings that declare nothing leave the entries of declarations as they are. -/
theorem declarations_foldl {fs : Findings} (h : ∀ f ∈ fs, ∀ id e, f ≠ .declaration id e) (r : Resolutions) :
    (fs.foldl Resolutions.record r).declarations = r.declarations := by
  induction fs generalizing r with
  | nil => rfl
  | cons f fs ih =>
    rw [List.foldl_cons, ih fun g hg => h g (List.mem_cons_of_mem _ hg)]
    cases f with
    | declaration id e => exact absurd rfl (h _ List.mem_cons_self id e)
    | _ => rfl

end Findings

/-- A use declares nothing. -/
theorem Use.bind_ne_declaration (u : Use) (env : Env) (id : NodeId) (e : Entry) :
    u.bind env ≠ .declaration id e := by
  intro h
  have huse := u.isOfUse_bind env
  rw [h] at huse
  cases huse

/-- Nothing is recorded under the ids. -/
def Resolutions.Fresh (r : Resolutions) (ids : List NodeId) : Prop := ∀ id ∈ ids, r.records id = (none, none, none)

theorem Resolutions.Fresh.not_mem {r : Resolutions} {ids : List NodeId} (h : r.Fresh ids) {f : Finding}
    (hf : r.Holds f) {id : NodeId} (hid : f.id? = some id) : id ∉ ids := by
  intro hmem
  have hnone := h id hmem
  simp only [records, Prod.mk.injEq] at hnone
  cases f with
  | error e => exact hf
  | use id' use =>
    cases hid
    exact nomatch hnone.1.symm.trans hf
  | methodCall id' call =>
    cases hid
    exact nomatch hnone.2.1.symm.trans hf
  | declaration id' entry =>
    cases hid
    exact nomatch hnone.2.2.symm.trans hf

/-! ## The walk -/

/-- How far the walk through a program has come. -/
structure Walk where
  env : Env
  resolutions : Resolutions := {}
  errors : SemanticErrors := []

namespace Walk

/-- Go on to an environment with what was found on the way. -/
def add (w : Walk) (env : Env) (fs : Findings) : Walk :=
  ⟨env, fs.foldl Resolutions.record w.resolutions, w.errors ++ fs.errors⟩

def decl (w : Walk) (d : Decl) : Walk := w.add (d.bind w.env).1 (d.bind w.env).2

def expr (w : Walk) (e : Expr) : Walk := w.add w.env (e.findings w.env)

def decls (w : Walk) (ds : List Decl) : Walk := ds.foldl decl w

/-- To go through declarations one by one is to bind them all. -/
theorem decls_eq (ds : List Decl) (w : Walk) :
    w.decls ds = w.add (Decl.bindAll w.env ds).1 (Decl.bindAll w.env ds).2 := by
  induction ds generalizing w with
  | nil => simp [decls, add, Decl.bindAll, Findings.errors]
  | cons d ds ih =>
    rw [show w.decls (d :: ds) = (w.decl d).decls ds from rfl, ih]
    simp [decl, add, Decl.bindAll, List.foldl_append, List.append_assoc]

end Walk

/-- Binding a program is walking through it. -/
theorem Program.bind_eq_walk (p : Program) :
    p.bind =
      let w := (Walk.decls { env := .initial } p.decls).expr p.body
      ⟨⟨w.resolutions, w.env.classes⟩, w.errors⟩ := by
  rw [Walk.decls_eq]
  simp [bind, walk, Walk.expr, Walk.add, Findings.resolutions, List.foldl_append]

/-! ## Scopes and classes -/

/-- One name is declared in the innermost scope, unless it stands there already. Nothing else changes. -/
def ScopeStack.Adds (s : ScopeStack) (name : String) (e : Entry) (s' : ScopeStack) : Prop :=
  ∃ (scope scope' : Scope) (outer : List Scope), s.scopes = scope :: outer ∧ s'.scopes = scope' :: outer ∧
    ∀ n, scope'[n]? = scope[n]?.or (if name = n then some e else none)

/-- A declaration of a name adds the name, or finds it there already. -/
theorem Env.adds_declare {env : Env} (hs : env.scopes.scopes ≠ []) (id : NodeId) (name : Name) (entry : Entry) :
    env.scopes.Adds name.text entry (env.declare id name entry).1.scopes := by
  obtain ⟨scope, outer, hscopes⟩ := List.exists_cons_of_ne_nil hs
  obtain ⟨old, hold, heq⟩ | ⟨hnone, heq⟩ := Env.declare_cases hscopes id name entry
  · refine ⟨scope, scope, outer, hscopes, by rw [heq, hscopes], fun n => ?_⟩
    split
    · next hn =>
      subst hn
      rw [hold, Option.some_or]
    · rw [Option.or_none]
  · refine ⟨scope, scope.insert name.text entry, outer, hscopes, by rw [heq], fun n => ?_⟩
    rw [Scope.getElem?_insert]
    split
    · next hn =>
      subst hn
      rw [hnone, Option.none_or]
    · rw [Option.or_none]

/-- A declaration adds its name and takes the words of its entry, and no more. -/
theorem Decl.adds_bind {env : Env} (hs : env.scopes.scopes ≠ []) (d : Decl) :
    ∃ e : Entry, (d.bind env).2.HasEntry d.id e ∧ env.scopes.Adds d.name.text e (d.bind env).1.scopes ∧
      (d.bind env).1.nextLocal = env.nextLocal - e.ty.words := by
  obtain ⟨t, t', ty, heq, hfound⟩ := d.exists_declareLocal env
  refine ⟨⟨d.kind, env.level, env.nextLocal, ty⟩, hfound (Env.hasEntry_declare _ _ _ _), ?_, ?_⟩
  · rw [heq]
    let env' : Env := { env with classes := t, nextLocal := env.nextLocal - ty.words }
    have hs' : env'.scopes.scopes ≠ [] := hs
    exact Env.adds_declare hs' _ _ _
  · rw [heq]
    exact Env.nextLocal_declare _ _ _ _

namespace ClassTable

/-- A table that keeps every class under its id has the classes first. -/
theorem Keeps.classes_prefix {t u : ClassTable} (h : t.Keeps u) : t.classes <+: u.classes := by
  refine List.prefix_iff_getElem?.2 fun id hid => ?_
  exact h id _ (List.getElem?_eq_getElem hid)

/-- A name stands for its first class, so classes that come later do not change for what it stands. -/
theorem lookup?_of_prefix {t u : ClassTable} (h : t.classes <+: u.classes) {name : String} {c : ClassId}
    (hc : t.lookup? name = some c) : u.lookup? name = some c := by
  obtain ⟨more, heq⟩ := h
  rw [lookup?] at hc ⊢
  rw [← heq, List.findIdx?_append, hc, Option.some_or]

end ClassTable

/-! ## One step -/

namespace Walk

/-- What there was is still there, and only nodes with these ids have got records. -/
structure Grows (w : Walk) (ids : List NodeId) (w' : Walk) : Prop where
  classes : w.env.classes.classes <+: w'.env.classes.classes
  lookup? : ∀ name c, w.env.classes.lookup? name = some c → w'.env.classes.lookup? name = some c
  records : ∀ id, id ∉ ids → w'.resolutions.records id = w.resolutions.records id
  errors : w.errors <+: w'.errors

theorem Grows.trans {w w' w'' : Walk} {ids ids' : List NodeId} (h : w.Grows ids w') (h' : w'.Grows ids' w'') :
    w.Grows (ids ++ ids') w'' where
  classes := h.classes.trans h'.classes
  lookup? name c hc := h'.lookup? name c (h.lookup? name c hc)
  records id hid := by
    rw [List.mem_append, not_or] at hid
    rw [h'.records id hid.2, h.records id hid.1]
  errors := h.errors.trans h'.errors

/-- A step keeps what there was where its findings belong to the nodes and its classes are kept. -/
theorem grows_add {w : Walk} {env : Env} {fs : Findings} {ids : List NodeId} (hc : w.env.classes.Keeps env.classes)
    (hids : fs.ids <+ ids) : w.Grows ids (w.add env fs) where
  classes := hc.classes_prefix
  lookup? _ _ := ClassTable.lookup?_of_prefix hc.classes_prefix
  records _ hid := records_foldl (fun hmem => hid (hids.subset hmem)) w.resolutions
  errors := List.prefix_append _ _

/-- Declarations leave records under their own ids only. -/
theorem grows_decls (w : Walk) (ds : List Decl) : w.Grows (Decl.idsAll ds) (w.decls ds) := by
  rw [decls_eq]
  exact grows_add (Decl.keeps_bindAll w.env ds) (Decl.ids_bindAll w.env ds)

/-- An expression leaves records under its own ids only. -/
theorem grows_expr (w : Walk) (e : Expr) : w.Grows e.ids (w.expr e) :=
  grows_add (ClassTable.Keeps.refl _) (e.ids_findings w.env)

/-- What is recorded is not replaced by records under fresh ids. -/
theorem holds_add {w : Walk} {env : Env} {fs : Findings} {ids : List NodeId} (hids : fs.ids <+ ids)
    (hfresh : w.resolutions.Fresh ids) {f : Finding} (hf : w.resolutions.Holds f) :
    (w.add env fs).resolutions.Holds f :=
  holds_foldl fs hf fun _ hid hmem => hfresh.not_mem hf hid (hids.subset hmem)

/-- What a declaration does to the state of the walk. -/
structure Declares (w : Walk) (d : Decl) (w' : Walk) : Prop extends Grows w d.ids w' where
  /-- The name is added to the scope at hand, and the frame loses the words of the declared entry. -/
  declared : ∃ e, w'.resolutions.declaration? d.id = some e ∧ w.env.scopes.Adds d.name.text e w'.env.scopes ∧
    w'.env.nextLocal = w.env.nextLocal - e.ty.words
  holds : ∀ f, w.resolutions.Holds f → w'.resolutions.Holds f

/-- The step of a declaration, from any state in which its ids are fresh. -/
theorem declares_decl {w : Walk} {d : Decl} (hs : w.env.scopes.scopes ≠ []) (hid : d.ids.Nodup)
    (hfresh : w.resolutions.Fresh d.ids) : w.Declares d (w.decl d) := by
  have hids := d.ids_bind w.env
  obtain ⟨e, he, hadds, hnext⟩ := d.adds_bind hs
  refine ⟨grows_add (d.keeps_bind w.env) hids, ⟨e, ?_, hadds, hnext⟩, fun f => holds_add hids hfresh⟩
  exact holds_foldl_of_mem (hid.sublist hids) he nofun w.resolutions

/-- What an expression does to the state of the walk. -/
structure Uses (w : Walk) (e : Expr) (w' : Walk) : Prop extends Grows w e.ids w' where
  env : w'.env = w.env
  declarations : w'.resolutions.declarations = w.resolutions.declarations
  holds : ∀ f, w.resolutions.Holds f → w'.resolutions.Holds f

/-- The step of an expression, from any state in which its ids are fresh. -/
theorem uses_expr {w : Walk} {e : Expr} (hfresh : w.resolutions.Fresh e.ids) : w.Uses e (w.expr e) := by
  refine ⟨w.grows_expr e, rfl, ?_, fun f => holds_add (e.ids_findings w.env) hfresh⟩
  refine declarations_foldl (fun f hf id entry => ?_) w.resolutions
  rw [Expr.findings_eq] at hf
  obtain ⟨u, -, rfl⟩ := List.mem_map.1 hf
  exact u.bind_ne_declaration w.env id entry

/-- What there is of some nodes does not change when the walk goes on with others. -/
theorem Grows.records_eq {w w' : Walk} {ids nodes : List NodeId} (h : w.Grows ids w') (hd : nodes.Disjoint ids)
    {id : NodeId} (hid : id ∈ nodes) : w'.resolutions.records id = w.resolutions.records id :=
  h.records id fun hmem => hd hid hmem

end Walk

/-! ## Programs that start alike -/

/-- What comes later disturbs nothing. From any state with a scope, a declaration whose ids are new and distinct
leaves the scopes around, the entries of the scope at hand, the classes and their names, the records and the errors
as they are. It adds its name, classes behind the others, records of its own nodes and errors, and takes the words
of its entry. An expression adds records of its own nodes and errors and changes nothing else. So programs that
start with the same declarations agree on all that is recorded for the nodes of these, on their classes and on the
errors that they cause, which come first. -/
theorem Program.first_settled :
    (∀ (w : Walk) (d : Decl), w.env.scopes.scopes ≠ [] → d.ids.Nodup → w.resolutions.Fresh d.ids →
      w.Declares d (w.decl d)) ∧
    (∀ (w : Walk) (e : Expr), w.resolutions.Fresh e.ids → w.Uses e (w.expr e)) ∧
    ∀ (ds₁ ds₂ : List Decl) (e₁ e₂ : Expr) (span₁ span₂ : Span), (Decl.idsAll ds₁).Disjoint e₁.ids →
      (Decl.idsAll ds₁).Disjoint (Decl.idsAll ds₂ ++ e₂.ids) →
      let short := Program.bind ⟨ds₁, e₁, span₁⟩
      let long := Program.bind ⟨ds₁ ++ ds₂, e₂, span₂⟩
      (∀ id ∈ Decl.idsAll ds₁, long.tables.resolutions.records id = short.tables.resolutions.records id) ∧
      short.tables.classes.classes <+: long.tables.classes.classes ∧
      (∀ name c, short.tables.classes.lookup? name = some c → long.tables.classes.lookup? name = some c) ∧
      (Decl.bindAll .initial ds₁).2.errors <+: short.errors ∧
      (Decl.bindAll .initial ds₁).2.errors <+: long.errors := by
  refine ⟨fun w d => Walk.declares_decl, fun w e => Walk.uses_expr, ?_⟩
  intro ds₁ ds₂ e₁ e₂ span₁ span₂ hd₁ hd₂
  -- Both programs go through the first declarations alike; from there the walk only grows.
  let w := Walk.decls { env := .initial } ds₁
  have hshort : w.Grows e₁.ids (w.expr e₁) := w.grows_expr e₁
  have hlong : w.Grows (Decl.idsAll ds₂ ++ e₂.ids) ((w.decls ds₂).expr e₂) :=
    (w.grows_decls ds₂).trans ((w.decls ds₂).grows_expr e₂)
  have herrors : w.errors = (Decl.bindAll .initial ds₁).2.errors := by
    rw [show w = _ from Walk.decls_eq ds₁ _]
    exact List.nil_append _
  have happend : Walk.decls { env := .initial } (ds₁ ++ ds₂) = w.decls ds₂ := List.foldl_append
  simp only [Program.bind_eq_walk, happend, ← herrors]
  refine ⟨fun id hid => ?_, ?_, ?_, hshort.errors, hlong.errors⟩
  · rw [hlong.records_eq hd₂ hid]
    exact (hshort.records_eq hd₁ hid).symm
  · exact hlong.classes
  · exact hlong.lookup?

/-- A second function name, behind a program with errors. -/
def Decl.again : Decl :=
  .var 100 ⟨"f", Span.ofLine 9⟩ .int (.literal (.int 0) (Span.ofLine 9)) (Span.ofLine 9)

/-- A class whose superclass stands where none may stand. -/
def Decl.derived : Decl :=
  .cls ⟨101, ⟨"D", Span.ofLine 9⟩, some ⟨"C", Span.ofLine 9⟩, [⟨102, ⟨"k", Span.ofLine 9⟩, .int, Span.ofLine 9⟩], [],
    Span.ofLine 9⟩

/-- A program with four errors, continued with a second declaration of a name and with a class. The state of the
walk shows the step of the first, and the errors of the start come first in the longer program. -/
theorem Program.first_settled_crowded :
    let w := Walk.decls { env := .initial } crowded.decls
    let long := Program.bind ⟨crowded.decls ++ [.again, .derived], crowded.body, crowded.span⟩
    w.Declares .again (w.decl .again) ∧ long.errors.length = 5 ∧
      (Decl.bindAll .initial crowded.decls).2.errors.length = 4 ∧
      (Decl.bindAll .initial crowded.decls).2.errors <+: long.errors := by
  intro w long
  obtain ⟨hdecl, -, hprogram⟩ := Program.first_settled
  have hscopes : w.env.scopes.scopes ≠ [] := List.ne_nil_of_length_pos (by decide +kernel)
  have hfresh : w.resolutions.Fresh Decl.again.ids := by
    intro id hid
    obtain rfl := List.mem_singleton.1 hid
    decide +kernel
  have hlater : ∀ id ∈ Decl.idsAll crowded.decls, id ∉ Decl.idsAll [.again, .derived] ++ crowded.body.ids := by
    decide +kernel
  obtain ⟨-, -, -, -, herrors⟩ := hprogram crowded.decls [.again, .derived] crowded.body crowded.body crowded.span
    crowded.span (List.disjoint_nil_right _) fun id hid hmem => hlater id hid hmem
  exact ⟨hdecl w .again hscopes (by decide +kernel) hfresh, by decide +kernel, by decide +kernel, herrors⟩

end ObjLet
