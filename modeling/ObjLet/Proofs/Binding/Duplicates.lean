import Mathlib.Data.Finset.Card
import Mathlib.Data.Finset.SDiff
import ObjLet.Proofs.Binding.Reach
import ObjLet.Proofs.Binding.Sites
import ObjLet.Proofs.Binding.Static

/-!
# Duplicates

What the scopes of a program declare (`Program.nameScopes`), and which of these declarations are not the first of
their name (`repeats`). Each of them is reported as a duplicate, and nothing else is (`Program.duplicates_perm`):
in a block the innermost scope holds the names met so far, and in a class the body remembers them, which also a
member does that is rejected for another reason.
-/

namespace ObjLet

open Findings

/-! ## What scopes declare -/

/-- A declaration in a scope. -/
structure Declared where
  kind : EntryKind
  id : NodeId
  name : Name

namespace Declared

def key (d : Declared) : String := d.name.text

/-- The error that reports a declaration as a duplicate. -/
def duplicate (d : Declared) : SemanticError := ⟨.alreadyDeclared (.entry d.kind) d.key, d.name.span⟩

end Declared

def Param.declared (kind : EntryKind) (p : Param) : Declared := ⟨kind, p.id, p.name⟩

/-- A method as its class declares it. -/
def FunDecl.declared (m : FunDecl) : Declared := ⟨.method, m.id, m.name⟩

def Decl.declared (d : Decl) : Declared := ⟨d.kind, d.id, d.name⟩

/-- What a class declares: its fields, then its methods. -/
def ClassDecl.members (c : ClassDecl) : List Declared :=
  c.fields.map (·.declared .field) ++ c.methods.map FunDecl.declared

mutual

/-- What the scopes inside a declaration declare. -/
def Decl.nameScopes : Decl → List (List Declared)
  | .var _ _ _ _ _ => []
  | .func f => f.nameScopes
  | .cls ⟨_, _, _, fields, methods, _⟩ =>
    (fields.map (·.declared .field) ++ methods.map FunDecl.declared) :: FunDecl.nameScopesAll methods

/-- The scope of a function declares its parameters and its local declarations. -/
def FunDecl.nameScopes : FunDecl → List (List Declared)
  | ⟨_, _, params, _, decls, _, _⟩ =>
    (params.map (·.declared .param) ++ decls.map Decl.declared) :: Decl.nameScopesAll decls

def FunDecl.nameScopesAll : List FunDecl → List (List Declared)
  | [] => []
  | m :: ms => m.nameScopes ++ FunDecl.nameScopesAll ms

def Decl.nameScopesAll : List Decl → List (List Declared)
  | [] => []
  | d :: ds => d.nameScopes ++ Decl.nameScopesAll ds

end

/-- What the scopes of a program declare: the outermost block and everything inside of it. -/
def Program.nameScopes (p : Program) : List (List Declared) :=
  p.decls.map Decl.declared :: Decl.nameScopesAll p.decls

/-- The declarations whose name is among those met before. -/
def repeats (met : List String) : List Declared → List Declared
  | [] => []
  | d :: ds => if d.key ∈ met then d :: repeats (met ++ [d.key]) ds else repeats (met ++ [d.key]) ds

/-- What is repeated in a longer scope: the names of the first part are met when the second begins. -/
theorem repeats_append (ds es : List Declared) (met : List String) :
    repeats met (ds ++ es) = repeats met ds ++ repeats (met ++ ds.map Declared.key) es := by
  induction ds generalizing met with
  | nil => rw [List.nil_append, repeats, List.map_nil, List.append_nil, List.nil_append]
  | cons d ds ih =>
    simp only [List.cons_append, repeats, ih, List.map_cons, List.append_assoc, List.nil_append]
    split <;> rfl

/-- A name that is not met yet is one more of those to be met. -/
theorem card_insert_sdiff (names met : Finset String) (name : String) :
    (insert name names \ met).card = (if name ∈ met then 0 else 1) + (names \ insert name met).card := by
  by_cases hmet : name ∈ met
  · rw [Finset.insert_sdiff_of_mem names hmet, Finset.insert_eq_of_mem hmet, if_pos hmet, Nat.zero_add]
  · have hsplit : insert name names \ met = insert name (names \ insert name met) := by
      ext n
      by_cases hn : n = name
      · subst hn
        simp [hmet]
      · simp [hn]
    rw [hsplit, Finset.card_insert_of_notMem (by simp), if_neg hmet, Nat.add_comm]

/-- What is repeated and the names that are new make up all declarations. -/
theorem length_repeats_add (ds : List Declared) (met : List String) :
    (repeats met ds).length + ((ds.map Declared.key).toFinset \ met.toFinset).card = ds.length := by
  induction ds generalizing met with
  | nil => simp [repeats]
  | cons d ds ih =>
    have h := ih (met ++ [d.key])
    have hinsert : (met ++ [d.key]).toFinset = insert d.key met.toFinset := by
      ext n
      simp [or_comm]
    rw [hinsert] at h
    rw [repeats, List.map_cons, List.toFinset_cons, card_insert_sdiff, List.length_cons]
    -- A repeated declaration is counted on the left, any other takes one name from the names still to be met.
    by_cases hmet : d.key ∈ met
    · rw [if_pos hmet, if_pos (List.mem_toFinset.2 hmet), List.length_cons]
      omega
    · rw [if_neg hmet, if_neg (fun hm => hmet (List.mem_toFinset.1 hm))]
      omega

/-- A scope has as many repeated declarations as it has more declarations than names. -/
theorem length_repeats (ds : List Declared) :
    (repeats [] ds).length = ds.length - (ds.map Declared.key).dedup.length := by
  have h := length_repeats_add ds []
  rw [List.toFinset_nil, Finset.sdiff_empty, List.card_toFinset] at h
  omega

/-! ## What the walk reports -/

def Problem.isDuplicate : Problem → Bool
  | .alreadyDeclared _ _ => true
  | _ => false

/-- The errors about duplicates among findings. -/
def Findings.duplicates (fs : Findings) : SemanticErrors := (errors fs).filter (·.problem.isDuplicate)

namespace Findings

@[simp] theorem duplicates_append (fs gs : Findings) : (fs ++ gs).duplicates = fs.duplicates ++ gs.duplicates := by
  rw [duplicates, errors_append, List.filter_append]
  rfl

/-- Findings none of whose errors is about a duplicate. -/
theorem duplicates_eq_nil {fs : Findings} (h : ∀ f ∈ fs, ∀ e, f.error? = some e → e.problem.isDuplicate = false) :
    fs.duplicates = [] := by
  apply List.filter_eq_nil_iff.2
  intro e he
  obtain ⟨f, hf, hfe⟩ := List.mem_filterMap.1 he
  rw [h f hf e hfe]
  exact Bool.false_ne_true

end Findings

/-- An expression declares nothing, so it has no duplicates. -/
@[simp] theorem Expr.duplicates_findings (env : Env) (e : Expr) : (e.findings env).duplicates = [] := by
  rw [Expr.findings_eq]
  refine duplicates_eq_nil fun f hf e he => ?_
  obtain ⟨u, -, rfl⟩ := List.mem_map.1 hf
  obtain hrec | ⟨e', heq, hrep⟩ := u.bind_cases env
  · rw [hrec.error?] at he
    cases he
  · rw [heq] at he
    cases he
    cases hrep <;> rfl

/-- An unknown class in a type is no duplicate. -/
@[simp] theorem TypeExpr.duplicates_findings (t : ClassTable) (ty : TypeExpr) : (ty.findings t).duplicates = [] := by
  refine duplicates_eq_nil fun f hf e he => ?_
  obtain ⟨c, -, rfl⟩ := List.mem_map.1 hf
  cases he
  rfl

@[simp] theorem FunDecl.duplicates_headFindings (t : ClassTable) (f : FunDecl) :
    (f.headFindings t).duplicates = [] := by
  rw [FunDecl.headFindings_eq]
  refine duplicates_eq_nil fun f hf e he => ?_
  obtain ⟨c, -, rfl⟩ := List.mem_map.1 hf
  cases he
  rfl

/-- The innermost scope has the names met so far. -/
structure Env.Met (env : Env) (met : List String) : Prop where
  nonempty : env.scopes.scopes ≠ []
  lookup : ∀ n, env.scopes.lookupLocal? n ≠ none ↔ n ∈ met

namespace Env.Met

variable {env : Env} {met : List String}

/-- Only the scopes of an environment say what is met. -/
theorem of_scopes_eq {env' : Env} (h : env.Met met) (hs : env'.scopes = env.scopes) : env'.Met met := by
  refine ⟨?_, ?_⟩
  · rw [hs]
    exact h.nonempty
  · rw [hs]
    exact h.lookup

theorem enterFrame (env : Env) : env.enterFrame.Met [] := by
  refine ⟨List.cons_ne_nil _ _, fun n => ?_⟩
  simp [Env.enterFrame, ScopeStack.push, ScopeStack.lookupLocal?]

/-- A name is met from its declaration on, and a duplicate is one that is met already. -/
theorem declare (h : env.Met met) (d : Declared) (entry : Entry) (hk : entry.kind = d.kind) :
    (env.declare d.id d.name entry).1.Met (met ++ [d.key]) ∧
      (env.declare d.id d.name entry).2.duplicates = (repeats met [d]).map Declared.duplicate := by
  obtain ⟨s, outer, hs⟩ := List.exists_cons_of_ne_nil h.nonempty
  have hmet : ∀ n, s[n]? ≠ none ↔ n ∈ met := by
    intro n
    rw [← h.lookup, ScopeStack.lookupLocal?, hs]
    rfl
  -- Either the name stands in the innermost scope, which is then left alone, or it is inserted there.
  obtain ⟨old, hold, heq⟩ | ⟨hnone, heq⟩ := Env.declare_cases hs d.id d.name entry
  · have hmem : d.key ∈ met := (hmet d.key).1 (by simp [Declared.key, hold])
    rw [heq]
    refine ⟨⟨h.nonempty, fun n => ?_⟩, ?_⟩
    · rw [h.lookup, List.mem_append, List.mem_singleton]
      exact ⟨.inl, fun hn => hn.elim id fun heq => heq ▸ hmem⟩
    · rw [repeats, if_pos hmem, hk]
      rfl
  · have hmem : d.key ∉ met := fun hm => (hmet d.key).2 hm hnone
    rw [heq]
    refine ⟨⟨List.cons_ne_nil _ _, fun n => ?_⟩, ?_⟩
    · change (s.insert d.key entry)[n]? ≠ none ↔ _
      rw [Scope.getElem?_insert, List.mem_append, List.mem_singleton, ← hmet]
      split
      · next heq => simp [heq]
      · next hne => simp [Ne.symm hne]
    · rw [repeats, if_neg hmem]
      rfl

/-- A local declaration takes words of the frame, which does not matter for what is met. -/
theorem declareLocal (h : env.Met met) (d : Declared) (ty : Ty) :
    (env.declareLocal d.id d.name d.kind ty).1.Met (met ++ [d.key]) ∧
      (env.declareLocal d.id d.name d.kind ty).2.duplicates = (repeats met [d]).map Declared.duplicate := by
  have h' : Met { env with nextLocal := env.nextLocal - ty.words } met := h.of_scopes_eq rfl
  exact h'.declare d ⟨d.kind, env.level, env.nextLocal, ty⟩ rfl

/-- Parameters are met from left to right. -/
theorem declareParams (pts : List (Param × Ty)) :
    ∀ {env : Env} {met : List String}, env.Met met → ∀ next : Int,
      (env.declareParams next pts).1.Met (met ++ (pts.map (·.1.declared .param)).map Declared.key) ∧
        (env.declareParams next pts).2.duplicates =
          (repeats met (pts.map (·.1.declared .param))).map Declared.duplicate := by
  induction pts with
  | nil =>
    intro env met h next
    refine ⟨?_, rfl⟩
    rwa [List.map_nil, List.map_nil, List.append_nil]
  | cons pt pts ih =>
    intro env met h next
    obtain ⟨hmet, hdup⟩ := h.declare (pt.1.declared .param) ⟨.param, env.level, next + pt.2.words - 1, pt.2⟩ rfl
    obtain ⟨hmet', hdup'⟩ := ih hmet (next + pt.2.words)
    rw [List.append_assoc] at hmet'
    refine ⟨hmet', ?_⟩
    simp only [Env.declareParams, duplicates_append]
    rw [List.map_cons, ← List.singleton_append, repeats_append, List.map_append]
    exact congrArg₂ _ hdup hdup'

end Env.Met

/-! ## Duplicate members -/

namespace ClassBody

/-- A member is placed as a duplicate exactly where its class body remembers the name. -/
theorem placement_eq_duplicate {b : ClassBody} {kind : EntryKind} {name : String} :
    b.placement kind name = .duplicate ↔ name ∈ b.declared := by
  unfold placement
  by_cases h : name ∈ b.declared
  · simp [h]
  · simp only [h, iff_false]
    cases b.env.scopes.lookupLocal? name with
    | none => simp
    | some inherited => by_cases hk : inherited.kind = kind <;> simp [hk]

/-- The body of a class remembers the names met so far. -/
def Met (b : ClassBody) (met : List String) : Prop := ∀ n, n ∈ b.declared ↔ n ∈ met

/-- To meet a name again changes nothing. -/
theorem Met.of_mem {b : ClassBody} {met : List String} (h : b.Met met) {name : String} (hn : name ∈ met) :
    b.Met (met ++ [name]) := by
  intro n
  rw [h, List.mem_append, List.mem_singleton]
  exact ⟨.inl, fun h => h.elim id fun heq => heq ▸ hn⟩

/-- A name that is reserved is met, whether or not a member is declared under it. -/
theorem Met.reserve {b : ClassBody} {met : List String} (h : b.Met met) (name : String) :
    (b.reserve name).Met (met ++ [name]) := by
  intro n
  rw [ClassBody.reserve, List.mem_cons, List.mem_append, List.mem_singleton, h, or_comm]

/-- A member that is met before is a duplicate; any other is remembered, declared or not. -/
theorem Met.step {b b' : ClassBody} {met : List String} (h : b.Met met) (d : Declared) {fs : Findings}
    (hdup : d.key ∈ b.declared →
      b'.declared = b.declared ∧ fs = [d.name.error (.alreadyDeclared (.entry d.kind) d.key)])
    (hnew : d.key ∉ b.declared → b'.declared = d.key :: b.declared ∧ fs.duplicates = []) :
    b'.Met (met ++ [d.key]) ∧ fs.duplicates = (repeats met [d]).map Declared.duplicate := by
  by_cases hmem : d.key ∈ b.declared
  · obtain ⟨hdeclared, rfl⟩ := hdup hmem
    have hmet : d.key ∈ met := (h d.key).1 hmem
    refine ⟨fun n => ?_, ?_⟩
    · rw [hdeclared]
      exact h.of_mem hmet n
    · rw [repeats, if_pos hmet]
      rfl
  · obtain ⟨hdeclared, hfs⟩ := hnew hmem
    have hmet : d.key ∉ met := fun hm => hmem ((h d.key).2 hm)
    refine ⟨fun n => ?_, ?_⟩
    · rw [hdeclared]
      exact h.reserve d.key n
    · rw [hfs, repeats, if_neg hmet]
      rfl

/-- A field that is met before is reported, and nothing else about a field is a duplicate. -/
theorem Met.declareField {b : ClassBody} {met : List String} (h : b.Met met) (f : Param) (ty : Ty) :
    (b.declareField f ty).1.Met (met ++ [f.name.text]) ∧
      (b.declareField f ty).2.duplicates = (repeats met [f.declared .field]).map Declared.duplicate := by
  apply h.step (f.declared .field)
  · intro hmem
    have hp : b.placement .field f.name.text = .duplicate := placement_eq_duplicate.2 hmem
    unfold ClassBody.declareField
    rw [hp]
    exact ⟨rfl, rfl⟩
  · intro hmem
    unfold ClassBody.declareField
    split
    · next hp => exact absurd (placement_eq_duplicate.1 hp) hmem
    · exact ⟨rfl, rfl⟩
    · exact ⟨rfl, rfl⟩
    · exact ⟨rfl, rfl⟩

/-- A method that is met before is reported, and nothing else about a method is a duplicate. -/
theorem Met.declareMethod {b : ClassBody} {met : List String} (h : b.Met met) (m : FunDecl) (sig : Signature) :
    (b.declareMethod m sig).1.Met (met ++ [m.name.text]) ∧
      (b.declareMethod m sig).2.duplicates = (repeats met [m.declared]).map Declared.duplicate := by
  apply h.step m.declared
  · intro hmem
    have hp : b.placement .method m.name.text = .duplicate := placement_eq_duplicate.2 hmem
    unfold ClassBody.declareMethod
    rw [hp]
    exact ⟨rfl, rfl⟩
  · intro hmem
    unfold ClassBody.declareMethod
    split
    · next hp => exact absurd (placement_eq_duplicate.1 hp) hmem
    · exact ⟨rfl, rfl⟩
    · exact ⟨rfl, rfl⟩
    · exact ⟨rfl, rfl⟩

/-- The fields of a class are met from left to right. -/
theorem Met.declareFields (fs : List Param) :
    ∀ {b : ClassBody} {met : List String}, b.Met met →
      (b.declareFields fs).1.Met (met ++ (fs.map (·.declared .field)).map Declared.key) ∧
        (b.declareFields fs).2.duplicates = (repeats met (fs.map (·.declared .field))).map Declared.duplicate := by
  induction fs with
  | nil =>
    intro b met h
    refine ⟨?_, rfl⟩
    rwa [List.map_nil, List.map_nil, List.append_nil]
  | cons f fs ih =>
    intro b met h
    obtain ⟨hmet, hdup⟩ := h.declareField f (f.type.resolve b.env.classes)
    obtain ⟨hmet', hdup'⟩ := ih hmet
    rw [List.append_assoc] at hmet'
    refine ⟨hmet', ?_⟩
    simp only [ClassBody.declareFields, duplicates_append, TypeExpr.duplicates_findings, List.nil_append]
    rw [List.map_cons, ← List.singleton_append, repeats_append, List.map_append]
    exact congrArg₂ _ hdup hdup'

end ClassBody

/-! ## Duplicates of a program -/

/-- The duplicates in the scopes inside a declaration. -/
def scopesDuplicates (scopes : List (List Declared)) : SemanticErrors :=
  (scopes.flatMap (repeats [])).map Declared.duplicate

@[simp] theorem scopesDuplicates_append (ss ss' : List (List Declared)) :
    scopesDuplicates (ss ++ ss') = scopesDuplicates ss ++ scopesDuplicates ss' := by
  rw [scopesDuplicates, List.flatMap_append, List.map_append]
  rfl

theorem scopesDuplicates_cons (ds : List Declared) (ss : List (List Declared)) :
    scopesDuplicates (ds :: ss) = (repeats [] ds).map Declared.duplicate ++ scopesDuplicates ss := by
  rw [scopesDuplicates, List.flatMap_cons, List.map_append]
  rfl

/-- A class is reported as a duplicate like any other declaration. An unknown superclass is another kind of
error. -/
theorem Env.Met.duplicates_declareClass {env : Env} {met : List String} (h : env.Met met) (c : ClassDecl) :
    (env.declareClass c.id c.name c.superclass).2.2.duplicates =
      (repeats met [(Decl.cls c).declared]).map Declared.duplicate := by
  have hsup : (env.superclass c.name c.superclass).2.duplicates = [] := by
    unfold Env.superclass
    repeat' split
    all_goals rfl
  have h' : Env.Met { env with
      classes := (env.classes.declare c.name.text (env.superclass c.name c.superclass).1).2 } met :=
    h.of_scopes_eq rfl
  have hdup := (h'.declareLocal (Decl.cls c).declared (.cls env.classes.size)).2
  simp only [Env.declareClass, duplicates_append, hsup, List.append_nil]
  split
  · exact hdup
  · exact hdup

/-- Whatever a declaration is, its name is met behind it. -/
theorem Decl.met_bind {env : Env} {met : List String} (h : env.Met met) (d : Decl) :
    (d.bind env).1.Met (met ++ [d.declared.key]) := by
  obtain ⟨t, t', ty, heq, -⟩ := d.exists_declareLocal env
  have h' : Env.Met { env with classes := t } met := h.of_scopes_eq rfl
  rw [heq]
  exact (h'.declareLocal d.declared ty).1.of_scopes_eq rfl

/-- What two halves report of the scope around them and of the scopes inside them, sorted by which it is. -/
theorem perm_append_interleave {α : Type} (as bs cs ds : List α) :
    ((as ++ bs) ++ (cs ++ ds)).Perm ((as ++ cs) ++ (bs ++ ds)) := by
  rw [List.append_assoc, List.append_assoc]
  exact .append_left as (List.perm_append_comm_assoc bs cs ds)

mutual

/-- What the walk reports of a declaration: a duplicate of its own name, and the duplicates of the scopes inside.
The walk has them in the order of the text, so the lists agree up to order. -/
theorem Decl.duplicates_bind {env : Env} {met : List String} (h : env.Met met) :
    (d : Decl) → (d.bind env).2.duplicates.Perm
      ((repeats met [d.declared]).map Declared.duplicate ++ scopesDuplicates d.nameScopes)
  | .var id name type init _ => by
    have hdup := (h.declareLocal ⟨.var, id, name⟩ (type.resolve env.classes)).2
    simp only [Decl.bind, duplicates_append, Expr.duplicates_findings, TypeExpr.duplicates_findings,
      List.nil_append]
    rw [hdup]
    exact List.Perm.of_eq (List.append_nil _).symm
  | .func f => by
    have hdup := (h.declareLocal ⟨.func, f.id, f.name⟩ (f.signature env.classes).ty).2
    simp only [Decl.bind, duplicates_append, FunDecl.duplicates_headFindings, List.nil_append]
    rw [hdup]
    exact .append_left _ (FunDecl.duplicates_bindBody _ _ f (by simp [FunDecl.signature]))
  | .cls ⟨id, name, superclass, fields, methods, span⟩ => by
    have hhead := h.duplicates_declareClass ⟨id, name, superclass, fields, methods, span⟩
    let b := ClassBody.enter (env.declareClass id name superclass).2.1 env.classes.size name.text
    have hb : b.Met [] := fun n => Iff.rfl
    obtain ⟨hmet, hfields⟩ := hb.declareFields fields
    have hmethods := ClassBody.duplicates_bindMethods hmet methods
    rw [Decl.nameScopes, scopesDuplicates_cons, repeats_append, List.map_append, List.append_assoc]
    simp only [Decl.bind, duplicates_append]
    rw [hhead, List.append_assoc]
    refine .append_left _ ?_
    exact (List.Perm.of_eq hfields).append hmethods

/-- What is repeated among the parameters and the local declarations of a function, and inside of these. -/
theorem FunDecl.duplicates_bindBody (env : Env) (paramTypes : List Ty) :
    (f : FunDecl) → f.params.length = paramTypes.length →
      (f.bindBody env paramTypes).2.duplicates.Perm (scopesDuplicates f.nameScopes)
  | ⟨id, name, params, ret, decls, body, _⟩, hlen => by
    obtain ⟨hmet, hparams⟩ := Env.Met.declareParams (params.zip paramTypes) (.enterFrame env) Env.firstParam
    have hzip : (params.zip paramTypes).map (·.1.declared .param) = params.map (·.declared .param) := by
      rw [show (fun x : Param × Ty => x.1.declared .param) = (·.declared .param) ∘ Prod.fst from rfl,
        ← List.map_map, List.map_fst_zip (Nat.le_of_eq hlen)]
    rw [hzip] at hmet hparams
    have hdecls := Decl.duplicates_bindAll hmet decls
    rw [FunDecl.nameScopes, scopesDuplicates_cons, repeats_append, List.map_append, List.append_assoc]
    simp only [FunDecl.bindBody, duplicates_append, Expr.duplicates_findings, List.append_nil]
    exact (List.Perm.of_eq hparams).append hdecls

/-- The methods of a class: their names are met in the body, and each opens scopes of its own. -/
theorem ClassBody.duplicates_bindMethods {b : ClassBody} {met : List String} (h : b.Met met) :
    (ms : List FunDecl) → (b.bindMethods ms).2.duplicates.Perm
      ((repeats met (ms.map FunDecl.declared)).map Declared.duplicate ++
        scopesDuplicates (FunDecl.nameScopesAll ms))
  | [] => .refl []
  | m :: ms => by
    obtain ⟨hmet, hdeclared⟩ := h.declareMethod m (m.signature b.env.classes)
    have hbody := FunDecl.duplicates_bindBody (b.declareMethod m (m.signature b.env.classes)).1.env
      (m.signature b.env.classes).params m (by simp [FunDecl.signature])
    have hmet' : (b.bindMethod m).1.Met (met ++ [m.name.text]) := hmet
    have hrest := ClassBody.duplicates_bindMethods hmet' ms
    rw [ClassBody.bindMethods_cons, FunDecl.nameScopesAll, scopesDuplicates_append, List.map_cons,
      ← List.singleton_append, repeats_append, List.map_append]
    simp only [ClassBody.bindMethod, duplicates_append, FunDecl.duplicates_headFindings, List.nil_append]
    exact (((List.Perm.of_eq hdeclared).append hbody).append hrest).trans (perm_append_interleave _ _ _ _)

theorem Decl.duplicates_bindAll {env : Env} {met : List String} (h : env.Met met) :
    (ds : List Decl) → (Decl.bindAll env ds).2.duplicates.Perm
      ((repeats met (ds.map Decl.declared)).map Declared.duplicate ++ scopesDuplicates (Decl.nameScopesAll ds))
  | [] => .refl []
  | d :: ds => by
    rw [Decl.bindAll, Decl.nameScopesAll, scopesDuplicates_append, List.map_cons, ← List.singleton_append,
      repeats_append, List.map_append]
    simp only [duplicates_append]
    exact ((Decl.duplicates_bind h d).append (Decl.duplicates_bindAll (Decl.met_bind h d) ds)).trans
      (perm_append_interleave _ _ _ _)

end

/-- The errors about duplicates are those of the repeated declarations. -/
theorem Program.duplicates_perm (p : Program) : p.walk.2.duplicates.Perm (scopesDuplicates p.nameScopes) := by
  have hmet : Env.initial.Met [] := by
    refine ⟨List.cons_ne_nil _ _, fun n => ?_⟩
    simp [Env.initial, ScopeStack.push, ScopeStack.lookupLocal?]
  have h := Decl.duplicates_bindAll hmet p.decls
  rw [nameScopes, scopesDuplicates_cons]
  simp only [walk, duplicates_append, Expr.duplicates_findings, List.append_nil]
  exact h

end ObjLet
