import ObjLet.Proofs.Binding.Static

/-!
# The parts of a clean program

Binding and checking find no error in any block, expression or function of a program without errors, wherever
it stands.
-/

namespace ObjLet

variable {t : Tables} {p : Program}

/-- The functions and methods of a program. -/
inductive Program.HasFunction (p : Program) : FunDecl → Prop where
  | func {b : Block} {f : FunDecl} (hb : p.HasBlock b) (hf : .func f ∈ b.decls) : p.HasFunction f
  | method {b : Block} {c : ClassDecl} {m : FunDecl} (hb : p.HasBlock b) (hc : .cls c ∈ b.decls)
      (hm : m ∈ c.methods) : p.HasFunction m

mutual

/-- A function and the functions in it. -/
def FunDecl.functions : FunDecl → List FunDecl
  | ⟨id, name, params, ret, decls, body, span⟩ =>
    ⟨id, name, params, ret, decls, body, span⟩ :: Decl.functionsAll decls

def FunDecl.functionsAll : List FunDecl → List FunDecl
  | [] => []
  | m :: ms => m.functions ++ FunDecl.functionsAll ms

def Decl.functions : Decl → List FunDecl
  | .var _ _ _ _ _ => []
  | .func f => f.functions
  | .cls ⟨_, _, _, _, methods, _⟩ => FunDecl.functionsAll methods

def Decl.functionsAll : List Decl → List FunDecl
  | [] => []
  | d :: ds => d.functions ++ Decl.functionsAll ds

end

theorem FunDecl.functions_eq (f : FunDecl) : f.functions = f :: Decl.functionsAll f.decls := by
  cases f
  rfl

theorem FunDecl.functionsAll_eq (ms : List FunDecl) : functionsAll ms = ms.flatMap functions := by
  induction ms with
  | nil => rfl
  | cons m ms ih => rw [functionsAll, ih, List.flatMap_cons]

theorem Decl.functionsAll_eq (ds : List Decl) : functionsAll ds = ds.flatMap functions := by
  induction ds with
  | nil => rfl
  | cons d ds ih => rw [functionsAll, ih, List.flatMap_cons]

/-- The functions and methods of a program, in order. -/
def Program.functions (p : Program) : List FunDecl := Decl.functionsAll p.decls

/-- The functions in a method are functions in its class. -/
theorem Decl.mem_functions_method {c : ClassDecl} {m f : FunDecl} (hm : m ∈ c.methods) (hf : f ∈ m.functions) :
    f ∈ (Decl.cls c).functions := by
  obtain ⟨id, name, superclass, fields, methods, span⟩ := c
  rw [Decl.functions, FunDecl.functionsAll_eq]
  exact List.mem_flatMap.2 ⟨m, hm, hf⟩

/-- Every function that stands in some block of a program is listed, however deep the block is. -/
theorem Program.HasBlock.mem_functions {b : Block} (hb : p.HasBlock b) {d : Decl} (hd : d ∈ b.decls)
    {f : FunDecl} (hf : f ∈ d.functions) : f ∈ p.functions := by
  induction hb generalizing d with
  | top =>
    rw [functions, Decl.functionsAll_eq]
    exact List.mem_flatMap.2 ⟨d, hd, hf⟩
  | @func b before after g _ hg ih =>
    -- The block is that of a function in the block around it, so the function in question is in that one.
    refine ih (hg ▸ List.mem_append_right _ List.mem_cons_self) ?_
    change f ∈ g.functions
    rw [FunDecl.functions_eq, Decl.functionsAll_eq]
    exact List.mem_cons_of_mem _ (List.mem_flatMap.2 ⟨d, hd, hf⟩)
  | @method b before after c pre post m _ hc hm ih =>
    refine ih (hc ▸ List.mem_append_right _ List.mem_cons_self)
      (Decl.mem_functions_method (hm ▸ List.mem_append_right _ List.mem_cons_self) ?_)
    rw [FunDecl.functions_eq, Decl.functionsAll_eq]
    exact List.mem_cons_of_mem _ (List.mem_flatMap.2 ⟨d, hd, hf⟩)

/-- The list of the functions of a program is complete. -/
theorem Program.HasFunction.mem_functions {f : FunDecl} (hf : p.HasFunction f) : f ∈ p.functions := by
  have hself : ∀ g : FunDecl, g ∈ g.functions := fun g => by
    rw [FunDecl.functions_eq]
    exact List.mem_cons_self
  cases hf with
  | func hb hf => exact hb.mem_functions hf (hself f)
  | method hb hc hm => exact hb.mem_functions hc (Decl.mem_functions_method hm (hself f))

/-- In a clean block every declaration is clean where it stands. -/
theorem Decl.CheckedAll.exists_checked (ht : t.classes.Lineal) {ds : List Decl} {d : Decl} (hd : d ∈ ds) :
    ∀ {env : Env}, Decl.CheckedAll t env ds → ∃ env', d.Checked t env' := by
  induction ds with
  | nil => cases hd
  | cons e ds ih =>
    intro env h
    obtain ⟨he, hds⟩ := h.cons ht
    rcases List.mem_cons.1 hd with rfl | hd
    · exact ⟨env, he⟩
    · exact ih hd hds

/-- In a clean class every method is clean where it stands. -/
theorem ClassDecl.Checked.exists_method (ht : t.classes.Lineal) {env env' : Env} {c : ClassDecl} {s : ClassSite}
    {final : Class} (h : c.Checked t env env' s final) {m : FunDecl} (hm : m ∈ c.methods) :
    ∃ Γ sig, m.Checked t Γ sig := by
  obtain ⟨b, cur, hmethods, -, -⟩ := h.members
  obtain ⟨pre, post, heq⟩ := List.append_of_mem hm
  rw [heq] at hmethods
  obtain ⟨b', cur', hmid, -⟩ := hmethods.split ht pre
  obtain ⟨b'', -, -, -, hclean, -⟩ := hmid.cons ht
  exact ⟨_, _, hclean⟩

/-- Binding and checking find no error in a block. -/
def Block.Checked (t : Tables) (b : Block) : Prop :=
  (∃ env, Decl.CheckedAll t env b.decls) ∧ ∃ env, env.Fits t ∧ b.body.Checked t env

theorem FunDecl.Checked.block (ht : t.classes.Lineal) {env : Env} {sig : Signature} {f : FunDecl}
    (h : f.Checked t env sig) (outer : List Names) : (f.block outer).Checked t := by
  obtain ⟨-, hdecls, hfits, hbody, -⟩ := h.body ht
  exact ⟨⟨_, hdecls⟩, _, hfits, hbody⟩

/-- In a clean program every block is clean, whatever it is nested in. -/
theorem Program.HasBlock.checked (h : p.Checked t) {b : Block} (hb : p.HasBlock b) : b.Checked t := by
  induction hb with
  | top => exact ⟨⟨_, h.decls⟩, _, h.fits, h.body⟩
  | func _ hf ih =>
    obtain ⟨⟨env, hdecls⟩, -⟩ := ih
    obtain ⟨env', hd⟩ := hdecls.exists_checked h.lineal (hf ▸ List.mem_append_right _ List.mem_cons_self)
    exact hd.func.2.2.block h.lineal _
  | method _ hc hm ih =>
    obtain ⟨⟨env, hdecls⟩, -⟩ := ih
    obtain ⟨env', hd⟩ := hdecls.exists_checked h.lineal (hc ▸ List.mem_append_right _ List.mem_cons_self)
    obtain ⟨s, final, hcls⟩ := hd.cls h.lineal
    obtain ⟨Γ, sig, hclean⟩ := hcls.exists_method h.lineal (hm ▸ List.mem_append_right _ List.mem_cons_self)
    exact hclean.block h.lineal _

/-- In a clean program every function and every method is clean. -/
theorem Program.HasFunction.checked (h : p.Checked t) {f : FunDecl} (hf : p.HasFunction f) :
    ∃ env sig, f.Checked t env sig := by
  cases hf with
  | func hb hf =>
    obtain ⟨⟨env, hdecls⟩, -⟩ := hb.checked h
    obtain ⟨env', hd⟩ := hdecls.exists_checked h.lineal hf
    exact ⟨_, _, hd.func.2.2⟩
  | method hb hc hm =>
    obtain ⟨⟨env, hdecls⟩, -⟩ := hb.checked h
    obtain ⟨env', hd⟩ := hdecls.exists_checked h.lineal hc
    obtain ⟨s, final, hcls⟩ := hd.cls h.lineal
    exact hcls.exists_method h.lineal hm

/-- The parts of a clean expression are clean in the same environment. -/
theorem Expr.Checked.part {env : Env} {e e' : Expr} (h : e.Checked t env) (he : e' ∈ e.parts) :
    e'.Checked t env := by
  refine ⟨Expr.recorded_part h.recorded he, ?_⟩
  have hclean := h.clean
  have args : ∀ {es : List Expr}, typeErrorsAll t es = [] → e' ∈ es → e'.typeErrors t = [] := by
    intro es hes hmem
    rw [typeErrorsAll_eq_flatMap, List.flatMap_eq_nil_iff] at hes
    exact hes e' hmem
  cases e with
  | literal value span | ident id name => cases he
  | call id callee es span | new id cls es span | methodCall id object method es span =>
    rw [typeErrors, List.append_eq_nil_iff] at hclean
    exact args hclean.1 he
  | binary op left right span =>
    simp only [typeErrors, List.append_eq_nil_iff] at hclean
    simp only [parts, List.mem_cons, List.not_mem_nil, or_false] at he
    obtain rfl | rfl := he
    · exact hclean.1.1
    · exact hclean.1.2
  | unary op operand span =>
    simp only [typeErrors, List.append_eq_nil_iff] at hclean
    cases List.mem_singleton.1 he
    exact hclean.1
  | cond condition thenExpr elseExpr span =>
    simp only [typeErrors, List.append_eq_nil_iff] at hclean
    simp only [parts, List.mem_cons, List.not_mem_nil, or_false] at he
    obtain rfl | rfl | rfl := he
    · exact hclean.1.1.1.1
    · exact hclean.1.1.2
    · exact hclean.1.2
  | print operand span =>
    cases List.mem_singleton.1 he
    exact hclean

/-- In a clean program every expression is clean, wherever it stands. -/
theorem Program.Stands.checked (h : p.Checked t) {scopes : List Names} {e : Expr}
    (hs : p.Stands scopes e) : ∃ env, env.Fits t ∧ e.Checked t env := by
  induction hs with
  | body hb => exact (hb.checked h).2
  | init hb hd =>
    obtain ⟨⟨env, hdecls⟩, -⟩ := hb.checked h
    obtain ⟨env', hvar⟩ := hdecls.exists_checked h.lineal (hd ▸ List.mem_append_right _ List.mem_cons_self)
    exact ⟨_, hvar.fits, hvar.var.1⟩
  | part _ he ih =>
    obtain ⟨env, hf, hc⟩ := ih
    exact ⟨env, hf, hc.part he⟩

end ObjLet
