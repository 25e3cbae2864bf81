import ObjLet.Code.Program
import ObjLet.Proofs.Renaming.Table

/-!
# Code of renamed programs

Names and positions come into generation only where it fails, and node ids only through the tables. So generating
a renamed tree with renamed tables takes the same steps and yields the same code, and where it fails it fails with
the same error, renamed (`Program.generate_rename`).
-/

namespace ObjLet

variable {r : Renaming} {t t' : Tables}

/-! ## Steps of generation -/

/-- The same step with renamed failures. -/
def Gen.rename {α : Type} (r : Renaming) (x : Gen α) : Gen α :=
  fun s => (x.run s).mapError (InternalError.rename r [])

namespace Gen

variable {α β : Type}

@[simp] theorem rename_pure (a : α) : rename r (pure a : Gen α) = pure a := rfl

/-- Renaming what a step reports goes through sequences. With the lemmas below, a step of generation is renamed
by renaming its lookups. -/
@[simp] theorem rename_bind (x : Gen α) (f : α → Gen β) :
    rename r (x >>= f) = rename r x >>= fun a => rename r (f a) := by
  funext s
  change ((x >>= f).run s).mapError _ = (rename r x >>= fun a => rename r (f a)).run s
  rw [StateT.run_bind, StateT.run_bind]
  change _ = (x.run s).mapError _ >>= _
  cases x.run s <;> rfl

@[simp] theorem rename_ite {c : Prop} [Decidable c] (x y : Gen α) :
    rename r (if c then x else y) = if c then rename r x else rename r y := by
  split <;> rfl

@[simp] theorem rename_fail (misfit : Misfit) (span : Span) :
    rename r (fail misfit span : Gen α) = fail (misfit.rename r) (r.move [] span) := rfl

@[simp] theorem rename_orFail (value? : Option α) (misfit : Misfit) (span : Span) :
    rename r (orFail value? misfit span) = orFail value? (misfit.rename r) (r.move [] span) := by
  cases value? <;> rfl

/-- Labels, code and dispatch tables do not mention names, so only failures are renamed. -/
@[simp] theorem rename_freshBranch : rename r freshBranch = freshBranch := rfl

@[simp] theorem rename_freshFunction : rename r freshFunction = freshFunction := rfl

@[simp] theorem rename_addFunction (entry : Label) (body : Code) :
    rename r (addFunction entry body) = addFunction entry body := rfl

@[simp] theorem rename_setDispatch (cls : ClassId) (table : List Label) :
    rename r (setDispatch cls table) = setDispatch cls table := rfl

@[simp] theorem rename_dispatch? (cls : ClassId) : rename r (dispatch? cls) = dispatch? cls := rfl

/-- A step goes on with what it finds, whatever it is mapped to. -/
theorem orFail_map (f : α → β) (value? : Option α) (misfit : Misfit) (span : Span) :
    orFail (value?.map f) misfit span = orFail value? misfit span >>= fun a => pure (f a) := by
  cases value? <;> rfl

end Gen

namespace Tables.Renames

variable (h : t.Renames r t') (id : NodeId) (span : Span)
include h

/-- A lookup under a renamed id finds the same, and where it fails, the id and the position in the failure are
renamed. -/
theorem use : t'.use (r.node id) (r.move [] span) = Gen.rename r (t.use id span) := by
  rw [Tables.use, Tables.use, Gen.rename_orFail, h.resolutions.use?]
  rfl

theorem methodCall : t'.methodCall (r.node id) (r.move [] span) = Gen.rename r (t.methodCall id span) := by
  rw [Tables.methodCall, Tables.methodCall, Gen.rename_orFail, h.resolutions.methodCall?]
  rfl

theorem declaration : t'.declaration (r.node id) (r.move [] span) = Gen.rename r (t.declaration id span) := by
  rw [Tables.declaration, Tables.declaration, Gen.rename_orFail, h.resolutions.declaration?]
  rfl

end Tables.Renames

/-! ## Expressions -/

mutual

/-- By recursion over expressions: the code is the same, instruction by instruction, and so are the labels taken
for it. -/
theorem Expr.gen_rename (hr : r.Uniform) (h : t.Renames r t') (mem : Int) :
    (e : Expr) → (e.rename r).gen t' mem = Gen.rename r (e.gen t mem)
  | .literal _ _ => rfl
  | .ident id name => by
    simp only [Expr.rename, Expr.gen, Name.span_rename, Name.text_rename, h.use, Gen.rename_bind, Gen.rename_ite,
      Gen.rename_pure, Gen.rename_fail, Misfit.rename]
  | .call id callee args _ => by
    simp only [Expr.rename, hr.part, Expr.gen, Name.span_rename, Name.text_rename, h.use,
      Expr.genLastFirst_rename hr h mem args, Gen.rename_bind, Gen.rename_ite, Gen.rename_pure, Gen.rename_fail,
      Misfit.rename]
  | .new id cls args _ => by
    have hlayout : ∀ o : Option ClassId, o.bind t'.classes.layout? =
        (o.bind t.classes.layout?).map (ClassLayout.rename r) := by
      rintro (_ | c)
      · rfl
      · exact h.classes.layout? c
    simp only [Expr.rename, hr.part, Expr.gen, Name.span_rename, Name.text_rename, h.use, hlayout, Gen.orFail_map,
      Expr.genFirstLast_rename hr h mem args, Gen.rename_bind, Gen.rename_orFail, Gen.rename_pure, Misfit.rename,
      bind_assoc, pure_bind]
    rfl
  | .methodCall id _ _ args span => by
    simp only [Expr.rename, hr.part, Expr.gen, h.methodCall, Expr.genLastFirst_rename hr h mem args, Gen.rename_bind,
      Gen.rename_pure]
  | .binary op left right _ => by
    cases op <;> simp only [Expr.rename, hr.part, Expr.gen, Expr.gen_rename hr h mem left,
      Expr.gen_rename hr h mem right, Gen.rename_bind, Gen.rename_pure, Gen.rename_freshBranch]
  | .unary .not operand _ => by
    simp only [Expr.rename, hr.part, Expr.gen, Expr.gen_rename hr h mem operand, Gen.rename_bind, Gen.rename_pure,
      Gen.rename_freshBranch]
  | .cond condition thenExpr elseExpr _ => by
    simp only [Expr.rename, hr.part, Expr.gen, Expr.gen_rename hr h mem condition, Expr.gen_rename hr h mem thenExpr,
      Expr.gen_rename hr h mem elseExpr, Gen.rename_bind, Gen.rename_pure, Gen.rename_freshBranch]
  | .print value _ => by
    simp only [Expr.rename, hr.part, Expr.gen, Expr.gen_rename hr h mem value, Gen.rename_bind, Gen.rename_pure]

theorem Expr.genFirstLast_rename (hr : r.Uniform) (h : t.Renames r t') (mem : Int) :
    (es : List Expr) → Expr.genFirstLast t' mem (Expr.renameAll r es) = Gen.rename r (Expr.genFirstLast t mem es)
  | [] => rfl
  | e :: es => by
    simp only [Expr.renameAll, hr.part, Expr.genFirstLast, Expr.gen_rename hr h mem e,
      Expr.genFirstLast_rename hr h mem es, Gen.rename_bind, Gen.rename_pure]

theorem Expr.genLastFirst_rename (hr : r.Uniform) (h : t.Renames r t') (mem : Int) :
    (es : List Expr) → Expr.genLastFirst t' mem (Expr.renameAll r es) = Gen.rename r (Expr.genLastFirst t mem es)
  | [] => rfl
  | e :: es => by
    simp only [Expr.renameAll, hr.part, Expr.genLastFirst, Expr.gen_rename hr h mem e,
      Expr.genLastFirst_rename hr h mem es, Gen.rename_bind, Gen.rename_pure]

end

/-! ## Declarations -/

namespace Tables.Renames

variable (h : t.Renames r t')
include h

/-- The signature is the same; only its absence would be reported with a name. -/
theorem functionSignature (id : NodeId) (name : Name) (span : Span) :
    t'.functionSignature (r.node id) (name.rename r) (r.move [] span) =
      Gen.rename r (t.functionSignature id name span) := by
  simp only [Tables.functionSignature, h.declaration, Name.text_rename, Gen.rename_bind, Gen.rename_orFail,
    Misfit.rename]

/-- Widths of slots are found under the renamed ids. -/
theorem localWords (hr : r.Uniform) (ds : List Decl) :
    t'.localWords (Decl.renameAll r ds) = Gen.rename r (t.localWords ds) := by
  induction ds with
  | nil => rfl
  | cons d ds ih =>
    simp only [Decl.renameAll, hr.part, Tables.localWords, Decl.id_rename, Decl.span_rename, h.declaration, ih,
      Gen.rename_bind, Gen.rename_pure]

/-- Dispatch tables are known by the positions of classes. -/
theorem inheritedDispatch (cls : ClassId) (name : Name) (span : Span) :
    t'.inheritedDispatch cls (name.rename r) (r.move [] span) = Gen.rename r (t.inheritedDispatch cls name span) := by
  have hsuper : (t'.classes.layout? cls).bind (·.superclass) = (t.classes.layout? cls).bind (·.superclass) := by
    rw [h.classes.layout?, Option.bind_map]
    rfl
  rw [Tables.inheritedDispatch, Tables.inheritedDispatch, hsuper]
  cases (t.classes.layout? cls).bind (·.superclass) with
  | none => rfl
  | some parent =>
    simp only [Name.text_rename, Gen.rename_bind, Gen.rename_dispatch?, Gen.rename_orFail, Misfit.rename]

end Tables.Renames

mutual

/-- By recursion over declarations, functions and methods. Slots and class positions are the same, so dispatch
tables are too. -/
theorem Decl.gen_rename (hr : r.Uniform) (h : t.Renames r t') (mem : Int) :
    (d : Decl) → (d.rename r).gen t' mem = Gen.rename r (d.gen t mem)
  | .var _ _ _ init _ => by
    simp only [Decl.rename, hr.part, Decl.gen, Expr.gen_rename hr h mem init]
  | .func f => by
    simp only [Decl.rename, Decl.gen, FunDecl.gen_rename hr h mem _ f, Gen.rename_bind, Gen.rename_pure,
      Gen.rename_freshFunction]
  | .cls ⟨id, name, _, _, methods, span⟩ => by
    simp only [Decl.rename, hr.part, Decl.gen, h.declaration, h.inheritedDispatch, Name.text_rename,
      FunDecl.genAll_rename hr h mem _ methods, Gen.rename_bind, Gen.rename_pure, Gen.rename_orFail,
      Gen.rename_setDispatch, Misfit.rename]

theorem FunDecl.gen_rename (hr : r.Uniform) (h : t.Renames r t') (mem : Int) (entry : Label) :
    (f : FunDecl) → (f.rename r).gen t' mem entry = Gen.rename r (f.gen t mem entry)
  | ⟨id, name, _, _, decls, body, span⟩ => by
    simp only [FunDecl.rename, hr.part, FunDecl.gen, h.functionSignature, h.localWords hr,
      Decl.genAll_rename hr h mem decls, Expr.gen_rename hr h mem body, Gen.rename_bind, Gen.rename_addFunction]

/-- A method that cannot be placed is reported with its new name. -/
theorem FunDecl.genAll_rename (hr : r.Uniform) (h : t.Renames r t') (mem : Int) (table : List Label) :
    (ms : List FunDecl) →
      FunDecl.genAll t' mem table (FunDecl.renameAll r ms) = Gen.rename r (FunDecl.genAll t mem table ms)
  | [] => rfl
  | m :: ms => by
    simp only [FunDecl.renameAll, hr.part, FunDecl.genAll, FunDecl.id_rename, FunDecl.text_rename,
      FunDecl.span_rename, h.declaration, FunDecl.gen_rename hr h mem _ m, FunDecl.genAll_rename hr h mem _ ms,
      Gen.rename_bind, Gen.rename_orFail, Gen.rename_freshFunction, Misfit.rename]

theorem Decl.genAll_rename (hr : r.Uniform) (h : t.Renames r t') (mem : Int) :
    (ds : List Decl) → Decl.genAll t' mem (Decl.renameAll r ds) = Gen.rename r (Decl.genAll t mem ds)
  | [] => rfl
  | d :: ds => by
    simp only [Decl.renameAll, hr.part, Decl.genAll, Decl.gen_rename hr h mem d, Decl.genAll_rename hr h mem ds,
      Gen.rename_bind, Gen.rename_pure]

end

/-! ## Programs -/

/-- The main part is the same, and so is everything that was added to the unit on the way. -/
theorem Program.gen_rename (hr : r.Uniform) (h : t.Renames r t') (mem : Int) (p : Program) :
    (p.rename r).gen t' mem = Gen.rename r (p.gen t mem) := by
  have hdecls : (p.rename r).hasDecls = p.hasDecls := by
    obtain ⟨decls, body, span⟩ := p
    cases decls <;> rfl
  simp only [Program.gen, hdecls]
  simp only [Program.rename, hr.part, Decl.genAll_rename hr h, Expr.gen_rename hr h, Gen.rename_bind, Gen.rename_pure]

/-- A renamed program has the code of the program, or generating it fails in the same way. -/
theorem Program.generate_rename (hr : r.Uniform) (h : t.Renames r t') (mem : Int) (p : Program) :
    (p.rename r).generate t' mem = (p.generate t mem).mapError (InternalError.rename r []) := by
  rw [Program.generate, Program.generate, Program.gen_rename hr h]
  change ((p.gen t mem).run {}).mapError _ >>= _ = _
  cases (p.gen t mem).run {} <;> rfl

end ObjLet
