import ObjLet.Compile
import ObjLet.Proofs.Typing.Declared

/-!
# Generation never fails on a clean program

`Gen.Yields` says that a step of generation ends with a result, and what holds of it. Expressions and
functions leave the dispatch tables alone (`Gen.Keeps`); a class adds its own, as long as the number of
its methods, behind those of the classes before it (`GenState.Dispatches`). So every superclass has its
table when a class needs it, no slot is beyond the end of the table being built, and an internal error
can never come out of `Program.compile` with type checking on.
-/

namespace ObjLet

namespace Gen

variable {α β : Type}

/-- From a state, a step of generation yields a result and a state with a property. -/
def Yields (x : Gen α) (s : GenState) (Q : α → GenState → Prop) : Prop :=
  ∃ a s', x.run s = .ok (a, s') ∧ Q a s'

theorem Yields.pure {a : α} {s : GenState} {Q : α → GenState → Prop} (h : Q a s) :
    Yields (Pure.pure a) s Q :=
  ⟨a, s, rfl, h⟩

/-- A sequence yields a result if its steps do, one after the other. -/
theorem Yields.bind {x : Gen α} {f : α → Gen β} {s : GenState} {Q : β → GenState → Prop}
    (h : Yields x s fun a s' => Yields (f a) s' Q) : Yields (x >>= f) s Q := by
  obtain ⟨a, s', hx, b, s'', hf, hq⟩ := h
  exact ⟨b, s'', bind_eq_ok.2 ⟨a, s', hx, hf⟩, hq⟩

theorem Yields.mono {x : Gen α} {s : GenState} {Q R : α → GenState → Prop} (h : Yields x s Q)
    (hqr : ∀ a s', Q a s' → R a s') : Yields x s R := by
  obtain ⟨a, s', hx, hq⟩ := h
  exact ⟨a, s', hx, hqr a s' hq⟩

theorem orFail_some (a : α) (misfit : Misfit) (span : Span) :
    orFail (some a) misfit span = Pure.pure a := rfl

/-- A step of generation yields a result from every state and leaves the dispatch tables alone. -/
def Keeps (x : Gen α) : Prop := ∀ s, Yields x s fun _ s' => s'.dispatch = s.dispatch

theorem Keeps.pure (a : α) : Keeps (Pure.pure a) := fun _ => .pure rfl

theorem Keeps.bind {x : Gen α} {f : α → Gen β} (hx : Keeps x) (hf : ∀ a, Keeps (f a)) :
    Keeps (x >>= f) := by
  intro s
  refine .bind ((hx s).mono fun a s' hs => ?_)
  exact (hf a s').mono fun _ _ hs' => hs'.trans hs

/-- Of all the steps only `setDispatch` touches dispatch tables, so each of the others keeps them. -/
theorem keeps_freshBranch : Keeps freshBranch := fun _ => ⟨_, _, rfl, rfl⟩

theorem keeps_freshFunction : Keeps freshFunction := fun _ => ⟨_, _, rfl, rfl⟩

theorem keeps_addFunction (entry : Label) (body : Code) : Keeps (addFunction entry body) :=
  fun _ => ⟨_, _, rfl, rfl⟩

end Gen

open Gen

variable {t : Tables} {env : Env} {mem : Int}

/-- With an entry in the tables a lookup is no effect at all, which `pure_bind` then removes. -/
theorem Tables.use_eq {id : NodeId} {use : Resolution} (h : t.resolutions.use? id = some use)
    (span : Span) : t.use id span = pure use := by
  rw [Tables.use, h, orFail_some]

theorem Tables.methodCall_eq {id : NodeId} {call : MethodResolution}
    (h : t.resolutions.methodCall? id = some call) (span : Span) :
    t.methodCall id span = pure call := by
  rw [Tables.methodCall, h, orFail_some]

theorem Tables.declaration_eq {id : NodeId} {e : Entry} (h : t.resolutions.declaration? id = some e)
    (span : Span) : t.declaration id span = pure e := by
  rw [Tables.declaration, h, orFail_some]

namespace Expr

/-- Arguments keep the dispatch tables if each of them does. -/
theorem keeps_genLastFirst {args : List Expr} (h : ∀ a ∈ args, Keeps (a.gen t mem)) :
    Keeps (genLastFirst t mem args) := by
  induction args with
  | nil => exact .pure _
  | cons a as ih =>
    obtain ⟨ha, has⟩ := List.forall_mem_cons.1 h
    exact (ih has).bind fun _ => ha.bind fun _ => .pure _

theorem keeps_genFirstLast {args : List Expr} (h : ∀ a ∈ args, Keeps (a.gen t mem)) :
    Keeps (genFirstLast t mem args) := by
  induction args with
  | nil => exact .pure _
  | cons a as ih =>
    obtain ⟨ha, has⟩ := List.forall_mem_cons.1 h
    exact ha.bind fun _ => (ih has).bind fun _ => .pure _

/-- The code of a clean expression can be generated. -/
theorem Checked.keeps_gen (hf : env.Fits t) {e : Expr} (h : e.Checked t env) :
    Keeps (e.gen t mem) := by
  induction e using Expr.induction with
  | literal value span => exact .pure _
  | ident id name =>
    obtain ⟨e, -, huse, hk⟩ := h.ident
    rw [gen, Tables.use_eq huse, pure_bind, if_pos hk]
    exact .pure _
  | call id callee args span ih =>
    obtain ⟨e, sig, he, huse, hty, hargs, -⟩ := h.call
    have hk : e.kind ≠ .cls := by
      intro hk
      obtain ⟨c, l, hc, -⟩ := (hf.lookup? he).cls hk
      rw [hty] at hc
      cases hc
    rw [gen, Tables.use_eq huse, pure_bind, if_neg hk]
    exact (keeps_genLastFirst fun a ha => ih a ha (hargs a ha)).bind fun _ => .pure _
  | new id cls args span ih =>
    obtain ⟨e, c, l, -, huse, hc, hl, hargs, -⟩ := h.new hf
    rw [gen, Tables.use_eq huse, pure_bind, hc, Option.bind_some, hl, orFail_some, pure_bind]
    exact (keeps_genFirstLast fun a ha => ih a ha (hargs a ha)).bind fun _ => .pure _
  | methodCall id object method args span ih =>
    obtain ⟨e, c, m, sig, -, -, -, -, -, hcall, hargs, -⟩ := h.methodCall hf
    rw [gen, Tables.methodCall_eq hcall, pure_bind]
    exact (keeps_genLastFirst fun a ha => ih a ha (hargs a ha)).bind fun _ => .pure _
  | binary op left right span ihl ihr =>
    obtain ⟨hl, hr, -⟩ := h.binary
    have hl := ihl hl
    have hr := ihr hr
    have hb := keeps_freshBranch
    cases op with
    | add | sub | mul | div => exact hl.bind fun _ => hr.bind fun _ => .pure _
    | equal | lessEqual =>
      exact hl.bind fun _ => hr.bind fun _ => hb.bind fun _ => hb.bind fun _ => .pure _
    | greaterEqual =>
      exact hr.bind fun _ => hl.bind fun _ => hb.bind fun _ => hb.bind fun _ => .pure _
    | and | or =>
      exact hb.bind fun _ => hb.bind fun _ => hl.bind fun _ => hr.bind fun _ => .pure _
  | unary op operand span ih =>
    cases op with
    | not =>
      exact (ih h.unary.1).bind fun _ => keeps_freshBranch.bind fun _ =>
        keeps_freshBranch.bind fun _ => .pure _
  | cond condition thenExpr elseExpr span ihc iht ihe =>
    obtain ⟨hc, ht, he, -⟩ := h.cond
    exact keeps_freshBranch.bind fun _ => keeps_freshBranch.bind fun _ => (ihc hc).bind fun _ =>
      (ihe he).bind fun _ => (iht ht).bind fun _ => .pure _
  | print value span ih => exact (ih h.print).bind fun _ => .pure _

end Expr

/-! ## Functions -/

/-- A clean function has its signature in the tables. -/
theorem FunDecl.Checked.functionSignature {sig : Signature} {f : FunDecl} (h : f.Checked t env sig)
    (name : Name) (span : Span) : t.functionSignature f.id name span = pure sig := by
  obtain ⟨e, he, hty⟩ := h.entry
  rw [Tables.functionSignature, Tables.declaration_eq he, pure_bind, hty, Ty.signature?_ty, orFail_some]

/-- A clean declaration is in the tables. -/
theorem Decl.Checked.entry (ht : t.classes.Lineal) {d : Decl} (h : d.Checked t env) :
    ∃ e, t.resolutions.declaration? d.id = some e := by
  cases d with
  | var id name type init span => exact ⟨_, h.var.2.2.1.entry⟩
  | func f => exact ⟨_, h.func.1.entry⟩
  | cls c =>
    obtain ⟨s, final, hc⟩ := h.cls ht
    exact ⟨_, hc.declares.entry⟩

/-- All local declarations of a clean function have entries. -/
theorem Decl.CheckedAll.keeps_localWords (ht : t.classes.Lineal) :
    ∀ {ds : List Decl} {env : Env}, Decl.CheckedAll t env ds → Keeps (t.localWords ds)
  | [], _, _ => .pure _
  | d :: ds, env, h => by
    obtain ⟨hd, hds⟩ := h.cons ht
    obtain ⟨e, he⟩ := hd.entry ht
    rw [Tables.localWords, Tables.declaration_eq he, pure_bind]
    exact (keeps_localWords ht hds).bind fun _ => .pure _

mutual

/-- Inside functions nothing fills a dispatch table. -/
theorem Decl.Checked.keeps_gen (ht : t.classes.Lineal) {env : Env} (hl : env.level ≠ 0) :
    (d : Decl) → d.Checked t env → Keeps (d.gen t mem)
  | .var _ _ _ init _, h => h.var.1.keeps_gen h.fits
  | .func f, h => by
    rw [Decl.gen]
    exact keeps_freshFunction.bind fun entry =>
      (FunDecl.Checked.keeps_gen ht f h.func.2.2 entry).bind fun _ => .pure _
  | .cls c, h => by
    obtain ⟨s, final, hc⟩ := h.cls ht
    exact absurd hc.level hl

/-- Functions and methods contain no classes, so they leave all dispatch tables alone. -/
theorem FunDecl.Checked.keeps_gen (ht : t.classes.Lineal) {env : Env} {sig : Signature} :
    (f : FunDecl) → f.Checked t env sig → (entry : Label) → Keeps (f.gen t mem entry)
  | ⟨id, name, params, ret, decls, body, span⟩, h, entry => by
    obtain ⟨-, hdecls, hfits, hbody, -⟩ := h.body ht
    have hl := FunDecl.level_inner_ne_zero ⟨id, name, params, ret, decls, body, span⟩ h.fits sig.params
    rw [FunDecl.gen, h.functionSignature name span, pure_bind]
    exact (hdecls.keeps_localWords ht).bind fun _ =>
      (Decl.CheckedAll.keeps_genAll ht hl decls hdecls).bind fun _ =>
      (hbody.keeps_gen hfits).bind fun _ => keeps_addFunction _ _

/-- The local declarations of a function. -/
theorem Decl.CheckedAll.keeps_genAll (ht : t.classes.Lineal) {env : Env} (hl : env.level ≠ 0) :
    (ds : List Decl) → Decl.CheckedAll t env ds → Keeps (Decl.genAll t mem ds)
  | [], _ => .pure _
  | d :: ds, h => by
    obtain ⟨hd, hds⟩ := h.cons ht
    have hl' : (d.bind env).1.level ≠ 0 := by rwa [Decl.level_bind]
    exact (Decl.Checked.keeps_gen ht hl d hd).bind fun _ =>
      (Decl.CheckedAll.keeps_genAll ht hl' ds hds).bind fun _ => .pure _

end

/-! ## Classes -/

/-- A slot that is not beyond the end of a dispatch table can be filled. -/
theorem exists_placeMethod? {table : List Label} {slot : Nat} (h : slot ≤ table.length)
    (entry : Label) :
    ∃ table', placeMethod? table slot entry = some table' ∧
      table'.length = max table.length (slot + 1) := by
  rw [placeMethod?, if_neg (by omega), Int.toNat_natCast]
  by_cases hlt : slot < table.length
  · rw [if_pos hlt]
    exact ⟨_, rfl, by rw [List.length_set]; omega⟩
  · rw [if_neg hlt, if_pos (by omega)]
    exact ⟨_, rfl, by rw [List.length_append, List.length_singleton]; omega⟩

/-- With a table of the methods so far, the tables of the methods that are left can be built. -/
theorem ClassBody.Checked.yields_genAll (ht : t.classes.Lineal) {s : ClassSite} {final : Class}
    {fs : List String} (methods : List FunDecl) :
    ∀ {b : ClassBody} {cur : Class} {ms : List String} {table : List Label},
      b.Checked t s final cur fs ms methods → table.length = ms.length → ∀ st,
      Yields (FunDecl.genAll t mem table methods) st fun table' st' =>
        st'.dispatch = st.dispatch ∧ table'.length = final.layout.methods.length := by
  induction methods with
  | nil =>
    intro b cur ms table h hlen st
    refine .pure ⟨rfl, ?_⟩
    have hl := (h.grows ht).2.laid.length_methods
    rw [List.map_nil, List.filter_nil, List.append_nil] at hl
    rw [hlen, hl]
  | cons m methods ih =>
    intro b cur ms table h hlen st
    obtain ⟨b', cur', h', -, hm, e, he, hmem, hk, -⟩ := h.cons ht
    -- The slot is the position of the name, which is an old one or the next.
    obtain ⟨hname, hk'⟩ | ⟨hname, -⟩ := h'.built.laid.kind_cases hmem
    · rw [hk] at hk'; cases hk'
    obtain ⟨i, sig, hi, -, hentry⟩ := h'.built.laid.entry_of_mem_methods hname
    cases hmem.symm.trans hentry
    have hlt := (List.getElem?_eq_some_iff.1 hi).1
    have hlen' : (ms ++ [m.name.text].filter (· ∉ s.inheritedMethods)).length = max ms.length (i + 1) := by
      rw [List.length_append] at hlt ⊢
      by_cases hin : m.name.text ∈ s.inheritedMethods
      · simp [hin] at hlt ⊢
        omega
      · have hlast : (ms ++ [m.name.text].filter (· ∉ s.inheritedMethods))[ms.length]? =
            some m.name.text := by simp [hin]
        have := h'.built.laid.method_inj hi hlast
        simp [hin]
        omega
    have hle : i ≤ table.length := by
      have := List.length_filter_le (· ∉ s.inheritedMethods) [m.name.text]
      rw [List.length_append] at hlt
      rw [List.length_singleton] at this
      omega
    rw [FunDecl.genAll, Tables.declaration_eq he, pure_bind]
    refine .bind ((keeps_freshFunction st).mono fun entry st₁ h₁ => .bind ?_)
    refine (FunDecl.Checked.keeps_gen ht m hm entry st₁).mono fun _ st₂ h₂ => ?_
    obtain ⟨table', hplace, htable⟩ := exists_placeMethod? hle entry
    rw [hplace, orFail_some, pure_bind]
    refine (ih h' (by rw [htable, hlen', hlen]) st₂).mono fun table'' st₃ h₃ => ?_
    exact ⟨h₃.1.trans (h₂.trans h₁), h₃.2⟩

/-- The classes up to a position have dispatch tables, each with a label for every method. -/
def GenState.Dispatches (t : Tables) (n : Nat) (st : GenState) : Prop :=
  ∀ c < n, ∃ table l, st.dispatch[c]? = some table ∧ t.classes.layout? c = some l ∧
    table.length = l.methods.length

/-- What keeps the dispatch tables keeps everything that is said of them. -/
theorem Gen.Keeps.dispatches {α : Type} {x : Gen α} (h : Keeps x) {n : Nat} {st : GenState}
    (hst : st.Dispatches t n) : Yields x st fun _ st' => st'.Dispatches t n := by
  refine (h st).mono fun _ st' hst' => ?_
  intro c hc
  rw [hst']
  exact hst c hc

/-- A class starts with the dispatch table of its superclass, which is there. -/
theorem ClassDecl.Checked.inheritedDispatch (ht : t.classes.Lineal) {env' : Env} {c : ClassDecl}
    {s : ClassSite} {final : Class} (h : c.Checked t env env' s final) {st : GenState}
    (hst : st.Dispatches t s.old.length) (name : Name) (span : Span) :
    Yields (t.inheritedDispatch s.old.length name span) st fun table st' =>
      st' = st ∧ table.length = s.inheritedMethods.length := by
  have hl : t.classes.layout? s.old.length = some final.layout := by
    rw [ClassTable.layout?, h.class?]
    rfl
  have hsup : final.layout.superclass = s.start.layout.superclass :=
    (ClassLayout.head_eq_iff.1 (h.head ht)).2.2.1
  have hsuper := h.super
  generalize c.superclass = sup at hsuper
  rw [Tables.inheritedDispatch, hl, Option.bind_some, hsup]
  cases hsuper with
  | root hs hf hm =>
    rw [hs, hm]
    exact .pure ⟨rfl, rfl⟩
  | @sub sup e p parent he hp hlt hc hlaid hs =>
    have hlp : t.classes.layout? p = some parent.layout := by
      rw [ClassTable.layout?, hc]
      rfl
    -- The superclass was declared before, so its table has been generated.
    obtain ⟨table, l, htable, hl', hlen⟩ := hst p hlt
    cases hlp.symm.trans hl'
    have hnew : s.start.layout.superclass = some p := by
      rw [hs, ← ht.id_eq hlp]
      rfl
    rw [hnew]
    refine .bind ⟨some table, st, ?_, table, st, rfl, rfl, by rw [hlen, hlaid.length_methods]⟩
    change Except.ok (st.dispatch[p]?, st) = _
    rw [htable]

/-- A declaration of the outermost block keeps dispatch tables complete. -/
theorem Decl.Checked.yields_gen (ht : t.classes.Lineal) {d : Decl} (h : d.Checked t env)
    {st : GenState} (hst : st.Dispatches t env.classes.classes.length) :
    Yields (d.gen t mem) st fun _ st' =>
      st'.Dispatches t (d.bind env).1.classes.classes.length := by
  cases d with
  | var id name type init span =>
    obtain ⟨hinit, -, -, hsame⟩ := h.var
    rw [hsame]
    exact (hinit.keeps_gen h.fits).dispatches hst
  | func f =>
    obtain ⟨-, hsame, hf⟩ := h.func
    rw [hsame, Decl.gen]
    exact (keeps_freshFunction.bind fun entry =>
      (hf.keeps_gen ht f entry).bind fun _ => .pure _).dispatches hst
  | cls c =>
    obtain ⟨s, final, hc⟩ := h.cls ht
    obtain ⟨id, name, superclass, fields, methods, span⟩ := c
    obtain ⟨b, cur, hm, -, -⟩ := hc.members
    have hafter : ((Decl.cls ⟨id, name, superclass, fields, methods, span⟩).bind env).1.classes.classes.length =
        s.old.length + 1 := by
      rw [hc.after]
      simp
    rw [hafter, Decl.gen, Tables.declaration_eq hc.declares.entry, pure_bind]
    change Yields (pure s.old.length >>= _) st _
    rw [pure_bind]
    rw [← hc.old] at hst
    refine .bind ((hc.inheritedDispatch ht hst name span).mono fun table st₁ h₁ => .bind ?_)
    obtain ⟨rfl, hlen⟩ := h₁
    refine (hm.yields_genAll ht methods hlen st₁).mono fun table' st₂ h₂ => ?_
    refine .bind ⟨(), _, rfl, .pure ?_⟩
    intro c hlt
    change ∃ table l, (st₂.dispatch.insert s.old.length table')[c]? = some table ∧ _
    rw [Std.TreeMap.getElem?_insert, h₂.1]
    by_cases heq : s.old.length = c
    · refine ⟨table', final.layout, by simp [heq], ?_, h₂.2⟩
      rw [← heq, ClassTable.layout?, hc.class?]
      rfl
    · obtain ⟨table'', l, h₃, h₄, h₅⟩ := hst c (by omega)
      exact ⟨table'', l, by simpa [heq] using h₃, h₄, h₅⟩

/-- The outermost block, by induction on it. Each class adds its dispatch table before the classes that may
extend it. -/
theorem Decl.CheckedAll.yields_genAll (ht : t.classes.Lineal) (ds : List Decl) :
    ∀ {env : Env} {st : GenState}, Decl.CheckedAll t env ds →
      st.Dispatches t env.classes.classes.length →
      Yields (Decl.genAll t mem ds) st fun _ _ => True := by
  induction ds with
  | nil => exact fun _ _ => .pure trivial
  | cons d ds ih =>
    intro env st h hst
    obtain ⟨hd, hds⟩ := h.cons ht
    refine .bind ((hd.yields_gen ht hst).mono fun _ st' hst' => .bind ?_)
    exact (ih hds hst').mono fun _ _ _ => .pure trivial

/-! ## Programs -/

/-- For a clean program there is a unit. -/
theorem Program.Checked.exists_generate {p : Program} (h : p.Checked t) (mem : Int) :
    ∃ u, p.generate t mem = .ok u := by
  have hdecls : Yields (Decl.genAll t mem p.decls) {} fun _ _ => True :=
    h.decls.yields_genAll h.lineal p.decls fun c hc => absurd hc (Nat.not_lt_zero c)
  have hgen : Yields (p.gen t mem) {} fun _ _ => True := by
    refine .bind (hdecls.mono fun _ st _ => .bind ?_)
    exact (h.body.keeps_gen h.fits st).mono fun _ _ _ => .pure trivial
  obtain ⟨main, state, hrun, -⟩ := hgen
  exact ⟨_, by rw [Program.generate, hrun]; rfl⟩

/-- What a program that is analyzed with type checking has. -/
theorem Program.analyze_eq_ok {p : Program} {o : Options} (ho : o.checkTypes = true) {a : Analysis}
    (h : p.analyze o = .ok a) :
    p.bind.errors = [] ∧ p.typeErrors p.bind.tables = [] ∧
      a = ⟨p.bind.tables, p.type? p.bind.tables⟩ := by
  unfold analyze at h
  dsimp only at h
  split at h
  · cases h
  next hclean =>
  split at h
  · next hno => simp [ho] at hno
  split at h
  · cases h
  next htype =>
  cases h
  exact ⟨by simpa [Bindings.isClean] using hclean, by simpa using htype, rfl⟩

/-- If the node ids of a program are distinct, code can be generated for it whenever binding and checking
report no error, so a compilation that checks types fails with semantic errors only. -/
theorem Program.generate_total {p : Program} (hid : p.ids.Nodup) :
    (p.bind.errors = [] → p.typeErrors p.bind.tables = [] →
      ∀ mem, ∃ u, p.generate p.bind.tables mem = .ok u) ∧
    ∀ o e, o.checkTypes = true → p.compile o = .error e → ∃ es, e = .semantic es := by
  have hgen : p.bind.errors = [] → p.typeErrors p.bind.tables = [] →
      ∀ mem, ∃ u, p.generate p.bind.tables mem = .ok u :=
    fun hbind htype mem => (Program.checked hid hbind htype).exists_generate mem
  refine ⟨hgen, fun o e ho he => ?_⟩
  rw [compile] at he
  cases hana : p.analyze o with
  | error es =>
    rw [hana] at he
    cases he
    exact ⟨es, rfl⟩
  | ok a =>
    obtain ⟨hbind, htype, rfl⟩ := analyze_eq_ok ho hana
    obtain ⟨u, hu⟩ := hgen hbind htype o.memorySize
    simp only [hana, Except.mapError, hu, Bind.bind, Except.bind] at he
    cases he

theorem Program.generate_total_overriding :
    overriding.ids.Nodup ∧ (∃ u, overriding.generate overriding.bind.tables 10000 = .ok u) ∧
      ∀ e, overriding.compile {} = .error e → ∃ es, e = .semantic es := by
  have hid : overriding.ids.Nodup := by decide +kernel
  have hbind : overriding.bind.errors = [] := List.isEmpty_iff.1 (by decide +kernel)
  have htype : overriding.typeErrors overriding.bind.tables = [] :=
    List.isEmpty_iff.1 (by decide +kernel)
  have h := generate_total hid
  exact ⟨hid, h.1 hbind htype 10000, fun e => h.2 {} e rfl⟩

end ObjLet
