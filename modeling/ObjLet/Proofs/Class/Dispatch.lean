import ObjLet.Proofs.Class.Inherit
import ObjLet.Proofs.Class.Slots
import ObjLet.Proofs.Simulation.Decl
import ObjLet.Proofs.Simulation.Store

/-!
# Dispatch tables

The dispatch table of a class of a clean program has a slot for each of its methods, and in the slot the label
of the method in the nearest class of the lineage that declares one with it (`Program.dispatch_nearest`).
What holds of the tables so far is kept by each declaration (`Decl.Checked.serves`): the table of a class
starts from that of its superclass, and the methods of the class take their slots in it.
-/

namespace ObjLet

open Gen

variable {t : Tables} {mem : Int} {p : Program} {env env' : Env}

/-! ## The nearest method -/

/-- The class of the outermost block that is recorded with an id. -/
def Program.classDecl? (p : Program) (t : Tables) (id : ClassId) : Option ClassDecl :=
  p.classes.find? fun c => (t.resolutions.declaration? c.id).bind (·.declaredClass?) = some id

/-- The method with a slot in the nearest class of a lineage that declares one. -/
def Program.nearestMethod? (p : Program) (t : Tables) (l : ClassLayout) (slot : Nat) : Option FunDecl :=
  l.lineage.findSome? fun id => (p.classDecl? t id).bind (·.methodAt? t slot)

section

variable {l lp : ClassLayout} {c : ClassDecl} {slot : Nat}

/-- The class itself comes first in its lineage. -/
theorem Program.nearestMethod?_of_self {m : FunDecl} (hc : p.classDecl? t l.id = some c)
    (hm : c.methodAt? t slot = some m) : p.nearestMethod? t l slot = some m := by
  rw [nearestMethod?, ClassLayout.lineage, List.findSome?_cons, hc, Option.bind_some, hm]

/-- A slot that a class does not take itself is that of its superclass. -/
theorem Program.nearestMethod?_of_parent (hc : p.classDecl? t l.id = some c) (hm : c.methodAt? t slot = none)
    (hl : l.ancestors = lp.lineage) : p.nearestMethod? t l slot = p.nearestMethod? t lp slot := by
  rw [nearestMethod?, ClassLayout.lineage, List.findSome?_cons, hc, Option.bind_some, hm, hl]
  rfl

end

/-- A dispatch table has a slot for each method of a class, with the label of the nearest method in it. -/
structure Program.Serves (p : Program) (t : Tables) (l : ClassLayout) (table : List Label) : Prop where
  length : table.length = l.methods.length
  slot : ∀ i < table.length, ∃ k m, table[i]? = some ⟨.function, k⟩ ∧ p.functions[k]? = some m ∧
    p.nearestMethod? t l i = some m

/-- What holds after some of the declarations of a program, `n` classes among them. -/
structure GenState.Serves (p : Program) (t : Tables) (done : List Decl) (n : Nat) (st : GenState) : Prop where
  known : st.Known
  count : st.emitter.labels.functions = (Decl.functionsAll done).length
  below : st.DispatchesBelow n
  tables : ∀ id < n, ∃ table l, st.dispatch[id]? = some table ∧ t.classes.layout? id = some l ∧ p.Serves t l table
  recorded : ∀ c, .cls c ∈ done → ∃ id < n, (t.resolutions.declaration? c.id).bind (·.declaredClass?) = some id

/-- There is a dispatch table for every class so far. -/
theorem GenState.Serves.dispatches {done : List Decl} {n : Nat} {st : GenState} (h : st.Serves p t done n) :
    st.Dispatches t n := by
  intro id hid
  obtain ⟨table, l, htable, hl, hserves⟩ := h.tables id hid
  exact ⟨table, l, htable, hl, hserves.length⟩

theorem Decl.functionsAll_append (ds ds' : List Decl) :
    functionsAll (ds ++ ds') = functionsAll ds ++ functionsAll ds' := by
  rw [functionsAll_eq, functionsAll_eq, functionsAll_eq, List.flatMap_append]

theorem FunDecl.functionsAll_append (ms ms' : List FunDecl) :
    functionsAll (ms ++ ms') = functionsAll ms ++ functionsAll ms' := by
  rw [functionsAll_eq, functionsAll_eq, functionsAll_eq, List.flatMap_append]

/-- A method of a class has its place among all functions behind those of earlier declarations and methods. -/
theorem Program.functions_getElem?_method {done post : List Decl} {c : ClassDecl} {pre rest : List FunDecl}
    {m : FunDecl} (hp : p.decls = done ++ .cls c :: post) (hm : c.methods = pre ++ m :: rest) :
    p.functions[(Decl.functionsAll done).length + (FunDecl.functionsAll pre).length]? = some m := by
  obtain ⟨id, name, superclass, fields, methods, span⟩ := c
  obtain rfl : methods = pre ++ m :: rest := hm
  rw [functions, hp, Decl.functionsAll_append, Decl.functionsAll, Decl.functions,
    FunDecl.functionsAll_append, FunDecl.functionsAll, FunDecl.functions_eq,
    List.getElem?_append_right (Nat.le_add_right _ _), Nat.add_sub_cancel_left]
  simp

/-- The class that is recorded with the next id. -/
theorem GenState.Serves.classDecl? {done post : List Decl} {n : Nat} {st : GenState} {c : ClassDecl}
    (h : st.Serves p t done n) (hp : p.decls = done ++ .cls c :: post)
    (hc : (t.resolutions.declaration? c.id).bind (·.declaredClass?) = some n) : p.classDecl? t n = some c := by
  have hclasses : p.classes =
      Program.classes ⟨done, p.body, p.span⟩ ++ c :: Program.classes ⟨post, p.body, p.span⟩ := by
    rw [Program.classes, hp, List.filterMap_append]
    rfl
  rw [Program.classDecl?, hclasses, List.find?_append, List.find?_eq_none.2, Option.none_or]
  · simp [hc]
  · intro c' hc'
    obtain ⟨d, hd, heq⟩ := List.mem_filterMap.1 hc'
    cases d with
    | cls c'' =>
      cases heq
      obtain ⟨id, hlt, hid⟩ := h.recorded c' hd
      simp only [hid, Option.some.injEq, decide_eq_true_eq]
      exact Nat.ne_of_lt hlt
    | _ => cases heq

/-! ## Classes -/

/-- The dispatch table of a class leads to the nearest methods if those of the classes before it do. -/
theorem ClassDecl.Checked.serves (ht : t.classes.Lineal) {c : ClassDecl} {s : ClassSite} {final : Class}
    (hc : c.Checked t env env' s final) {done post : List Decl} (hp : p.decls = done ++ .cls c :: post)
    {st st' : GenState} (hst : st.Serves p t done s.old.length) {code : Code}
    (hrun : ((Decl.cls c).gen t mem).run st = .ok (code, st')) :
    ∃ table, st'.dispatch[s.old.length]? = some table ∧ code = Code.dispatchTable table ∧
      p.Serves t final.layout table ∧
      ∀ parent, final.layout.superclass = some parent → ∃ inherited, st.dispatch[parent]? = some inherited ∧
        ∀ i, c.methodAt? t i = none → table[i]? = inherited[i]? := by
  have hl : t.classes.layout? s.old.length = some final.layout := by
    rw [ClassTable.layout?, hc.class?]
    rfl
  have hdecl := hc.declares.entry
  have hself : p.classDecl? t final.layout.id = some c := by
    rw [ht.id_eq hl]
    exact hst.classDecl? hp (by rw [hdecl]; rfl)
  have hat {m : FunDecl} {i : Nat} : m ∈ c.methods → t.slot? m = some (i : Int) → c.methodAt? t i = some m :=
    hc.methodAt?_eq_some ht
  obtain ⟨b, cur, hbody, -, -⟩ := hc.members
  have hinherits := fun name span => hc.inheritedDispatch ht hst.dispatches name span
  obtain ⟨id, name, superclass, fields, methods, span⟩ := c
  rw [Decl.gen, Tables.declaration_eq hdecl, pure_bind] at hrun
  change (pure s.old.length >>= _ : Gen Code).run st = _ at hrun
  rw [pure_bind] at hrun
  obtain ⟨inherited, s₁, h₁, hrun⟩ := bind_eq_ok.1 hrun
  obtain ⟨table, s₂, h₂, hrun⟩ := bind_eq_ok.1 hrun
  cases hrun
  obtain ⟨-, hinherited⟩ := (hinherits name span).of_run h₁
  obtain ⟨rfl, hsup⟩ := Tables.inheritedDispatch_eq_ok hl h₁
  obtain ⟨-, hlength⟩ := (hbody.yields_genAll ht methods hinherited s₁).of_run h₂
  -- A slot belongs to a method that the class declares itself, or is copied from the table of the superclass.
  have hslot := fun i => FunDecl.ensures_genAll_slot i methods hst.known table s₂ h₂
  refine ⟨table, ?_, rfl, ⟨hlength, fun i hi => ?_⟩, fun parent hparent => ?_⟩
  · change (s₂.dispatch.insert s.old.length table)[s.old.length]? = _
    simp
  · obtain ⟨pre, m, rest, hms, hm, hlabel⟩ | ⟨hno, hkeep⟩ := hslot i
    · refine ⟨_, m, hlabel, ?_, ?_⟩
      · rw [hst.count]
        exact Program.functions_getElem?_method hp hms
      · exact Program.nearestMethod?_of_self hself (hat (hms ▸ List.mem_append_right _ List.mem_cons_self) hm)
    · have hnone : ClassDecl.methodAt? t ⟨id, name, superclass, fields, methods, span⟩ i = none :=
        List.find?_eq_none.2 (by simpa using hno)
      have hlt : i < inherited.length :=
        (List.getElem?_eq_some_iff.1 (hkeep.symm.trans (List.getElem?_eq_getElem hi))).1
      -- A class without a superclass starts with an empty table, so nothing is copied.
      obtain ⟨-, rfl⟩ | ⟨parent, hparent, htable⟩ := hsup
      · cases hlt
      obtain ⟨table', lp, htable', hlp, hserves⟩ := hst.tables parent (hc.parent_lt ht hparent)
      cases htable.symm.trans htable'
      obtain ⟨k, m, hlabel, hk, hm⟩ := hserves.slot i hlt
      obtain ⟨-, lp', hlp', hancestors⟩ := ht.parent hl hparent
      cases hlp.symm.trans hlp'
      refine ⟨k, m, hkeep.trans hlabel, hk, ?_⟩
      rw [Program.nearestMethod?_of_parent hself hnone hancestors]
      exact hm
  · obtain ⟨hroot, -⟩ | ⟨parent', hparent', htable⟩ := hsup
    · rw [hroot] at hparent
      cases hparent
    cases hparent.symm.trans hparent'
    refine ⟨inherited, htable, fun i hnone => ?_⟩
    obtain ⟨pre, m, rest, hms, hm, -⟩ | ⟨-, hkeep⟩ := hslot i
    · rw [hat (hms ▸ List.mem_append_right _ List.mem_cons_self) hm] at hnone
      cases hnone
    · exact hkeep

/-- A declaration keeps what holds of dispatch tables. -/
theorem Decl.Checked.serves (ht : t.classes.Lineal) {d : Decl} (hd : d.Checked t env) {done post : List Decl}
    (hp : p.decls = done ++ d :: post) {st st' : GenState}
    (hst : st.Serves p t done env.classes.classes.length) {code : Code}
    (hrun : (d.gen t mem).run st = .ok (code, st')) :
    st'.Serves p t (done ++ [d]) (d.bind env).1.classes.classes.length := by
  obtain ⟨hbelow, hkeep, -⟩ := hd.coded ht hst.below hrun
  obtain ⟨-, blocks, he⟩ := Decl.emits_gen d st hst.known code st' hrun
  have hcount : st'.emitter.labels.functions = (functionsAll (done ++ [d])).length := by
    rw [he.functionCount, hst.count, functionsAll_append, List.length_append, functionsAll, functionsAll,
      List.append_nil]
  have hold : ∀ id < env.classes.classes.length, ∃ table l, st'.dispatch[id]? = some table ∧
      t.classes.layout? id = some l ∧ p.Serves t l table := fun id hid => by
    obtain ⟨table, l, htable, hl, hserves⟩ := hst.tables id hid
    exact ⟨table, l, hkeep id table htable, hl, hserves⟩
  refine ⟨(he.known hst.known).1, hcount, hbelow, fun id hid => ?_, fun c hc => ?_⟩
  · -- Only a class adds a table; the others stay as they are.
    cases d with
    | var id' name type init span => exact hold id (hd.var.2.2.2 ▸ hid)
    | func f => exact hold id (hd.func.2.1 ▸ hid)
    | cls c =>
      obtain ⟨s, final, hc⟩ := hd.cls ht
      rw [hc.after] at hid
      obtain ⟨table, htable, -, hserves, -⟩ := hc.serves ht hp (hc.old ▸ hst) hrun
      rcases Nat.lt_or_ge id env.classes.classes.length with hlt | hge
      · exact hold id hlt
      · have heq : id = s.old.length := by
          rw [hc.old] at hid ⊢
          simp at hid
          omega
        subst heq
        refine ⟨table, final.layout, htable, ?_, hserves⟩
        rw [ClassTable.layout?, hc.class?]
        rfl
  · rcases List.mem_append.1 hc with hc | hc
    · obtain ⟨id, hlt, hid⟩ := hst.recorded c hc
      have hdepth := Nat.pos_iff_ne_zero.1 hd.fits.depth_pos
      exact ⟨id, Nat.lt_of_lt_of_le hlt (Decl.classes_prefix_bind hdepth hd.recorded).length_le, hid⟩
    · cases List.mem_singleton.1 hc
      obtain ⟨s, final, hcls⟩ := hd.cls ht
      refine ⟨s.old.length, ?_, ?_⟩
      · rw [hcls.after]
        simp
      · rw [hcls.declares.entry]
        rfl

/-! ## Up to a declaration -/

/-- The code of some declarations and of those behind them. -/
theorem Decl.genAll_append (ds ds' : List Decl) :
    Decl.genAll t mem (ds ++ ds') =
      (do return (← Decl.genAll t mem ds) ++ (← Decl.genAll t mem ds')) := by
  induction ds with
  | nil => simp [Decl.genAll]
  | cons d ds ih => simp only [List.cons_append, genAll, ih, bind_assoc, pure_bind, List.append_assoc]

/-- A declaration takes the words of its entry in the frame. -/
theorem Decl.Checked.nextLocal (ht : t.classes.Lineal) {d : Decl} (h : d.Checked t env) :
    ∃ e, t.resolutions.declaration? d.id = some e ∧ (d.bind env).1.nextLocal = env.nextLocal - e.ty.words := by
  cases d with
  | var id name type init span => exact ⟨_, h.var.2.2.1.entry, h.var.2.2.1.nextLocal⟩
  | func f => exact ⟨_, h.func.1.entry, h.func.1.nextLocal⟩
  | cls c =>
    obtain ⟨s, final, hc⟩ := h.cls ht
    refine ⟨_, hc.declares.entry, ?_⟩
    rw [hc.after]
    exact hc.declares.nextLocal

/-- The declarations before one are clean, and so is that one, in the environment that they leave. -/
theorem Decl.CheckedAll.split (ht : t.classes.Lineal) (pre : List Decl) {d : Decl} {post : List Decl} :
    ∀ {env : Env}, Decl.CheckedAll t env (pre ++ d :: post) →
      d.Checked t (Decl.bindAll env pre).1 ∧
        (Decl.bindAll env pre).1.nextLocal = env.nextLocal - t.frameWords pre := by
  induction pre with
  | nil =>
    intro env h
    exact ⟨(h.cons ht).1, by simp [Decl.bindAll, Tables.frameWords]⟩
  | cons d' pre ih =>
    intro env h
    obtain ⟨hd', hrest⟩ := h.cons ht
    obtain ⟨hd, hnext⟩ := ih hrest
    obtain ⟨e, he, hlocal⟩ := hd'.nextLocal ht
    refine ⟨hd, ?_⟩
    rw [Tables.frameWords_cons he]
    change (Decl.bindAll (d'.bind env).1 pre).1.nextLocal = _
    rw [hnext, hlocal]
    omega

/-- Declarations leave no scope open. -/
theorem Decl.depth_bindAll (ds : List Decl) : ∀ env : Env, (bindAll env ds).1.scopes.depth = env.scopes.depth := by
  induction ds with
  | nil => exact fun _ => rfl
  | cons d ds ih => exact fun env => (ih _).trans (Decl.depth_bind ..)

theorem Decl.typeErrorsAll_append (ds es : List Decl) :
    typeErrorsAll t (ds ++ es) = typeErrorsAll t ds ++ typeErrorsAll t es := by
  induction ds with
  | nil => rfl
  | cons d ds ih => rw [List.cons_append, typeErrorsAll, typeErrorsAll, ih, List.append_assoc]

/-- The first of clean declarations are clean by themselves. -/
theorem Decl.CheckedAll.left {ds es : List Decl} (h : Decl.CheckedAll t env (ds ++ es)) :
    Decl.CheckedAll t env ds := by
  have hr := h.recorded
  have hclean := h.clean
  rw [Decl.bindAll_append, Findings.recorded_append] at hr
  rw [Decl.typeErrorsAll_append, List.append_eq_nil_iff] at hclean
  refine ⟨h.fits, hr.1, hclean.1, fun hl => ?_, h.top⟩
  have hknown := h.known hl
  rw [Decl.bindAll_append] at hknown
  refine (Decl.classes_prefix_bindAll es ?_ hr.2).trans hknown
  rw [Decl.depth_bindAll]
  exact Nat.pos_iff_ne_zero.1 h.fits.depth_pos

/-- Generating declarations in order keeps that dispatch tables lead to the nearest methods. -/
theorem Decl.CheckedAll.serves (ht : t.classes.Lineal) (pre : List Decl) {post : List Decl} :
    ∀ {env : Env} {done : List Decl} {st st' : GenState} {code : Code},
      Decl.CheckedAll t env (pre ++ post) → p.decls = done ++ (pre ++ post) →
      st.Serves p t done env.classes.classes.length →
      (Decl.genAll t mem pre).run st = .ok (code, st') →
      st'.Serves p t (done ++ pre) (Decl.bindAll env pre).1.classes.classes.length := by
  induction pre with
  | nil =>
    intro env done st st' code _ _ hst hrun
    cases hrun
    rwa [List.append_nil]
  | cons d pre ih =>
    intro env done st st' code h hp hst hrun
    obtain ⟨hd, hrest⟩ := h.cons ht
    rw [Decl.genAll] at hrun
    obtain ⟨c₁, s₁, h₁, hrun₁⟩ := bind_eq_ok.1 hrun
    obtain ⟨c₂, s₂, h₂, hrun₂⟩ := bind_eq_ok.1 hrun₁
    cases hrun₂
    have hall := ih hrest (by simpa using hp) (hd.serves ht hp hst h₁) h₂
    rwa [List.append_assoc] at hall

/-! ## Programs -/

/-- Code at an address writes the addresses of labels to consecutive words on top of the heap, in order, and the
address of the first of these words to the frame, at an offset that is the next free word of the stack.
Nothing else is changed but free memory, of which there must be three words more. -/
def CodeUnit.BuildsTable (u : CodeUnit) (ip : Nat) (code : Code) (table : List Label) (offset : Int) : Prop :=
  ∃ addresses : List Nat, List.Forall₂ (fun l a => u.address? l = some a) table addresses ∧
    ∀ (T : Target) (m : Machine), m.ip = ip → m.sp = m.fp + offset + 1 → 0 ≤ m.hp →
      m.hp + table.length + 3 ≤ m.sp → m.sp ≤ T.memory →
      ∃ m', T.run u code.length m = .ok m' ∧ m'.ip = ip + code.length ∧
        m'.sp = m.fp + offset ∧ m'.mem (m.fp + offset) = m.hp ∧
        m'.hp = m.hp + table.length ∧
        (∀ (i a : Nat), addresses[i]? = some a → m'.mem (m.hp + i) = a) ∧
        (∀ b, b < m.hp ∨ m.sp ≤ b → m'.mem b = m.mem b) ∧
        m'.fp = m.fp ∧ m'.ra = m.ra ∧ m'.tm = m.tm ∧ m'.out = m.out

theorem CodeUnit.exists_addresses {u : CodeUnit} {ls : List Label} (h : ∀ l ∈ ls, .place l ∈ u.code) :
    ∃ addresses : List Nat, List.Forall₂ (fun l a => u.address? l = some a) ls addresses := by
  induction ls with
  | nil => exact ⟨[], .nil⟩
  | cons l ls ih =>
    obtain ⟨hl, hls⟩ := List.forall_mem_cons.1 h
    obtain ⟨a, ha⟩ := CodeUnit.exists_address hl
    obtain ⟨addresses, haddresses⟩ := ih hls
    exact ⟨a :: addresses, .cons ha haddresses⟩

/-- The code of a dispatch table, run where the unit holds it, writes the table to the heap. -/
theorem CodeUnit.Holds.buildsTable {u : CodeUnit} {ip : Nat} {table : List Label}
    (h : u.Holds ip (Code.dispatchTable table)) (hl : ∀ l ∈ table, .place l ∈ u.code) (offset : Int) :
    u.BuildsTable ip (Code.dispatchTable table) table offset := by
  obtain ⟨addresses, haddresses⟩ := CodeUnit.exists_addresses hl
  refine ⟨addresses, haddresses, fun T m hip hsp h0 hroom hle => ?_⟩
  subst hip
  obtain ⟨m', hrun, hip, hstores⟩ := h.run_dispatchTable haddresses h0 hroom hle
  have hlen := haddresses.length_eq
  have hnext : m.sp - 1 = m.fp + offset := by omega
  refine ⟨m', hrun, hip, hstores.sp.trans hnext, ?_, ?_, fun i a ha => ?_, fun b hb => ?_, hstores.fp, hstores.ra,
    hstores.tm, hstores.out⟩
  · rw [← hnext, hstores.rest (b := m.sp - 1) (.inr (Int.le_refl _))]
    exact if_pos rfl
  · rw [hstores.hp, List.length_map, hlen]
    rfl
  · exact hstores.word (by rw [List.getElem?_map, ha]; rfl)
  · rw [hstores.rest (hb.imp_right fun hb => show m.sp - 1 ≤ b by omega)]
    exact if_neg (by omega)

/-- Before the first declaration there are no classes and no tables. -/
theorem GenState.serves_initial (p : Program) (t : Tables) : GenState.Serves p t [] 0 {} := by
  refine ⟨known_initial, rfl, fun c table hc => ?_, fun id hid => absurd hid (Nat.not_lt_zero id), nofun⟩
  simp at hc

/-- The code before a declaration of a clean program leaves a word and the words of the declarations in the
frame. -/
theorem Decl.CheckedAll.acts_before (ht : t.classes.Lineal) {pre : List Decl} (h : Decl.CheckedAll t .initial pre)
    {before : Code} {s : GenState} (hrun : (Decl.genAll t mem pre).run {} = .ok (before, s))
    {callees : List Signature} (hcallees : t.Callable callees (pre.flatMap (Decl.callees t))) :
    Code.Acts (.push 0 :: before) (callees.map Signature.callEffect) ⟨0, 1 + t.frameWords pre⟩ := by
  have hempty : GenState.DispatchesBelow 0 {} := by
    intro c table hc
    simp at hc
  obtain ⟨-, functions, ls, hls, rfl, he⟩ := h.coded ht pre hempty hrun
  have hleads := h.leads ht (hls (fun _ _ => True) (fun c => s.dispatch[c]?) (fun _ _ => trivial) fun _ _ h => h)
  have hall : Code.Leads (.push 0 :: ls.map (·.instruction)) _ 0 (1 + t.frameWords pre) :=
    Code.Leads.behind (c := [.push 0]) (a := 0) (b := 1) rfl (hleads.lift 1)
  rw [hcallees.map_callEffect]
  exact hall.acts (List.nodup_append.1 he.labels.nodup).1

/-- The block of a function puts its label. -/
theorem FunDecl.Becomes.place_mem {f : FunDecl} {entry : Label} {block : Code}
    (h : f.Becomes t mem entry block) : .place entry ∈ block := by
  obtain ⟨_, _, _, _, _, _, _, _, _, -, -, -, -, rfl⟩ := h
  exact List.mem_cons_self

/-- The code of a declaration stands in the unit behind that of the declarations before it. -/
theorem Program.exists_gen_decl {u : CodeUnit} (hu : p.generate t mem = .ok u) {pre post : List Decl} {d : Decl}
    (hp : p.decls = pre ++ d :: post) :
    ∃ before code after s s', (Decl.genAll t mem pre).run {} = .ok (before, s) ∧
      (d.gen t mem).run s = .ok (code, s') ∧ u.code = .push 0 :: before ++ code ++ after := by
  obtain ⟨ds, s₁, body, s₂, h₁, h₂, hcode⟩ := generate_eq_ok hu
  obtain ⟨-, blocks, he⟩ := Decl.emits_genAll p.decls _ GenState.known_initial ds s₁ h₁
  have hnocode : s₂.emitter.code = [] := (Expr.emits_gen p.body s₁ body s₂ h₂).emission.code.trans he.code
  rw [hp, Decl.genAll_append] at h₁
  obtain ⟨before, s, hbefore, h₁⟩ := bind_eq_ok.1 h₁
  obtain ⟨rest, s₀, hrest, h₁⟩ := bind_eq_ok.1 h₁
  cases h₁
  rw [Decl.genAll] at hrest
  obtain ⟨code, s', hrun, hrest⟩ := bind_eq_ok.1 hrest
  obtain ⟨others, s₃, hothers, hrest⟩ := bind_eq_ok.1 hrest
  cases hrest
  have hdecls : p.hasDecls = true := by simp [hasDecls, hp]
  refine ⟨before, code, others ++ body ++ [.halt] ++ s₂.emitter.functions, s, s', hbefore, hrun, ?_⟩
  rw [hcode, hnocode, hdecls]
  simp

/-- Binding and generation agree on dispatch tables. When the code of a class of a clean program has been generated,
its table has a slot for each method of its layout, with the label behind which the code of the nearest
method with that slot stands; slots that the class does not take itself are those of its superclass. The
code of the class puts the table on the heap and its address in the place of the class in the frame. -/
theorem Program.dispatch_nearest {p : Program} (hid : p.ids.Nodup) (hbind : p.bind.errors = [])
    (htype : p.typeErrors p.bind.tables = []) {mem : Int} {u : CodeUnit}
    (hu : p.generate p.bind.tables mem = .ok u) {pre post : List Decl} {c : ClassDecl}
    (hp : p.decls = pre ++ .cls c :: post) :
    ∃ (e : Entry) (id : ClassId) (layout : ClassLayout) (before code after : Code) (s s' : GenState)
      (table : List Label),
      p.bind.tables.resolutions.declaration? c.id = some e ∧ e.declaredClass? = some id ∧
      p.bind.tables.classes.layout? id = some layout ∧
      (Decl.genAll p.bind.tables mem pre).run {} = .ok (before, s) ∧
      ((Decl.cls c).gen p.bind.tables mem).run s = .ok (code, s') ∧ s'.dispatch[id]? = some table ∧
      table.length = layout.methods.length ∧
      (∀ i < table.length, ∃ k m front block back, table[i]? = some ⟨.function, k⟩ ∧
        p.functions[k]? = some m ∧ p.nearestMethod? p.bind.tables layout i = some m ∧
        u.code = front ++ block ++ back ∧ m.Becomes p.bind.tables mem ⟨.function, k⟩ block) ∧
      (∀ parent, layout.superclass = some parent → ∃ inherited, s'.dispatch[parent]? = some inherited ∧
        ∀ i, c.methodAt? p.bind.tables i = none → table[i]? = inherited[i]?) ∧
      u.code = .push 0 :: before ++ code ++ after ∧
      (e.level = 0 ∧ e.offset = -2 - (p.bind.tables.frameWords pre : Int)) ∧
      (∀ callees, p.bind.tables.Callable callees (pre.flatMap (Decl.callees p.bind.tables)) →
        Code.Acts (.push 0 :: before) (callees.map Signature.callEffect)
          ⟨0, 1 + p.bind.tables.frameWords pre⟩) ∧
      u.BuildsTable ((Instruction.push 0 :: before).countP (!·.isPlacement)) code table e.offset := by
  have h := checked hid hbind htype
  have ht := h.lineal
  have hdecls := h.decls
  rw [hp] at hdecls
  obtain ⟨before, code, after, s, s', hbefore, hrun, hsplit⟩ := exists_gen_decl hu hp
  -- What holds before the class, and of the class.
  obtain ⟨hd, hnext⟩ := hdecls.split ht pre
  have hserves := hdecls.serves ht pre hp (GenState.serves_initial p _) hbefore
  obtain ⟨-, hkeep, -⟩ := hd.coded ht hserves.below hrun
  obtain ⟨site, final, hc⟩ := hd.cls ht
  obtain ⟨table, htable, rfl, hslots, hinherit⟩ := hc.serves ht hp (hc.old ▸ hserves) hrun
  have hslot : ∀ i < table.length, ∃ k m front block back, table[i]? = some ⟨.function, k⟩ ∧
      p.functions[k]? = some m ∧ p.nearestMethod? p.bind.tables final.layout i = some m ∧
      u.code = front ++ block ++ back ∧ m.Becomes p.bind.tables mem ⟨.function, k⟩ block := fun i hi => by
    obtain ⟨k, m, hlabel, hk, hm⟩ := hslots.slot i hi
    obtain ⟨front, block, back, hblock, hbecomes⟩ := exists_block hu hk
    exact ⟨k, m, front, block, back, hlabel, hk, hm, hblock, hbecomes⟩
  have hplaced : ∀ l ∈ table, .place l ∈ u.code := fun l hl => by
    obtain ⟨i, hi⟩ := List.getElem?_of_mem hl
    obtain ⟨k, m, front, block, back, hlabel, -, -, hblock, hbecomes⟩ :=
      hslot i (List.getElem?_eq_some_iff.1 hi).1
    cases hi.symm.trans hlabel
    rw [hblock]
    exact List.mem_append_left _ (List.mem_append_right _ hbecomes.place_mem)
  refine ⟨_, _, final.layout, before, _, after, s, s', table, hc.declares.entry, rfl, ?_, hbefore, hrun, htable,
    hslots.length, hslot, fun parent hparent => ?_, hsplit, ⟨hc.level, ?_⟩,
    fun callees hcallees => hdecls.left.acts_before ht hbefore hcallees, ?_⟩
  · rw [ClassTable.layout?, hc.class?]
    rfl
  · obtain ⟨inherited, hinherited, hsame⟩ := hinherit parent hparent
    exact ⟨inherited, hkeep parent inherited hinherited, hsame⟩
  · exact hnext
  · refine (CodeUnit.Holds.of_code hsplit fun i hi => ?_).buildsTable hplaced _
    have hnone := List.filterMap_eq_nil_iff.1 (Code.placed_dispatchTable table) i hi
    rw [Instruction.isPlacement, hnone]
    rfl

theorem Program.dispatch_nearest_chain :
    ∃ (c : ClassDecl) (u : CodeUnit) (id : ClassId) (layout : ClassLayout) (table : List Label),
      chain.decls[2]? = some (.cls c) ∧ chain.generate chain.bind.tables 10000 = .ok u ∧
      chain.bind.tables.classes.layout? id = some layout ∧ table.length = layout.methods.length ∧
      ∀ i < table.length, ∃ k m, table[i]? = some ⟨.function, k⟩ ∧ chain.functions[k]? = some m ∧
        chain.nearestMethod? chain.bind.tables layout i = some m := by
  have hid : chain.ids.Nodup := by decide +kernel
  have hbind : chain.bind.errors = [] := List.isEmpty_iff.1 (by decide +kernel)
  have htype : chain.typeErrors chain.bind.tables = [] := List.isEmpty_iff.1 (by decide +kernel)
  obtain ⟨a, b, c, hc⟩ : ∃ a b c, chain.decls = [a, b] ++ .cls c :: [] := ⟨_, _, _, rfl⟩
  obtain ⟨u, hu⟩ := (checked hid hbind htype).exists_generate 10000
  obtain ⟨e, id, layout, before, code, after, s, s', table, -, -, hl, -, -, -, hlength, hslot, -⟩ :=
    dispatch_nearest hid hbind htype hu hc
  refine ⟨c, u, id, layout, table, by rw [hc]; rfl, hu, hl, hlength, fun i hi => ?_⟩
  obtain ⟨k, m, front, block, back, hlabel, hk, hm, -⟩ := hslot i hi
  exact ⟨k, m, hlabel, hk, hm⟩

end ObjLet
