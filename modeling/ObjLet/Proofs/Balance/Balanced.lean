import ObjLet.Proofs.Balance.Expr
import ObjLet.Proofs.Typing.Parts

/-!
# Stack balance

All code of a clean program keeps the stack in balance (`Program.stack_balanced`): that of an expression puts
the words of its type there, that of a declaration the words of its entry, and a function takes what its
caller has put there for it, behind the code address, and leaves its result.
-/

namespace ObjLet

open Gen

variable {t : Tables} {mem : Int} {p : Program}

/-! ## What balance is -/

/-- The code of an expression puts the words of its type on the stack. -/
def Expr.Balanced (t : Tables) (mem : Int) (e : Expr) : Prop :=
  ∃ ty, e.type? t = some ty ∧ ∀ s, Yields (e.gen t mem) s fun code _ =>
    ∀ callees, t.Callable callees (e.callees t) → code.Acts (callees.map Signature.callEffect) ⟨0, ty.words⟩

/-- What a declaration calls where it stands. -/
def Decl.callees (t : Tables) : Decl → List Signature
  | .var _ _ _ init _ => init.callees t
  | .func _ | .cls _ => []

/-- What a function calls. -/
def FunDecl.callees (t : Tables) (f : FunDecl) : List Signature :=
  f.decls.flatMap (Decl.callees t) ++ f.body.callees t

/-- The code of a declaration puts the words of its entry on the stack. -/
def Decl.Balanced (t : Tables) (mem : Int) (d : Decl) : Prop :=
  ∃ entry, t.resolutions.declaration? d.id = some entry ∧
    ∀ s code s', (d.gen t mem).run s = .ok (code, s') → ∀ callees, t.Callable callees (d.callees t) →
      code.Acts (callees.map Signature.callEffect) ⟨0, entry.ty.words⟩

/-- The code of a function, from its label to the jump that ends it, takes the access link, the arguments and
the control link from the stack and puts the result there. -/
def FunDecl.Balanced (t : Tables) (mem : Int) (f : FunDecl) : Prop :=
  ∃ (entry : Entry) (sig : Signature), t.resolutions.declaration? f.id = some entry ∧ entry.ty = sig.ty ∧
    ∀ label s, Yields (f.gen t mem label) s fun _ s' => ∃ inner code : Code,
      s'.emitter.functions = s.emitter.functions ++ inner ++ .place label :: (code ++ [.jump]) ∧
      ∀ callees, t.Callable callees (f.callees t) →
        Code.Acts (code ++ [.jump]) (callees.map Signature.callEffect ++ [Instruction.jump.effect])
          ⟨1 + sig.paramWords + 1, sig.ret.words⟩

/-! ## Expressions -/

/-- From heights to effects on paths: every path through the code of a clean expression leaves the words of its
type, with each call doing what its callee's signature says. -/
theorem Expr.Checked.acts {env : Env} (hf : env.Fits t) {e : Expr} (h : e.Checked t env) {ls : Listing}
    {ty : Ty} (hc : e.Coded t mem ls) (hty : e.type? t = some ty) (hl : ls.unit.labels.Nodup)
    {callees : List Signature} (hcallees : t.Callable callees (e.callees t)) :
    Code.Acts (ls.map (·.instruction)) (callees.map Signature.callEffect) ⟨0, ty.words⟩ := by
  rw [hcallees.map_callEffect]
  exact (h.leads hf hc hty).acts hl

/-- The code of a clean expression is balanced under any callees that may take the place of those it was checked
with. -/
theorem Expr.Checked.balanced {env : Env} (hf : env.Fits t) {e : Expr} (h : e.Checked t env) :
    e.Balanced t mem := by
  obtain ⟨ty, hty⟩ := h.exists_type hf
  refine ⟨ty, hty, fun s => (h.codes hf s).mono fun code s' hcode => ?_⟩
  obtain ⟨ls, hls, rfl, hemits⟩ := hcode
  exact fun callees hcallees => h.acts hf hls hty hemits.labels.nodup hcallees

/-! ## Declarations -/

/-- Code without branches is in balance whatever labels there are. -/
theorem Decl.gen_func {f : FunDecl} {s s' : GenState} {code : Code}
    (hrun : ((Decl.func f).gen t mem).run s = .ok (code, s')) :
    ∃ entry, code = [.load .fp, .pushLabel entry] := by
  rw [Decl.gen] at hrun
  obtain ⟨entry, s₁, -, hrun⟩ := bind_eq_ok.1 hrun
  obtain ⟨-, s₂, -, hrun⟩ := bind_eq_ok.1 hrun
  cases hrun
  exact ⟨entry, rfl⟩

/-- A class evaluates to the address of its dispatch table, whatever its methods are. -/
theorem Decl.gen_cls {c : ClassDecl} {s s' : GenState} {code : Code}
    (hrun : ((Decl.cls c).gen t mem).run s = .ok (code, s')) :
    ∃ table, code = Code.dispatchTable table := by
  obtain ⟨id, name, superclass, fields, methods, span⟩ := c
  rw [Decl.gen] at hrun
  obtain ⟨declared, s₁, -, hrun⟩ := bind_eq_ok.1 hrun
  obtain ⟨cls, s₂, -, hrun⟩ := bind_eq_ok.1 hrun
  obtain ⟨inherited, s₃, -, hrun⟩ := bind_eq_ok.1 hrun
  obtain ⟨table, s₄, -, hrun⟩ := bind_eq_ok.1 hrun
  obtain ⟨-, s₅, -, hrun⟩ := bind_eq_ok.1 hrun
  cases hrun
  exact ⟨table, rfl⟩

/-- A clean declaration puts the words of its slot on the stack. -/
theorem Decl.Checked.balanced (ht : t.classes.Lineal) {env : Env} {d : Decl} (h : d.Checked t env) :
    d.Balanced t mem := by
  cases d with
  | var id name type init span =>
    obtain ⟨hinit, hfit, hd, -⟩ := h.var
    obtain ⟨ty, hty⟩ := hinit.exists_type h.fits
    refine ⟨_, hd.entry, fun s code s' hrun callees hcallees => ?_⟩
    obtain ⟨ls, hls, rfl, hemits⟩ := (hinit.codes h.fits s).of_run hrun
    rw [← ClassTable.words_eq_of_isSubtype (hfit ty hty)]
    exact hinit.acts h.fits hls hty hemits.labels.nodup hcallees
  | func f =>
    refine ⟨_, h.func.1.entry, fun s code s' hrun callees hcallees => ?_⟩
    obtain ⟨entry, rfl⟩ := Decl.gen_func hrun
    cases hcallees
    have hleads : Code.Leads [.load .fp, .pushLabel entry] [] 0 2 := .of_heightBehind? rfl
    exact hleads.acts .nil
  | cls c =>
    obtain ⟨s, final, hc⟩ := h.cls ht
    refine ⟨_, hc.declares.entry, fun s code s' hrun callees hcallees => ?_⟩
    obtain ⟨table, rfl⟩ := Decl.gen_cls hrun
    cases hcallees
    refine (Code.leads_dispatchTable table).acts ?_
    rw [Code.placed_dispatchTable]
    exact .nil

/-! ## Functions -/

section Functions

variable {At : Label → Listing → Prop} {dispatch : ClassId → Option (List Label)}

/-- What stands in place of a declaration pushes the words of its entry: two for a function, one for a class,
those of its type for a variable. -/
theorem Decl.Checked.leads (ht : t.classes.Lineal) {env : Env} {d : Decl} (h : d.Checked t env)
    {ls : Listing} (hc : d.Coded t mem At dispatch ls) :
    ∃ entry, t.resolutions.declaration? d.id = some entry ∧
      Code.Leads (ls.map (·.instruction)) ((d.callees t).map Signature.callEffect) 0 entry.ty.words := by
  cases d with
  | var id name type init span =>
    obtain ⟨hinit, hfit, hd, -⟩ := h.var
    obtain ⟨ty, hty⟩ := hinit.exists_type h.fits
    cases hc with
    | var hls => exact ⟨_, hd.entry, (hinit.leads h.fits hls hty).fit (hfit ty hty)⟩
  | func f =>
    cases hc with
    | @func _ entry => exact ⟨_, h.func.1.entry, .of_heightBehind? (c := [.load .fp, .pushLabel entry]) rfl⟩
  | cls c =>
    obtain ⟨s, final, hcls⟩ := h.cls ht
    cases hc with
    | cls => exact ⟨_, hcls.declares.entry, by rw [Code.code_plain]; exact Code.leads_dispatchTable _⟩

/-- A block pushes the words that the epilogue pops again. -/
theorem Decl.CheckedAll.leads (ht : t.classes.Lineal) {ds : List Decl} :
    ∀ {env : Env} {ls : Listing}, Decl.CheckedAll t env ds → Decl.CodedAll t mem At dispatch ds ls →
      Code.Leads (ls.map (·.instruction)) ((ds.flatMap (Decl.callees t)).map Signature.callEffect) 0
        (t.frameWords ds) := by
  induction ds with
  | nil =>
    intro env ls _ hc
    cases hc
    exact .nil
  | cons d ds ih =>
    intro env ls h hc
    obtain ⟨hd, hds⟩ := h.cons ht
    cases hc with
    | cons hcd hcds =>
      obtain ⟨entry, hentry, hleads⟩ := hd.leads ht hcd
      have hall := hleads.seq (ih hds hcds) entry.ty.words rfl rfl
      simpa [Tables.frameWords, hentry] using hall

/-- The whole function, from its arguments and the link below them to its result. The last jump pops the return
address, so it is one more effect at the end. -/
theorem FunDecl.Checked.leads (ht : t.classes.Lineal) {env : Env} {sig : Signature} {f : FunDecl}
    (h : f.Checked t env sig) {ls : Listing} (hc : f.Coded t mem At dispatch ls) :
    Code.Leads (ls.map (·.instruction))
      ((f.callees t).map Signature.callEffect ++ [Instruction.jump.effect]) (sig.paramWords + 2)
      sig.ret.words := by
  obtain ⟨-, hdecls, hfits, hbody, hret⟩ := h.body ht
  obtain ⟨entry, hentry, hty⟩ := h.entry
  obtain ⟨ty, hbodyty⟩ := hbody.exists_type hfits
  cases hc with
  | mk he hsig hds hbs =>
    cases hentry.symm.trans he
    have hsame := congrArg Ty.signature? (hty.symm.trans hsig)
    rw [Ty.signature?_ty, Ty.signature?_ty, Option.some.injEq] at hsame
    subst hsame
    have hlocals := Code.Leads.behind (c := Code.prologue) (a := 0) (b := 1) rfl
      ((hdecls.leads ht hds).lift 1)
    have hresult := hlocals.seq ((hbody.leads hfits hbs hbodyty).fit (hret ty hbodyty))
      (1 + t.frameWords f.decls) rfl rfl
    have hall := (hresult.lift (sig.paramWords + 2)).seq
      (Code.leads_epilogue sig.paramWords (t.frameWords f.decls) sig.ret) 0 (by omega) (Nat.zero_add _).symm
    simpa [FunDecl.callees, Code.prologue, Signature.returnsFunction] using hall

/-- A function ends with a jump. -/
theorem Code.epilogue_concat (paramWords localWords : Nat) (returnsFunction : Bool) :
    ∃ c, epilogue paramWords localWords returnsFunction = c ++ [.jump] :=
  ⟨.store .tm :: (if returnsFunction then returnFrameWord paramWords else []) ++
    List.replicate localWords .pop ++ [.store .ra] ++
    List.replicate (if returnsFunction then paramWords else paramWords + 1) .pop ++
    [.store .fp, .load .tm, .load .ra], by simp [epilogue]⟩

/-- A clean function pops its arguments and its links and pushes the words of its result. -/
theorem FunDecl.Checked.balanced (ht : t.classes.Lineal) {env : Env} {sig : Signature} {f : FunDecl}
    (h : f.Checked t env sig) : f.Balanced t mem := by
  obtain ⟨entry, hentry, hty⟩ := h.entry
  refine ⟨entry, sig, hentry, hty, fun label s => ?_⟩
  refine (FunDecl.Checked.codes ht f h label s).mono fun _ s' hcodes => ?_
  obtain ⟨functions, ls, hls, hemits⟩ := hcodes
  have hcoded := hls (fun l code => (l, code) ∈ functions) (fun _ => none) fun _ hf => hf
  have hleads := h.leads ht hcoded
  have hnodup : ls.unit.labels.Nodup := hemits.labels.nodup.sublist (List.sublist_append_right _ _)
  obtain ⟨code, hcode⟩ : ∃ code, ls.map (·.instruction) = code ++ [.jump] := by
    cases hcoded with
    | @mk _ _ sig' ds bs =>
      obtain ⟨c, hc⟩ := Code.epilogue_concat sig'.paramWords (t.frameWords f.decls) sig'.returnsFunction
      exact ⟨Code.prologue ++ ds.map (·.instruction) ++ bs.map (·.instruction) ++ c, by
        simp [hc, Code.prologue]⟩
  refine ⟨(Listing.ofFunctions functions).unit.code, code, ?_, fun callees hcallees => ?_⟩
  · rw [hemits.functions, ← hcode]
    simp [Listing.unit, Listing.ofFunctions]
  · rw [hcallees.map_callEffect, ← hcode, show 1 + sig.paramWords + 1 = sig.paramWords + 2 by omega]
    exact hleads.acts hnodup

end Functions

/-- All code of a clean program keeps the stack in balance. -/
theorem Program.stack_balanced {p : Program} (hid : p.ids.Nodup) (hbind : p.bind.errors = [])
    (htype : p.typeErrors p.bind.tables = []) (mem : Int) :
    (∃ u, p.generate p.bind.tables mem = .ok u) ∧
      (∀ {scopes e}, p.Stands scopes e → e.Balanced p.bind.tables mem) ∧
      (∀ {b d}, p.HasBlock b → d ∈ b.decls → d.Balanced p.bind.tables mem) ∧
      ∀ {f}, p.HasFunction f → f.Balanced p.bind.tables mem := by
  have h := checked hid hbind htype
  refine ⟨h.exists_generate mem, fun hs => ?_, fun hb hd => ?_, fun hf => ?_⟩
  · obtain ⟨env, hfits, hclean⟩ := hs.checked h
    exact hclean.balanced hfits
  · obtain ⟨⟨env, hdecls⟩, -⟩ := hb.checked h
    obtain ⟨env', hclean⟩ := hdecls.exists_checked h.lineal hd
    exact hclean.balanced h.lineal
  · obtain ⟨env, sig, hclean⟩ := hf.checked h
    exact hclean.balanced h.lineal

/-- A function that returns a function, a class with a function in a field, and calls of both kinds. -/
def Program.delegates : Program := Program.built do
  let arrow := TypeExpr.arrow [.int] .int
  let run ← Build.function "run" [← Build.param "x" .int] .int [] (← Build.call "handle" [← Build.ident "x"])
  let twice ← Build.function "twice" [← Build.param "x" .int] .int []
    (← Build.call "run" [← Build.call "run" [← Build.ident "x"]])
  let a ← Build.cls "A" none [← Build.param "handle" arrow] [run, twice]
  let inc ← Build.function "inc" [← Build.param "x" .int] .int []
    (← Build.binary .add (← Build.ident "x") (← Build.literal (.int 1)))
  let pick ← Build.function "pick" [← Build.param "b" .bool] arrow [.func inc] (← Build.ident "inc")
  let f ← Build.var "f" arrow (← Build.call "pick" [← Build.literal (.bool true)])
  let object ← Build.var "object" (← Build.refType "A") (← Build.new "A" [← Build.ident "f"])
  Build.program [.cls a, .func pick, f, object] (← Build.cond
    (← Build.binary .lessEqual (← Build.methodCall "object" "twice" [← Build.literal (.int 1)])
      (← Build.call "f" [← Build.literal (.int 2)]))
    (← Build.methodCall "object" "run" [← Build.literal (.int 3)])
    (← Build.call "f" [← Build.literal (.int 4)]))

/-- The statement on a program where a field and a result are functions, one of them declared in the other, and methods
call the field and each other. -/
theorem Program.stack_balanced_delegates :
    ∃ (f : FunDecl) (c : ClassDecl), f.name.text = "pick" ∧ .func f ∈ delegates.decls ∧
      .cls c ∈ delegates.decls ∧ c.methods ≠ [] ∧
      delegates.body.Balanced delegates.bind.tables 10000 ∧ f.Balanced delegates.bind.tables 10000 ∧
      ∀ m ∈ c.methods, m.Balanced delegates.bind.tables 10000 := by
  have hid : delegates.ids.Nodup := by decide +kernel
  have hbind : delegates.bind.errors = [] := List.isEmpty_iff.1 (by decide +kernel)
  have htype : delegates.typeErrors delegates.bind.tables = [] := List.isEmpty_iff.1 (by decide +kernel)
  obtain ⟨-, hexpr, -, hfun⟩ := stack_balanced hid hbind htype 10000
  obtain ⟨c, hc⟩ : ∃ c, delegates.decls[0]? = some (.cls c) ∧ c.methods ≠ [] := ⟨_, rfl, nofun⟩
  obtain ⟨f, hf⟩ : ∃ f, delegates.decls[1]? = some (.func f) ∧ f.name.text = "pick" := ⟨_, rfl, rfl⟩
  have hcmem := List.mem_of_getElem? hc.1
  have hfmem := List.mem_of_getElem? hf.1
  exact ⟨f, c, hf.2, hfmem, hcmem, hc.2, hexpr (.body .top), hfun (.func .top hfmem),
    fun m hm => hfun (.method .top hcmem hm)⟩

end ObjLet
