import ObjLet.Proofs.Code.Inner
import ObjLet.Proofs.Typing.Parts

/-!
# What generation emits

Whatever the tables are, a step of generation that ends with code has added one block for each function that
is declared in it, has taken two labels for each choice and one for each function, and all of these are put,
each once, in the code or in the blocks (`Gen.Emission`). The labels in dispatch tables are those of functions
that are in the unit already (`GenState.Known`), so all labels that are pushed are.

Nothing is said of steps that fail, and tables need not fit the tree.
-/

namespace ObjLet

/-! ## Choices -/

mutual

/-- The choices of an expression: conditionals, negations, comparisons, conjunctions and disjunctions. -/
def Expr.choices : Expr → Nat
  | .literal _ _ | .ident _ _ => 0
  | .call _ _ args _ | .new _ _ args _ | .methodCall _ _ _ args _ => Expr.choicesAll args
  | .binary op left right _ =>
    match op with
    | .add | .sub | .mul | .div => left.choices + right.choices
    | .equal | .lessEqual | .greaterEqual | .and | .or => left.choices + right.choices + 1
  | .unary .not operand _ => operand.choices + 1
  | .cond condition thenExpr elseExpr _ =>
    condition.choices + thenExpr.choices + elseExpr.choices + 1
  | .print value _ => value.choices

def Expr.choicesAll : List Expr → Nat
  | [] => 0
  | e :: es => e.choices + Expr.choicesAll es

end

mutual

def FunDecl.choices : FunDecl → Nat
  | ⟨_, _, _, _, decls, body, _⟩ => Decl.choicesAll decls + body.choices

def FunDecl.choicesAll : List FunDecl → Nat
  | [] => 0
  | m :: ms => m.choices + FunDecl.choicesAll ms

/-- The choices in the code of a declaration and in its functions. -/
def Decl.choices : Decl → Nat
  | .var _ _ _ init _ => init.choices
  | .func f => f.choices
  | .cls ⟨_, _, _, _, methods, _⟩ => FunDecl.choicesAll methods

def Decl.choicesAll : List Decl → Nat
  | [] => 0
  | d :: ds => d.choices + Decl.choicesAll ds

end

def Program.choices (p : Program) : Nat := Decl.choicesAll p.decls + p.body.choices

/-! ## Blocks -/

/-- What a function becomes under a label: the code that is generated for its parts, from some state on, within
its frame. -/
def FunDecl.Becomes (t : Tables) (mem : Int) (f : FunDecl) (entry : Label) (block : Code) : Prop :=
  ∃ s₀ s₁ s₂ s₃ s₄ sig localWords decls body,
    (t.functionSignature f.id f.name f.span).run s₀ = .ok (sig, s₁) ∧
    (t.localWords f.decls).run s₁ = .ok (localWords, s₂) ∧
    (Decl.genAll t mem f.decls).run s₂ = .ok (decls, s₃) ∧
    (f.body.gen t mem).run s₃ = .ok (body, s₄) ∧
    block = .place entry :: (Code.prologue ++ decls ++ body ++
      Code.epilogue sig.paramWords localWords sig.returnsFunction)

/-- A block starts with the label of a function, enters its frame, and at last returns. -/
def Code.IsBlock (known : Label → Prop) (block : Code) : Prop :=
  ∃ entry body, entry.kind = .function ∧ Inner known body ∧
    block = .place entry :: (prologue ++ body ++ [.load .tm, .load .ra, .jump])

/-- A block stays one when more functions are known. -/
theorem Code.IsBlock.mono {known known' : Label → Prop} {block : Code} (h : IsBlock known block)
    (hk : ∀ l, known l → known' l) : IsBlock known' block := by
  obtain ⟨entry, body, hentry, hbody, heq⟩ := h
  exact ⟨entry, body, hentry, hbody.mono hk, heq⟩

/-- The only labels that a block pushes are those of known functions. -/
theorem Code.IsBlock.known_of_pushLabel {known : Label → Prop} {block : Code} (h : IsBlock known block)
    {l : Label} (hl : .pushLabel l ∈ block) : known l := by
  obtain ⟨entry, body, -, hbody, rfl⟩ := h
  exact hbody.known_of_pushLabel (by simpa [prologue] using hl)

/-! ## States -/

/-- The label of a function in the unit. -/
def GenState.HasFunction (s : GenState) (l : Label) : Prop :=
  l.kind = .function ∧ .place l ∈ s.emitter.functions

/-- Dispatch tables lead to functions in the unit. -/
def GenState.Known (s : GenState) : Prop :=
  ∀ (c : Nat) (table : List Label), s.dispatch[c]? = some table → ∀ l ∈ table, s.HasFunction l

namespace Gen

variable {t : Tables} {mem : Int}

/-- From one state to another, functions become blocks, choices and functions take their labels, and those
labels are put in the blocks or left to be put. -/
structure Emission (t : Tables) (mem : Int) (s : GenState) (choices : Nat) (fs : List FunDecl)
    (left : List Label) (blocks : List Code) (s' : GenState) : Prop where
  code : s'.emitter.code = s.emitter.code
  functions : s'.emitter.functions = s.emitter.functions ++ blocks.flatten
  branchCount : s'.emitter.labels.branches = s.emitter.labels.branches + 2 * choices
  functionCount : s'.emitter.labels.functions = s.emitter.labels.functions + fs.length
  labels : s.emitter.labels.Hands s'.emitter.labels (left ++ Code.placed blocks.flatten)
  taken : (left ++ Code.placed blocks.flatten).length = 2 * choices + fs.length
  become : ∃ bodies, blocks.Perm bodies ∧
    List.Forall₂ (fun f b => f.1.Becomes t mem ⟨.function, f.2⟩ b)
      (fs.zipIdx s.emitter.labels.functions) bodies
  known : s.Known → s'.Known ∧ ∀ b ∈ blocks, b.IsBlock s'.HasFunction

namespace Emission

variable {s s' s'' : GenState} {n n' : Nat} {fs fs' : List FunDecl} {ls ls' : List Label}
  {bs bs' : List Code}

theorem refl (s : GenState) : Emission t mem s 0 [] [] [] s :=
  ⟨rfl, (List.append_nil _).symm, rfl, rfl, .refl _, rfl, ⟨[], .nil, .nil⟩, fun h => ⟨h, nofun⟩⟩

/-- Functions are never taken out of the unit. -/
theorem hasFunction (h : Emission t mem s n fs ls bs s') {l : Label} (hl : s.HasFunction l) :
    s'.HasFunction l :=
  ⟨hl.1, h.functions ▸ List.mem_append_left _ hl.2⟩

/-- Two steps after each other: choices, functions and labels add up. The functions of the second step are
numbered on from those of the first, which is where `functionCount` is needed. -/
theorem trans (h : Emission t mem s n fs ls bs s') (h' : Emission t mem s' n' fs' ls' bs' s'') :
    Emission t mem s (n + n') (fs ++ fs') (ls ++ ls') (bs ++ bs') s'' where
  code := h'.code.trans h.code
  functions := by rw [h'.functions, h.functions, List.flatten_append, List.append_assoc]
  branchCount := by rw [h'.branchCount, h.branchCount]; omega
  functionCount := by rw [h'.functionCount, h.functionCount, List.length_append]; omega
  labels := by
    refine (h.labels.trans h'.labels).perm (List.perm_iff_count.2 fun x => ?_)
    simp only [List.flatten_append, Code.placed_append, List.count_append]
    omega
  taken := by
    have := h.taken
    have := h'.taken
    simp only [List.flatten_append, Code.placed_append, List.length_append] at *
    omega
  become := by
    obtain ⟨bodies, hp, hb⟩ := h.become
    obtain ⟨bodies', hp', hb'⟩ := h'.become
    refine ⟨bodies ++ bodies', hp.append hp', ?_⟩
    rw [List.zipIdx_append]
    rw [h.functionCount] at hb'
    exact List.rel_append hb hb'
  -- Blocks of the first step may push labels that only the second step makes known, so they are weakened to the
  -- last state.
  known hs := by
    obtain ⟨hs', hbs⟩ := h.known hs
    obtain ⟨hs'', hbs'⟩ := h'.known hs'
    refine ⟨hs'', List.forall_mem_append.2 ⟨fun b hb => ?_, hbs'⟩⟩
    exact (hbs b hb).mono fun l => h'.hasFunction

theorem perm (h : Emission t mem s n fs ls bs s') (hp : ls.Perm ls') : Emission t mem s n fs ls' bs s' :=
  { h with
    labels := h.labels.perm (hp.append_right _)
    taken := by rw [← h.taken, List.length_append, List.length_append, hp.length_eq] }

/-- A dispatch table of functions that are in the unit may be recorded. -/
theorem setDispatch (h : Emission t mem s n fs ls bs s') {table : List Label}
    (htable : ∀ l ∈ table, s'.HasFunction l) (cls : ClassId) :
    Emission t mem s n fs ls bs { s' with dispatch := s'.dispatch.insert cls table } := by
  refine ⟨h.code, h.functions, h.branchCount, h.functionCount, h.labels, h.taken, h.become, fun hs => ?_⟩
  obtain ⟨hs', hblocks⟩ := h.known hs
  refine ⟨fun c table' hc l hl => ?_, hblocks⟩
  rw [Std.TreeMap.getElem?_insert] at hc
  split at hc
  · cases hc
    exact htable l hl
  · exact hs' c table' hc l hl

end Emission

/-- What holds of the result of a step of generation, if it has one. -/
def Ensures {α : Type} (x : Gen α) (s : GenState) (Q : α → GenState → Prop) : Prop :=
  ∀ a s', x.run s = .ok (a, s') → Q a s'

namespace Ensures

variable {α β : Type} {s : GenState} {Q : α → GenState → Prop} {R : β → GenState → Prop}

theorem pure {a : α} (h : Q a s) : Ensures (Pure.pure a) s Q := by
  intro a' s' hrun
  cases hrun
  exact h

/-- The weakest precondition of a sequence. With `choice` below it is all that the proofs for constructs need. -/
theorem bind {x : Gen α} {f : α → Gen β} (h : Ensures x s fun a s' => Ensures (f a) s' R) :
    Ensures (x >>= f) s R := by
  intro b s'' hrun
  obtain ⟨a, s', hx, hf⟩ := bind_eq_ok.1 hrun
  exact h a s' hx b s'' hf

theorem mono {x : Gen α} (h : Ensures x s Q) {Q' : α → GenState → Prop} (hq : ∀ a s', Q a s' → Q' a s') :
    Ensures x s Q' :=
  fun a s' hrun => hq a s' (h a s' hrun)

/-- A step that fails ensures anything; this is how tables that do not fit the tree are left out. -/
theorem fail {misfit : Misfit} {span : Span} : Ensures (Gen.fail misfit span) s Q := fun _ _ h => nomatch h

/-- A lookup leaves the state alone and ends only if there is something to find. -/
theorem orFail {value? : Option α} {misfit : Misfit} {span : Span} (h : ∀ a, value? = some a → Q a s) :
    Ensures (Gen.orFail value? misfit span) s Q := by
  intro a s' hrun
  obtain ⟨ha, rfl⟩ := orFail_eq_ok.1 hrun
  exact h a ha

/-- A choice takes two labels. -/
theorem choice {f : Label → Label → Gen α} (t : Tables) (mem : Int)
    (h : ∀ l l' s', l.kind = .branch → l'.kind = .branch → Emission t mem s 1 [] [l, l'] [] s' →
      Ensures (f l l') s' Q) :
    Ensures (freshBranch >>= fun l => freshBranch >>= f l) s Q := by
  intro a s'' hrun
  obtain ⟨l, s₁, h₁, hrun⟩ := bind_eq_ok.1 hrun
  obtain ⟨l', s₂, h₂, hrun⟩ := bind_eq_ok.1 hrun
  have hl : l.kind = .branch := by
    cases h₁
    rfl
  have hl' : l'.kind = .branch := by
    cases h₂
    rfl
  have hboth : s.emitter.labels.Hands s₂.emitter.labels ([l, l'] ++ Code.placed [].flatten) :=
    ((yields_freshBranch s).of_run h₁).labels.trans ((yields_freshBranch s₁).of_run h₂).labels
  refine h l l' s₂ hl hl' ?_ a s'' hrun
  cases h₁
  cases h₂
  exact ⟨rfl, (List.append_nil _).symm, rfl, rfl, hboth, rfl, ⟨[], .nil, .nil⟩, fun h => ⟨h, nofun⟩⟩

end Ensures

end Gen

open Gen

variable {t : Tables} {mem : Int}

/-! ## Expressions -/

namespace Expr

/-- From one state to another the code of an expression is emitted: it refers to no function, and all labels
that are taken for its choices are put in it. -/
structure Emitted (t : Tables) (mem : Int) (s : GenState) (choices : Nat) (c : Code) (s' : GenState) :
    Prop where
  inner : c.Inner fun _ => False
  emission : Emission t mem s choices [] (Code.placed c) [] s'

namespace Emitted

variable {s s' s'' : GenState} {n n' : Nat} {c c' before after : Code}

/-- Code without labels and function values costs nothing. -/
theorem plain (h : ∀ i ∈ c, i.isPlain = true) : Emitted t mem s 0 c s :=
  ⟨.of_plain h, by rw [Code.placed_of_plain h]; exact .refl s⟩

/-- Code after code: the labels that are left to be put are those of both. -/
theorem append (h : Emitted t mem s n c s') (h' : Emitted t mem s' n' c' s'') :
    Emitted t mem s (n + n') (c ++ c') s'' :=
  ⟨h.inner.append h'.inner, by rw [Code.placed_append]; exact h.emission.trans h'.emission⟩

theorem followed (h : Emitted t mem s n c s') (ha : ∀ i ∈ after, i.isPlain = true) :
    Emitted t mem s n (c ++ after) s' := h.append (.plain ha)

theorem led (h : Emitted t mem s n c s') (hb : ∀ i ∈ before, i.isPlain = true) :
    Emitted t mem s n (before ++ c) s' := by
  rw [← Nat.zero_add n]
  exact (plain hb).append h

end Emitted

/-- A step of generation emits the code that it yields and nothing besides. -/
def Emits (t : Tables) (mem : Int) (x : Gen Code) (choices : Nat) : Prop :=
  ∀ s, Ensures x s fun c s' => Emitted t mem s choices c s'

/-- Run a step that emits code and go on, from any state, with what it has emitted. -/
theorem Emits.bind {x : Gen Code} {n : Nat} (hx : Emits t mem x n) {β : Type} {f : Code → Gen β} {s : GenState}
    {Q : β → GenState → Prop} (hf : ∀ c s', Emitted t mem s n c s' → Ensures (f c) s' Q) :
    Ensures (x >>= f) s Q :=
  .bind ((hx s).mono hf)

/-- The choices of the arguments add up. The order of evaluation does not matter for their number. -/
theorem emits_genLastFirst {args : List Expr} (h : ∀ a ∈ args, Emits t mem (a.gen t mem) a.choices) :
    Emits t mem (genLastFirst t mem args) (choicesAll args) := by
  induction args with
  | nil => exact fun s => .pure (.plain nofun)
  | cons a as ih =>
    obtain ⟨ha, has⟩ := List.forall_mem_cons.1 h
    intro s
    refine (ih has).bind fun cs s₁ hcs => ha.bind fun c s₂ hc => .pure ?_
    rw [choicesAll, Nat.add_comm]
    exact hcs.append hc

theorem emits_genFirstLast {args : List Expr} (h : ∀ a ∈ args, Emits t mem (a.gen t mem) a.choices) :
    Emits t mem (genFirstLast t mem args) (choicesAll args) := by
  induction args with
  | nil => exact fun s => .pure (.plain nofun)
  | cons a as ih =>
    obtain ⟨ha, has⟩ := List.forall_mem_cons.1 h
    intro s
    exact ha.bind fun c s₁ hc => (ih has).bind fun cs s₂ hcs => .pure (hc.append hcs)

/-! ### Constructs -/

theorem isPlain_loadFp : ∀ i ∈ [Instruction.load .fp], i.isPlain = true := by decide

theorem isPlain_arith (op : ArithOp) : ∀ i ∈ [Instruction.arith op], i.isPlain = true :=
  List.forall_mem_singleton.2 rfl

/-- Reading a name is no choice. If the name stands for no value, generation fails. -/
theorem emits_ident (id : NodeId) (name : Name) : Emits t mem ((ident id name).gen t mem) 0 := by
  rw [gen]
  intro s
  refine .bind (.orFail fun use _ => ?_)
  split
  · exact .pure (.plain Code.isPlain_loadValue)
  · exact .fail

section Calls

variable {args : List Expr}

/-- A call adds nothing to the choices of its arguments, and all that is around them is plain. -/
theorem emits_call (h : ∀ a ∈ args, Emits t mem (a.gen t mem) a.choices) (id : NodeId) (callee : Name)
    (span : Span) : Emits t mem ((call id callee args span).gen t mem) (choicesAll args) := by
  rw [gen]
  intro s
  refine .bind (.orFail fun use _ => ?_)
  split
  · exact .fail
  refine (emits_genLastFirst h).bind fun c s' hc => .pure ?_
  exact ((hc.led isPlain_loadFp).followed Code.isPlain_frame).followed Code.isPlain_callEntry

theorem emits_new (h : ∀ a ∈ args, Emits t mem (a.gen t mem) a.choices) (id : NodeId) (cls : Name)
    (span : Span) : Emits t mem ((new id cls args span).gen t mem) (choicesAll args) := by
  rw [gen]
  intro s
  refine .bind (.orFail fun use _ => .bind (.orFail fun layout _ => ?_))
  exact (emits_genFirstLast h).bind fun c s' hc => .pure (hc.followed Code.isPlain_newObject)

theorem emits_methodCall (h : ∀ a ∈ args, Emits t mem (a.gen t mem) a.choices) (id : NodeId)
    (object method : Name) (span : Span) :
    Emits t mem ((methodCall id object method args span).gen t mem) (choicesAll args) := by
  rw [gen]
  intro s
  refine .bind (.orFail fun call _ => ?_)
  refine (emits_genLastFirst h).bind fun c s' hc => .pure ?_
  exact (((hc.led isPlain_loadFp).followed Code.isPlain_frame).followed Code.isPlain_loadAt).followed
    Code.isPlain_dispatchCall

end Calls

section Operators

variable {x y : Gen Code} {n n' : Nat}

/-- Two operands and then a choice between their results. -/
theorem emits_compared {choice : Label → Label → Code} (hx : Emits t mem x n) (hy : Emits t mem y n')
    (hinner : ∀ {l l'}, l.kind = .branch → l'.kind = .branch → (choice l l').Inner fun _ => False)
    (hplaced : ∀ l l', Code.placed (choice l l') = [l, l']) :
    Emits t mem (x >>= fun c => y >>= fun c' => freshBranch >>= fun l => freshBranch >>= fun l' =>
      pure (c ++ c' ++ choice l l')) (n + n' + 1) :=
  fun _ => hx.bind fun _ _ hc => hy.bind fun _ _ hc' => .choice t mem fun l l' _ hl hl' h =>
    .pure ((hc.append hc').append ⟨hinner hl hl', by rw [hplaced]; exact h⟩)

/-- The labels are taken before the operands and put behind them, so it is their number that counts and not their
order. -/
theorem emits_shortCircuit (hx : Emits t mem x n) (hy : Emits t mem y n') (decisive : Int) :
    Emits t mem (freshBranch >>= fun l => freshBranch >>= fun l' => x >>= fun c => y >>= fun c' =>
      pure (Code.shortCircuit l l' decisive c c')) (n + n' + 1) := by
  intro s
  refine .choice t mem fun l l' s₁ hl hl' h => hx.bind fun c s₂ hc => hy.bind fun c' s₃ hc' => ?_
  refine .pure ⟨Code.inner_shortCircuit hl hl' _ hc.inner hc'.inner, ?_⟩
  rw [Nat.add_comm _ 1]
  refine (h.trans (hc.emission.trans hc'.emission)).perm (List.perm_iff_count.2 fun x => ?_)
  simp [Code.shortCircuit, Code.placed_cons, Instruction.placed?, List.count_cons]
  omega

end Operators

/-- An operator is plain, or one choice. -/
theorem emits_binary {left right : Expr} (hl : Emits t mem (left.gen t mem) left.choices)
    (hr : Emits t mem (right.gen t mem) right.choices) (op : BinaryOp) (span : Span) :
    Emits t mem ((binary op left right span).gen t mem) (binary op left right span).choices := by
  cases op with
  | add | sub | mul | div =>
    rw [gen, choices]
    exact fun _ => hl.bind fun _ _ hc => hr.bind fun _ _ hc' =>
      .pure ((hc.append hc').followed (isPlain_arith _))
  | equal =>
    rw [gen, choices]
    exact emits_compared hl hr (fun hl hl' => Code.inner_select hl hl' 0 1) fun _ _ => rfl
  | lessEqual =>
    rw [gen, choices]
    exact emits_compared hl hr (fun hl hl' => Code.inner_lessEqual hl hl') fun _ _ => rfl
  | greaterEqual =>
    rw [gen, choices, Nat.add_comm left.choices]
    exact emits_compared hr hl (fun hl hl' => Code.inner_lessEqual hl hl') fun _ _ => rfl
  | and | or =>
    rw [gen, choices]
    exact emits_shortCircuit hl hr _

/-- The labels of a conditional are taken before the three parts are generated. One of them is put between the
branches and the other one at the end, so they are counted, not listed in order. -/
theorem emits_cond {condition thenExpr elseExpr : Expr}
    (hc : Emits t mem (condition.gen t mem) condition.choices)
    (ht : Emits t mem (thenExpr.gen t mem) thenExpr.choices)
    (he : Emits t mem (elseExpr.gen t mem) elseExpr.choices) (span : Span) :
    Emits t mem ((cond condition thenExpr elseExpr span).gen t mem)
      (cond condition thenExpr elseExpr span).choices := by
  rw [gen, choices]
  intro s
  refine .choice t mem fun l l' s₁ hl hl' h => hc.bind fun c s₂ hc => he.bind fun ce s₃ he =>
    ht.bind fun ct s₄ ht => .pure ⟨Code.inner_cond hl hl' hc.inner ht.inner he.inner, ?_⟩
  rw [show condition.choices + thenExpr.choices + elseExpr.choices + 1 =
    1 + (condition.choices + (elseExpr.choices + thenExpr.choices)) by omega]
  refine (h.trans (hc.emission.trans (he.emission.trans ht.emission))).perm
    (List.perm_iff_count.2 fun x => ?_)
  simp [Code.cond, Code.placed_cons, Instruction.placed?, List.count_cons]
  omega

/-- Whatever the tables are, an expression emits its code, with two labels for each choice. -/
theorem emits_gen (e : Expr) : Emits t mem (e.gen t mem) e.choices := by
  induction e using Expr.induction with
  | literal value span =>
    rw [gen, choices]
    exact fun s => .pure (.plain (List.forall_mem_singleton.2 rfl))
  | ident id name =>
    rw [choices]
    exact emits_ident id name
  | call id callee args span ih =>
    rw [choices]
    exact emits_call ih id callee span
  | new id cls args span ih =>
    rw [choices]
    exact emits_new ih id cls span
  | methodCall id object method args span ih =>
    rw [choices]
    exact emits_methodCall ih id object method span
  | binary op left right span ihl ihr => exact emits_binary ihl ihr op span
  | unary op operand span ih =>
    cases op with
    | not =>
      rw [gen, choices]
      intro s
      exact ih.bind fun c s₁ hc => .choice t mem fun l l' s₂ hl hl' h =>
        .pure ((hc.followed (List.forall_mem_singleton.2 rfl)).append ⟨Code.inner_select hl hl' 0 1, h⟩)
  | cond condition thenExpr elseExpr span ihc iht ihe => exact emits_cond ihc iht ihe span
  | print value span ih =>
    rw [gen, choices]
    exact fun s => ih.bind fun c s₁ hc => .pure (hc.followed (by decide))

end Expr

/-! ## Declarations -/

/-- What is in a dispatch table after a method is placed was there before or is the method. -/
theorem mem_of_placeMethod? {table table' : List Label} {slot : Int} {entry l : Label}
    (h : placeMethod? table slot entry = some table') (hl : l ∈ table') : l = entry ∨ l ∈ table := by
  unfold placeMethod? at h
  split at h
  · cases h
  split at h
  · cases h
    exact (List.mem_or_eq_of_mem_set hl).symm
  split at h
  · cases h
    simpa [or_comm] using hl
  · cases h

namespace Gen

variable {s : GenState}

/-- Counting the words of a frame only reads the tables. -/
theorem ensures_localWords (ds : List Decl) : Ensures (t.localWords ds) s fun _ s' => s' = s := by
  induction ds with
  | nil => exact .pure rfl
  | cons d ds ih => exact .bind (.orFail fun _ _ => .bind (ih.mono fun _ _ h => .pure h))

theorem ensures_functionSignature (id : NodeId) (name : Name) (span : Span) :
    Ensures (t.functionSignature id name span) s fun _ s' => s' = s :=
  .bind (.orFail fun _ _ => .orFail fun _ _ => rfl)

/-- The dispatch table that a class starts with leads to functions in the unit. -/
theorem ensures_inheritedDispatch (hs : s.Known) (cls : ClassId) (name : Name) (span : Span) :
    Ensures (t.inheritedDispatch cls name span) s fun table s' => s' = s ∧ ∀ l ∈ table, s.HasFunction l := by
  rw [Tables.inheritedDispatch]
  split
  · exact .pure ⟨rfl, List.forall_mem_nil _⟩
  · refine .bind fun table? s₁ h₁ => ?_
    cases h₁
    exact .orFail fun table htable => ⟨rfl, hs _ table htable⟩

end Gen

/-- What a function does between its body and its last jump. -/
theorem Code.exists_epilogue_eq (paramWords localWords : Nat) (returnsFunction : Bool) :
    ∃ leave : Code, (∀ i ∈ leave, i.isPlain = true) ∧
      epilogue paramWords localWords returnsFunction = leave ++ [.load .tm, .load .ra, .jump] := by
  refine ⟨.store .tm :: (if returnsFunction then returnFrameWord paramWords else []) ++
    List.replicate localWords .pop ++ [.store .ra] ++
    List.replicate (if returnsFunction then paramWords else paramWords + 1) .pop ++ [.store .fp], ?_,
    by simp [epilogue]⟩
  have hframe : ∀ i ∈ (if returnsFunction then returnFrameWord paramWords else []), i.isPlain = true := by
    split
    · exact isPlain_returnFrameWord
    · exact List.forall_mem_nil _
  simp only [List.cons_append, List.forall_mem_append, List.forall_mem_cons]
  exact ⟨rfl, ⟨⟨⟨hframe, isPlain_replicate_pop⟩, by decide⟩, isPlain_replicate_pop⟩, rfl, List.forall_mem_nil _⟩

/-- A step of generation puts a function into the unit and yields its label. -/
def FunDecl.add (t : Tables) (mem : Int) (f : FunDecl) : Gen Label := do
  let entry ← freshFunction
  f.gen t mem entry
  return entry

/-- A function is put into the unit under the next label: its block, and the blocks of the functions in it. -/
def FunDecl.Adds (t : Tables) (mem : Int) (f : FunDecl) : Prop :=
  ∀ s : GenState, s.Known → Ensures (f.add t mem) s fun entry s' =>
    entry = ⟨.function, s.emitter.labels.functions⟩ ∧ s'.HasFunction entry ∧
      ∃ blocks, Emission t mem s f.choices f.functions [] blocks s'

/-- Declarations emit their code and put their functions into the unit. -/
def Decl.Emits (t : Tables) (mem : Int) (x : Gen Code) (choices : Nat) (functions : List FunDecl) : Prop :=
  ∀ s : GenState, s.Known → Ensures x s fun c s' =>
    c.Inner s'.HasFunction ∧ ∃ blocks, Emission t mem s choices functions (Code.placed c) blocks s'

/-- What is emitted for the parts of a function becomes its block, with the label that was taken before. -/
theorem Gen.Emission.close {f : FunDecl} {s s₁ s₂ s₃ : GenState} {entry : Label} {code leave block : Code}
    {blocks : List Code} (h₁ : freshFunction.run s = .ok (entry, s₁))
    (h : Emission t mem s₁ f.choices (Decl.functionsAll f.decls) (Code.placed code) blocks s₂)
    (hs : s.Known) (hcode : code.Inner s₂.HasFunction) (hleave : ∀ i ∈ leave, i.isPlain = true)
    (hblock : block = .place entry :: (Code.prologue ++ (code ++ leave) ++ [.load .tm, .load .ra, .jump]))
    (hf : f.Becomes t mem entry block)
    (h₃ : s₃ = { s₂ with emitter := { s₂.emitter with functions := s₂.emitter.functions ++ block } }) :
    Emission t mem s f.choices f.functions [] (blocks ++ [block]) s₃ := by
  have hlabel : s.emitter.labels.Hands s₁.emitter.labels [entry] :=
    ((yields_freshFunction s).of_run h₁).labels
  -- A block puts its own label and the labels of the code in it. Prologue and epilogue put none.
  have hput : Code.placed block = entry :: Code.placed code := by
    rw [hblock]
    simp [Code.placed_cons, Code.prologue, Instruction.placed?, Code.placed_of_plain hleave]
  have hs₁ : s₁.Known := by
    cases h₁
    exact hs
  cases h₁
  subst h₃
  refine ⟨h.code, ?_, h.branchCount, ?_, ?_, ?_, ?_, fun _ => ?_⟩
  · simp [h.functions]
  · rw [FunDecl.functions_eq, List.length_cons]
    exact h.functionCount.trans (Nat.add_right_comm _ _ _)
  · refine (hlabel.trans h.labels).perm (List.perm_iff_count.2 fun x => ?_)
    simp only [List.flatten_append, List.flatten_singleton, Code.placed_append, hput, List.count_append,
      List.count_cons, List.count_nil]
    omega
  · have := h.taken
    simp only [FunDecl.functions_eq, List.flatten_append, List.flatten_singleton, Code.placed_append, hput,
      List.length_append, List.length_cons, List.length_nil] at *
    omega
  · -- The function ends after those in it, but stands before them in the order of the text.
    obtain ⟨bodies, hp, hb⟩ := h.become
    refine ⟨block :: bodies, (List.perm_append_singleton _ _).trans (hp.cons _), ?_⟩
    rw [FunDecl.functions_eq, List.zipIdx_cons]
    exact .cons hf hb
  · obtain ⟨hs₂, hblocks⟩ := h.known hs₁
    have hmono : ∀ l, s₂.HasFunction l → GenState.HasFunction
        { s₂ with emitter := { s₂.emitter with functions := s₂.emitter.functions ++ block } } l :=
      fun l hl => ⟨hl.1, List.mem_append_left _ hl.2⟩
    refine ⟨fun c table hc l hl => hmono l (hs₂ c table hc l hl), ?_⟩
    refine List.forall_mem_append.2 ⟨fun b hb => (hblocks b hb).mono hmono, ?_⟩
    exact List.forall_mem_singleton.2
      ⟨_, code ++ leave, rfl, (hcode.mono hmono).append (.of_plain hleave), hblock⟩

/-- A function is put into the unit behind the functions in it. -/
theorem FunDecl.adds_of_decls {f : FunDecl}
    (hds : Decl.Emits t mem (Decl.genAll t mem f.decls) (Decl.choicesAll f.decls)
      (Decl.functionsAll f.decls)) : f.Adds t mem := by
  obtain ⟨id, name, params, ret, decls, body, span⟩ := f
  intro s hs
  refine .bind fun entry s₁ h₁ => .bind ?_
  have hentry : entry = ⟨.function, s.emitter.labels.functions⟩ := by
    cases h₁
    rfl
  have hs₁ : s₁.Known := by
    cases h₁
    exact hs
  rw [FunDecl.gen]
  refine .bind fun sig s₂ h₂ => .bind fun localWords s₃ h₃ => .bind fun ds s₄ h₄ => .bind fun bs s₅ h₅ => ?_
  obtain rfl := ensures_functionSignature _ _ _ _ _ h₂
  obtain rfl := ensures_localWords _ _ _ h₃
  obtain ⟨hinner, blocks, hdecls⟩ := hds _ hs₁ ds s₄ h₄
  obtain ⟨hexpr, hbody⟩ := Expr.emits_gen body s₄ bs s₅ h₅
  obtain ⟨leave, hleave, hepilogue⟩ := Code.exists_epilogue_eq sig.paramWords localWords sig.returnsFunction
  have hall := hdecls.trans hbody
  rw [List.append_nil, List.append_nil, ← Code.placed_append] at hall
  -- The functions in it are in the unit already; its own label is not needed by its code.
  have hcode : (ds ++ bs).Inner s₅.HasFunction :=
    (hinner.mono fun _ => hbody.hasFunction).append (hexpr.mono fun _ => False.elim)
  have hblock : Instruction.place entry :: (Code.prologue ++ ds ++ bs ++
      Code.epilogue sig.paramWords localWords sig.returnsFunction) =
      .place entry :: (Code.prologue ++ ((ds ++ bs) ++ leave) ++ [.load .tm, .load .ra, .jump]) := by
    simp [hepilogue]
  intro _ s₆ h₆
  cases h₆
  refine .pure ⟨hentry, ⟨by rw [hentry], ?_⟩, _, hall.close h₁ hs hcode hleave hblock ?_ ?_⟩
  · simp [Emitter.addFunction_eq]
  · exact ⟨_, _, _, _, _, sig, localWords, ds, bs, h₂, h₃, h₄, h₅, rfl⟩
  · rfl

/-- Use of `FunDecl.Adds` where generation takes the label itself, as it does for a declared function and for a
method. -/
theorem FunDecl.Adds.bind {f : FunDecl} (hf : f.Adds t mem) {s : GenState} (hs : s.Known) {β : Type}
    {g : Label → Gen β} {Q : β → GenState → Prop}
    (h : ∀ s' blocks, s'.HasFunction ⟨.function, s.emitter.labels.functions⟩ →
      Emission t mem s f.choices f.functions [] blocks s' →
      Ensures (g ⟨.function, s.emitter.labels.functions⟩) s' Q) :
    Ensures (freshFunction >>= fun entry => f.gen t mem entry >>= fun _ => g entry) s Q := by
  have hadd : (freshFunction >>= fun entry => f.gen t mem entry >>= fun _ => g entry) = f.add t mem >>= g := by
    simp [FunDecl.add]
  rw [hadd]
  refine .bind ((hf s hs).mono fun entry s' hadds => ?_)
  obtain ⟨rfl, hentry, blocks, he⟩ := hadds
  exact h s' blocks hentry he

mutual

/-- A declaration emits its code, and its functions become blocks. A class is where the dispatch table is shown
to lead to functions in the unit. -/
theorem Decl.emits_gen : (d : Decl) → Decl.Emits t mem (d.gen t mem) d.choices d.functions
  | .var _ _ _ init _, s, _ =>
    (Expr.emits_gen init s).mono fun _ _ h => ⟨h.inner.mono fun _ => False.elim, [], h.emission⟩
  | .func f, s, hs => by
    rw [Decl.gen]
    refine (FunDecl.adds_gen f).bind hs fun s' blocks hentry he => .pure ⟨⟨⟨nofun, nofun, trivial⟩, ?_⟩, _, he⟩
    simpa [Instruction.IsInner] using hentry
  | .cls ⟨id, name, superclass, fields, methods, span⟩, s, hs => by
    rw [Decl.gen]
    refine .bind (.orFail fun declared _ => .bind (.orFail fun cls _ => .bind ?_))
    refine (ensures_inheritedDispatch hs cls name span).mono fun inherited s₁ h₁ => .bind ?_
    obtain ⟨rfl, hinherited⟩ := h₁
    refine (FunDecl.emission_genAll methods inherited s₁ hs hinherited).mono fun table s₂ h₂ => .bind ?_
    obtain ⟨htable, blocks, he⟩ := h₂
    intro _ s₃ h₃
    cases h₃
    refine .pure ⟨Code.inner_dispatchTable htable, blocks, ?_⟩
    rw [Code.placed, Code.placed_dispatchTable]
    exact he.setDispatch htable cls

/-- The induction over nested functions closes here: the declarations of a function come before its own block. -/
theorem FunDecl.adds_gen : (f : FunDecl) → f.Adds t mem
  | ⟨_, _, _, _, decls, _, _⟩ => FunDecl.adds_of_decls (Decl.emits_genAll decls)

/-- Methods are added one after the other, and each is in the unit when the next one is placed. -/
theorem FunDecl.emission_genAll :
    (ms : List FunDecl) → ∀ (table : List Label) (s : GenState), s.Known → (∀ l ∈ table, s.HasFunction l) →
      Ensures (FunDecl.genAll t mem table ms) s fun table' s' => (∀ l ∈ table', s'.HasFunction l) ∧
        ∃ blocks, Emission t mem s (FunDecl.choicesAll ms) (FunDecl.functionsAll ms) [] blocks s'
  | [], table, s, _, htable => .pure ⟨htable, [], .refl s⟩
  | m :: ms, table, s, hs, htable => by
    rw [FunDecl.genAll]
    refine .bind (.orFail fun declared _ => ?_)
    refine (FunDecl.adds_gen m).bind hs fun s₁ blocks hentry he => .bind (.orFail fun table₁ hplace => ?_)
    have htable₁ : ∀ l ∈ table₁, s₁.HasFunction l := fun l hl => by
      rcases mem_of_placeMethod? hplace hl with rfl | hl
      · exact hentry
      · exact he.hasFunction (htable l hl)
    refine (FunDecl.emission_genAll ms table₁ s₁ (he.known hs).1 htable₁).mono fun table' s' h' => ?_
    obtain ⟨htable', blocks', he'⟩ := h'
    exact ⟨htable', _, he.trans he'⟩

theorem Decl.emits_genAll :
    (ds : List Decl) → Decl.Emits t mem (Decl.genAll t mem ds) (Decl.choicesAll ds) (Decl.functionsAll ds)
  | [], s, _ => .pure ⟨.nil, [], .refl s⟩
  | d :: ds, s, hs => by
    rw [Decl.genAll]
    refine .bind ((Decl.emits_gen d s hs).mono fun c s₁ h₁ => .bind ?_)
    obtain ⟨hc, blocks, he⟩ := h₁
    refine (Decl.emits_genAll ds s₁ (he.known hs).1).mono fun cs s₂ h₂ => .pure ?_
    obtain ⟨hcs, blocks', he'⟩ := h₂
    refine ⟨(hc.mono fun _ => he'.hasFunction).append hcs, blocks ++ blocks', ?_⟩
    rw [Code.placed_append]
    exact he.trans he'

end

/-! ## Programs -/

/-- No class has a dispatch table to begin with. -/
theorem GenState.known_initial : GenState.Known {} := by
  intro c table hc
  simp at hc

/-- A unit is the main part of a program and then the blocks of its functions. -/
theorem Program.exists_emission {p : Program} {u : CodeUnit} (h : p.generate t mem = .ok u) :
    ∃ (main : Code) (blocks : List Code) (s : GenState), u.code = main ++ [.halt] ++ blocks.flatten ∧
      main.Inner s.HasFunction ∧ Emission t mem {} p.choices p.functions main.placed blocks s := by
  obtain ⟨ds, s₁, bs, s₂, h₁, h₂, hu⟩ := generate_eq_ok h
  obtain ⟨hds, blocks, hdecls⟩ := Decl.emits_genAll p.decls _ GenState.known_initial ds s₁ h₁
  obtain ⟨hexpr, hbody⟩ := Expr.emits_gen p.body s₁ bs s₂ h₂
  have hpush : ∀ i ∈ if p.hasDecls then [Instruction.push 0] else [], i.isPlain = true := by
    split <;> decide
  have hall := hdecls.trans hbody
  rw [List.append_nil, List.append_nil] at hall
  refine ⟨(if p.hasDecls then [.push 0] else []) ++ ds ++ bs, blocks, s₂, ?_, ?_, ?_⟩
  · have hcode : s₂.emitter.code = [] := hall.code
    have hfunctions : s₂.emitter.functions = blocks.flatten := hall.functions
    rw [hu, hcode, hfunctions, List.nil_append]
  · exact ((Code.Inner.of_plain hpush).append (hds.mono fun _ => hbody.hasFunction)).append
      (hexpr.mono fun _ => False.elim)
  · rw [Code.placed_append, Code.placed_append, Code.placed_of_plain hpush]
    exact hall

end ObjLet
