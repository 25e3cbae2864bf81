import ObjLet.Proofs.Code.Marked
import ObjLet.Proofs.Code.Total

/-!
# Generated code is listed

Generation takes each label once (`LabelSupply.Hands`), adds functions behind those that are there, and its
result is the code that `Expr.Coded`, `Decl.Coded` and `FunDecl.Coded` describe. So the unit of a clean
program is `Program.Listed`, and no label is placed twice in it (`Program.Checked.exists_listed`).
-/

namespace ObjLet

/-! ## Labels -/

def Label.Between (a b : LabelSupply) : Label → Prop
  | ⟨.branch, i⟩ => a.branches ≤ i ∧ i < b.branches
  | ⟨.function, i⟩ => a.functions ≤ i ∧ i < b.functions

/-- From one supply to another, labels are handed out, each once. -/
structure LabelSupply.Hands (a b : LabelSupply) (ls : List Label) : Prop where
  branches : a.branches ≤ b.branches
  functions : a.functions ≤ b.functions
  nodup : ls.Nodup
  between : ∀ l ∈ ls, l.Between a b

namespace LabelSupply.Hands

variable {a b c : LabelSupply} {ls ls' : List Label}

theorem refl (a : LabelSupply) : a.Hands a [] := ⟨Nat.le_refl _, Nat.le_refl _, .nil, nofun⟩

/-- Counters never go back, so what is handed out later differs from what was handed out before. -/
theorem trans (h : a.Hands b ls) (h' : b.Hands c ls') : a.Hands c (ls ++ ls') := by
  have := h.branches
  have := h.functions
  have := h'.branches
  have := h'.functions
  refine ⟨by omega, by omega, ?_, ?_⟩
  · refine List.nodup_append.2 ⟨h.nodup, h'.nodup, ?_⟩
    rintro l hl _ hl' rfl
    have hb := h.between l hl
    have hb' := h'.between l hl'
    obtain ⟨k, i⟩ := l
    cases k <;> simp only [Label.Between] at hb hb' <;> omega
  · intro l hl
    obtain ⟨k, i⟩ := l
    rcases List.mem_append.1 hl with hl | hl
    · have hb := h.between _ hl
      cases k <;> simp only [Label.Between] at hb ⊢ <;> omega
    · have hb := h'.between _ hl
      cases k <;> simp only [Label.Between] at hb ⊢ <;> omega

/-- Only which labels were handed out counts, not their order: labels that are taken before an operand are put
behind it. -/
theorem perm (h : a.Hands b ls) (hp : ls.Perm ls') : a.Hands b ls' :=
  ⟨h.branches, h.functions, hp.nodup_iff.1 h.nodup, fun l hl => h.between l (hp.mem_iff.2 hl)⟩

end LabelSupply.Hands

namespace Listing

@[simp] theorem labels_append (a b : Listing) :
    (unit (a ++ b)).labels = a.unit.labels ++ b.unit.labels := by
  simp [unit, CodeUnit.labels]

@[simp] theorem labels_nil : (unit []).labels = [] := rfl

/-- A line carries a label or it does not. With `labels_append` this reads the labels off a listing line by line.
-/
theorem labels_cons (l : Line) (ls : Listing) :
    (unit (l :: ls)).labels = l.instruction.placed?.toList ++ ls.unit.labels := by
  simp only [unit, CodeUnit.labels, List.map_cons, List.filterMap_cons]
  cases l.instruction.placed? <;> rfl

theorem labels_plain (c : Code) : (unit (Code.plain c)).labels = c.filterMap Instruction.placed? := by
  simp [unit, CodeUnit.labels]

/-- Marks say where links are followed. They carry no labels. -/
theorem labels_ending (m : Mark) (c : Code) :
    (unit (Code.ending m c)).labels = c.filterMap Instruction.placed? := by
  simp [unit, CodeUnit.labels]

@[simp] theorem ofFunctions_append (a b : List (Label × Listing)) :
    ofFunctions (a ++ b) = ofFunctions a ++ ofFunctions b := List.flatMap_append ..

@[simp] theorem ofFunctions_nil : ofFunctions [] = [] := rfl

end Listing

namespace Code

/-- Following links takes no label, however many there are. -/
theorem placed_frame (hops : Nat) : (frame hops).filterMap Instruction.placed? = [] := by
  simp [frame, Instruction.placed?]

theorem labels_walk (site : NodeId) (hops : Nat) : (walk site hops).unit.labels = [] := by
  rw [walk, Listing.labels_ending, placed_frame]

theorem labels_readValue (site : NodeId) (hops : Nat) (offset : Int) (words : Nat) :
    (readValue site hops offset words).unit.labels = [] := by
  unfold readValue
  split <;> simp [labels_walk, Listing.labels_cons, loadAt, Instruction.placed?]

theorem placed_heapStore : heapStore.filterMap Instruction.placed? = [] := rfl

/-- Objects are made without branching, since their size is known. -/
theorem placed_newObject (words : Nat) (table : Int) :
    (newObject words table).filterMap Instruction.placed? = [] := by
  have hstores : (List.replicate words heapStore).flatten.filterMap Instruction.placed? = [] := by
    rw [List.filterMap_flatten]
    simp [placed_heapStore]
  rw [newObject, List.filterMap_append, List.filterMap_append, hstores]
  rfl

/-- Both labels of a short circuit are put behind its operands, the one for the decided case twice referred to
but put once. -/
theorem labels_shortCircuited (l l' : Label) (decisive : Int) (left right : Listing) :
    (shortCircuited l l' decisive left right).unit.labels =
      (left.unit.labels ++ right.unit.labels) ++ [l, l'] := by
  simp [shortCircuited, Listing.labels_cons, Instruction.placed?]

theorem placed_callEntry (e : Entry) : (callEntry e).filterMap Instruction.placed? = [] := by
  unfold callEntry
  split <;> rfl

/-- A function returns without branching, whether its result is a function or not. -/
theorem placed_epilogue (params locals : Nat) (arrow : Bool) :
    (epilogue params locals arrow).filterMap Instruction.placed? = [] := by
  cases arrow <;>
    simp only [epilogue, returnFrameWord, List.filterMap_cons, List.filterMap_append,
      List.filterMap_replicate, Instruction.placed?, List.filterMap_nil, if_true, Bool.false_eq_true,
      if_false, List.append_nil]

theorem placed_dispatchTable (table : List Label) :
    (dispatchTable table).filterMap Instruction.placed? = [] := by
  rw [dispatchTable, List.filterMap_cons]
  simp only [Instruction.placed?]
  induction table with
  | nil => rfl
  | cons l ls ih =>
    rw [List.flatMap_cons, List.filterMap_append, ih]
    rfl

end Code

/-! ## Steps of generation -/

namespace Gen

/-- From one state to another, functions are added and labels taken. -/
structure Emits (s : GenState) (functions : Listing) (labels : List Label) (s' : GenState) : Prop where
  code : s'.emitter.code = s.emitter.code
  functions : s'.emitter.functions = s.emitter.functions ++ functions.unit.code
  labels : s.emitter.labels.Hands s'.emitter.labels labels

namespace Emits

variable {s s' s'' : GenState} {fs fs' : Listing} {ls ls' : List Label}

theorem refl (s : GenState) : Emits s [] [] s := ⟨rfl, (List.append_nil _).symm, .refl _⟩

/-- Two steps after each other. Functions are added behind those of the first step. -/
theorem trans (h : Emits s fs ls s') (h' : Emits s' fs' ls' s'') :
    Emits s (fs ++ fs') (ls ++ ls') s'' := by
  refine ⟨h'.code.trans h.code, ?_, h.labels.trans h'.labels⟩
  rw [h'.functions, h.functions]
  simp [Listing.unit]

theorem perm (h : Emits s fs ls s') (hp : ls.Perm ls') : Emits s fs ls' s' :=
  ⟨h.code, h.functions, h.labels.perm hp⟩

end Emits

/-- Taking a label never fails, and the label is the next one of its kind. -/
theorem yields_freshBranch (s : GenState) :
    Yields freshBranch s fun l s' => Emits s [] [l] s' := by
  refine ⟨_, _, rfl, rfl, (List.append_nil _).symm, ?_, ?_, List.nodup_singleton _, ?_⟩
  · exact Nat.le_succ _
  · exact Nat.le_refl _
  · intro l hl
    rw [List.mem_singleton.1 hl]
    exact ⟨Nat.le_refl _, Nat.lt_succ_self _⟩

theorem yields_freshFunction (s : GenState) :
    Yields freshFunction s fun l s' => Emits s [] [l] s' := by
  refine ⟨_, _, rfl, rfl, (List.append_nil _).symm, ?_, ?_, List.nodup_singleton _, ?_⟩
  · exact Nat.le_refl _
  · exact Nat.le_succ _
  · intro l hl
    rw [List.mem_singleton.1 hl]
    exact ⟨Nat.le_refl _, Nat.lt_succ_self _⟩

end Gen

open Gen Code

variable {t : Tables} {env : Env} {mem : Int}

/-! ## Expressions -/

namespace Expr

/-- The code that a step of generation yields is listed, and its labels are taken on the way. -/
def Codes (x : Gen Code) (R : Listing → Prop) : Prop :=
  ∀ s, Yields x s fun c s' => ∃ ls, R ls ∧ ls.map (·.instruction) = c ∧ Emits s [] ls.unit.labels s'

theorem Codes.pure {ls : Listing} {c : Code} {R : Listing → Prop} (h : R ls)
    (hc : ls.map (·.instruction) = c) (hl : ls.unit.labels = []) : Codes (Pure.pure c) R :=
  fun s => .pure ⟨ls, h, hc, by rw [hl]; exact .refl s⟩

/-- The workhorse of the lemmas below: run a step that yields listed code and go on with the listing, from a
state in which its labels are taken. -/
theorem Codes.yields {β : Type} {x : Gen Code} {R : Listing → Prop} (hx : Codes x R) {f : Code → Gen β}
    {s : GenState} {Q : β → GenState → Prop}
    (hf : ∀ ls s', R ls → Emits s [] ls.unit.labels s' → Yields (f (ls.map (·.instruction))) s' Q) :
    Yields (x >>= f) s Q := by
  refine .bind ((hx s).mono fun c s' hc => ?_)
  obtain ⟨ls, hr, rfl, he⟩ := hc
  exact hf ls s' hr he

/-- Take one label and go on. -/
theorem yields_label {β : Type} {f : Label → Gen β} {s : GenState} {Q : β → GenState → Prop}
    (hf : ∀ l s', Emits s [] [l] s' → Yields (f l) s' Q) : Yields (freshBranch >>= f) s Q :=
  .bind ((yields_freshBranch s).mono hf)

/-- Arguments of a call. The listings are kept in the order of the arguments, and only their code is reversed. -/
theorem codes_genLastFirst {args : List Expr}
    (h : ∀ a ∈ args, Codes (a.gen t mem) (a.Coded t mem)) :
    Codes (genLastFirst t mem args) fun ls =>
      ∃ codes, List.Forall₂ (Expr.Coded t mem) args codes ∧ ls = codes.reverse.flatten := by
  induction args with
  | nil => exact .pure ⟨[], .nil, rfl⟩ rfl rfl
  | cons a as ih =>
    obtain ⟨ha, has⟩ := List.forall_mem_cons.1 h
    intro s
    refine (ih has).yields fun ls s₁ hls h₁ => ha.yields fun l s₂ hl h₂ => ?_
    obtain ⟨codes, hcodes, rfl⟩ := hls
    exact .pure ⟨_, ⟨l :: codes, .cons hl hcodes, rfl⟩, by simp, by simpa using h₁.trans h₂⟩

/-- Arguments of `new`, in the order in which they are written. -/
theorem codes_genFirstLast {args : List Expr}
    (h : ∀ a ∈ args, Codes (a.gen t mem) (a.Coded t mem)) :
    Codes (genFirstLast t mem args) fun ls =>
      ∃ codes, List.Forall₂ (Expr.Coded t mem) args codes ∧ ls = codes.flatten := by
  induction args with
  | nil => exact .pure ⟨[], .nil, rfl⟩ rfl rfl
  | cons a as ih =>
    obtain ⟨ha, has⟩ := List.forall_mem_cons.1 h
    intro s
    refine ha.yields fun l s₁ hl h₁ => (ih has).yields fun ls s₂ hls h₂ => ?_
    obtain ⟨codes, hcodes, rfl⟩ := hls
    exact .pure ⟨_, ⟨l :: codes, .cons hl hcodes, rfl⟩, by simp, by simpa using h₁.trans h₂⟩

/-! ### Choices -/

section Choices

variable {x y : Gen Code} {Rx Ry Q : Listing → Prop}

/-- Two operands and then a choice between their results: the two labels of the choice are taken last. -/
theorem codes_compared {choice : Label → Label → Code} (hx : Codes x Rx) (hy : Codes y Ry)
    (hchoice : ∀ l l', (choice l l').filterMap Instruction.placed? = [l, l'])
    (hq : ∀ {xs ys}, Rx xs → Ry ys → ∀ l l', Q (xs ++ ys ++ plain (choice l l'))) :
    Codes (x >>= fun c => y >>= fun c' => freshBranch >>= fun l => freshBranch >>= fun l' =>
      pure (c ++ c' ++ choice l l')) Q := by
  intro s
  refine hx.yields fun xs s₁ hxs h₁ => hy.yields fun ys s₂ hys h₂ =>
    yields_label fun l s₃ h₃ => yields_label fun l' s₄ h₄ => ?_
  refine .pure ⟨_, hq hxs hys l l', by simp, ?_⟩
  simpa [Listing.labels_plain, hchoice] using ((h₁.trans h₂).trans h₃).trans h₄

/-- The labels of a short circuit are taken before its operands, but they are put behind them. -/
theorem codes_shortCircuited (decisive : Int) (hx : Codes x Rx) (hy : Codes y Ry)
    (hq : ∀ {xs ys}, Rx xs → Ry ys → ∀ l l', Q (shortCircuited l l' decisive xs ys)) :
    Codes (freshBranch >>= fun l => freshBranch >>= fun l' => x >>= fun c => y >>= fun c' =>
      pure (shortCircuit l l' decisive c c')) Q := by
  intro s
  refine yields_label fun l s₁ h₁ => yields_label fun l' s₂ h₂ =>
    hx.yields fun xs s₃ hxs h₃ => hy.yields fun ys s₄ hys h₄ => ?_
  refine .pure ⟨_, hq hxs hys l l', code_shortCircuited .., ?_⟩
  rw [labels_shortCircuited]
  exact ((h₁.trans h₂).trans (h₃.trans h₄)).perm List.perm_append_comm

end Choices

/-! ### Constructs -/

/-- A clean name stands for a value, so generation takes the branch that reads it. -/
theorem codes_ident {id : NodeId} {name : Name} (h : (ident id name).Checked t env) :
    Codes ((ident id name).gen t mem) ((ident id name).Coded t mem) := by
  obtain ⟨e, -, huse, hk⟩ := h.ident
  rw [gen, Tables.use_eq huse, pure_bind, if_pos hk]
  exact .pure (.ident huse) (code_readValue ..) (labels_readValue ..)

section Calls

variable {id : NodeId} {args : List Expr} {span : Span}

/-- What is called has a signature, so it is no class and generation does not fail. -/
theorem codes_call {callee : Name} (hf : env.Fits t) (h : (call id callee args span).Checked t env)
    (hcodes : ∀ a ∈ args, a.Checked t env → Codes (a.gen t mem) (a.Coded t mem)) :
    Codes ((call id callee args span).gen t mem) ((call id callee args span).Coded t mem) := by
  obtain ⟨e, sig, he, huse, hty, hargs, -⟩ := h.call
  have hk : e.kind ≠ .cls := by
    intro hk
    obtain ⟨c, l, hc, -⟩ := (hf.lookup? he).cls hk
    rw [hty] at hc
    cases hc
  rw [gen, Tables.use_eq huse, pure_bind, if_neg hk]
  intro s
  refine (codes_genLastFirst fun a ha => hcodes a ha (hargs a ha)).yields fun ls s₁ hls h₁ => ?_
  obtain ⟨codes, hcodes, rfl⟩ := hls
  refine .pure ⟨_, .call huse hcodes, by simp [walk], ?_⟩
  simpa [Listing.labels_cons, labels_walk, Listing.labels_plain, placed_callEntry, Instruction.placed?] using h₁

/-- The tables have a class with a layout for a clean `new`, so neither lookup fails. -/
theorem codes_new {cls : Name} (hf : env.Fits t) (h : (new id cls args span).Checked t env)
    (hcodes : ∀ a ∈ args, a.Checked t env → Codes (a.gen t mem) (a.Coded t mem)) :
    Codes ((new id cls args span).gen t mem) ((new id cls args span).Coded t mem) := by
  obtain ⟨e, c, l, -, huse, hc, hl, hargs, -⟩ := h.new hf
  rw [gen, Tables.use_eq huse, pure_bind, hc, Option.bind_some, hl, orFail_some, pure_bind]
  intro s
  refine (codes_genFirstLast fun a ha => hcodes a ha (hargs a ha)).yields fun ls s₁ hls h₁ => ?_
  obtain ⟨codes, hcodes, rfl⟩ := hls
  refine .pure ⟨_, .new huse hc hl hcodes, by simp, ?_⟩
  simpa [Listing.labels_ending, placed_newObject] using h₁

/-- A clean method call has been resolved, so its object and its method are found. -/
theorem codes_methodCall {object method : Name} (hf : env.Fits t)
    (h : (methodCall id object method args span).Checked t env)
    (hcodes : ∀ a ∈ args, a.Checked t env → Codes (a.gen t mem) (a.Coded t mem)) :
    Codes ((methodCall id object method args span).gen t mem)
      ((methodCall id object method args span).Coded t mem) := by
  obtain ⟨e, c, m, sig, -, -, -, -, -, hcall, hargs, -⟩ := h.methodCall hf
  rw [gen, Tables.methodCall_eq hcall, pure_bind]
  intro s
  refine (codes_genLastFirst fun a ha => hcodes a ha (hargs a ha)).yields fun ls s₁ hls h₁ => ?_
  obtain ⟨codes, hcodes, rfl⟩ := hls
  refine .pure ⟨_, .methodCall hcall hcodes, by simp [walk], ?_⟩
  simpa [Listing.labels_cons, labels_walk, Listing.labels_plain, loadAt, dispatchCall,
    Instruction.placed?] using h₁

end Calls

/-- `a >= b` is `b <= a`, so only there the right operand comes first. -/
theorem codes_binary {left right : Expr} (hl : Codes (left.gen t mem) (left.Coded t mem))
    (hr : Codes (right.gen t mem) (right.Coded t mem)) (op : BinaryOp) (span : Span) :
    Codes ((binary op left right span).gen t mem) ((binary op left right span).Coded t mem) := by
  cases op with
  | add | sub | mul | div =>
    intro s
    refine hl.yields fun ls s₁ hls h₁ => hr.yields fun rs s₂ hrs h₂ => ?_
    refine .pure ⟨_, .arith rfl hls hrs, by simp, ?_⟩
    simpa [Listing.labels_cons, Instruction.placed?] using h₁.trans h₂
  | equal => exact codes_compared hl hr (fun _ _ => rfl) fun hls hrs l l' => .equal l l' hls hrs
  | lessEqual => exact codes_compared hl hr (fun _ _ => rfl) fun hls hrs l l' => .lessEqual l l' hls hrs
  | greaterEqual => exact codes_compared hr hl (fun _ _ => rfl) fun hrs hls l l' => .greaterEqual l l' hls hrs
  | and => exact codes_shortCircuited 0 hl hr fun hls hrs l l' => .and l l' hls hrs
  | or => exact codes_shortCircuited 1 hl hr fun hls hrs l l' => .or l l' hls hrs

theorem codes_unary {operand : Expr} (h : Codes (operand.gen t mem) (operand.Coded t mem)) (op : UnaryOp)
    (span : Span) : Codes ((unary op operand span).gen t mem) ((unary op operand span).Coded t mem) := by
  cases op with
  | not =>
    intro s
    refine h.yields fun ls s₁ hls h₁ => yields_label fun l s₂ h₂ => yields_label fun l' s₃ h₃ => ?_
    refine .pure ⟨_, .not l l' hls, by simp, ?_⟩
    simpa [Listing.labels_cons, select, Instruction.placed?] using (h₁.trans h₂).trans h₃

/-- The labels of a conditional are taken first. One of them is put between the branches, the other one at the
end. -/
theorem codes_cond {condition thenExpr elseExpr : Expr}
    (hc : Codes (condition.gen t mem) (condition.Coded t mem))
    (ht : Codes (thenExpr.gen t mem) (thenExpr.Coded t mem))
    (he : Codes (elseExpr.gen t mem) (elseExpr.Coded t mem)) (span : Span) :
    Codes ((cond condition thenExpr elseExpr span).gen t mem)
      ((cond condition thenExpr elseExpr span).Coded t mem) := by
  intro s
  refine yields_label fun l s₁ h₁ => yields_label fun l' s₂ h₂ =>
    hc.yields fun cs s₃ hcs h₃ => he.yields fun es s₄ hes h₄ => ht.yields fun ts s₅ hts h₅ => ?_
  refine .pure ⟨_, .cond l l' hcs hts hes, by simp [Code.cond], ?_⟩
  have hall := (h₁.trans h₂).trans ((h₃.trans h₄).trans h₅)
  refine hall.perm (List.perm_iff_count.2 fun x => ?_)
  simp only [Listing.labels_append, Listing.labels_plain, Instruction.placed?, List.filterMap_cons,
    List.filterMap_nil, List.count_append, List.count_nil]
  omega

theorem codes_print {value : Expr} (h : Codes (value.gen t mem) (value.Coded t mem)) (span : Span) :
    Codes ((print value span).gen t mem) ((print value span).Coded t mem) := by
  intro s
  refine h.yields fun ls s₁ hls h₁ => ?_
  refine .pure ⟨_, .print hls, by simp, ?_⟩
  simpa [Listing.labels_cons, Instruction.placed?] using h₁

/-- The code that is generated for a clean expression is its code. -/
theorem Checked.codes (hf : env.Fits t) {e : Expr} (h : e.Checked t env) :
    Codes (e.gen t mem) (e.Coded t mem) := by
  induction e using Expr.induction with
  | literal value span => exact .pure .literal (code_plain _) rfl
  | ident id name => exact codes_ident h
  | call id callee args span ih => exact codes_call hf h ih
  | new id cls args span ih => exact codes_new hf h ih
  | methodCall id object method args span ih => exact codes_methodCall hf h ih
  | binary op left right span ihl ihr =>
    obtain ⟨hl, hr, -⟩ := h.binary
    exact codes_binary (ihl hl) (ihr hr) op span
  | unary op operand span ih => exact codes_unary (ih h.unary.1) op span
  | cond condition thenExpr elseExpr span ihc iht ihe =>
    obtain ⟨hc, ht, he, -⟩ := h.cond
    exact codes_cond (ihc hc) (iht ht) (ihe he) span
  | print value span ih => exact codes_print (ih h.print) span

end Expr

/-! ## Functions -/

/-- A step of generation for a tree `R` adds functions to the unit, and with them in place its result is the
code of the tree. -/
def Decl.Codes (x : Gen Code) (s : GenState)
    (R : (Label → Listing → Prop) → (ClassId → Option (List Label)) → Listing → Prop) : Prop :=
  Yields x s fun c s' => ∃ functions ls,
    (∀ (At : Label → Listing → Prop) dispatch, (∀ f ∈ functions, At f.1 f.2) → R At dispatch ls) ∧
    ls.map (·.instruction) = c ∧
    Emits s (.ofFunctions functions) (ls.unit.labels ++ (Listing.ofFunctions functions).unit.labels) s'

/-- The same of a step that adds a function under a given label. -/
def FunDecl.Codes (x : Gen Unit) (entry : Label) (s : GenState)
    (R : (Label → Listing → Prop) → (ClassId → Option (List Label)) → Listing → Prop) : Prop :=
  Yields x s fun _ s' => ∃ functions ls,
    (∀ (At : Label → Listing → Prop) dispatch, (∀ f ∈ functions, At f.1 f.2) → R At dispatch ls) ∧
    Emits s (.ofFunctions (functions ++ [(entry, ls)]))
      ((Listing.ofFunctions functions).unit.labels ++ ls.unit.labels) s'

/-- Every clean declaration has an entry, so the words of a frame can be counted before its code is generated. -/
theorem Decl.CheckedAll.yields_localWords (ht : t.classes.Lineal) :
    ∀ {ds : List Decl} {env : Env}, Decl.CheckedAll t env ds → ∀ s,
      Yields (t.localWords ds) s fun n s' => n = t.frameWords ds ∧ s' = s
  | [], _, _, _ => .pure ⟨rfl, rfl⟩
  | d :: ds, env, h, s => by
    obtain ⟨hd, hds⟩ := h.cons ht
    obtain ⟨e, he⟩ := hd.entry ht
    rw [Tables.localWords, Tables.declaration_eq he, pure_bind]
    refine .bind ((yields_localWords ht hds s).mono fun n s' hn => .pure ?_)
    obtain ⟨rfl, rfl⟩ := hn
    exact ⟨by simp [Tables.frameWords, he], rfl⟩

/-- Adding a function never fails; its block goes behind those that are finished. -/
theorem Gen.yields_addFunction (entry : Label) (ls : Listing) (s : GenState) :
    Yields (addFunction entry (ls.map (·.instruction))) s fun _ s' =>
      Emits s (.ofFunctions [(entry, ls)]) [] s' := by
  refine ⟨_, _, rfl, rfl, ?_, .refl _⟩
  change (s.emitter.addFunction entry _).functions = _
  rw [Emitter.addFunction_eq]
  simp [Listing.unit, Listing.ofFunctions]

/-- From a function to its declaration: the label is taken first, the block is added, and what stands in its
place is a function value. -/
theorem Decl.codes_func {f : FunDecl}
    (h : ∀ entry s, FunDecl.Codes (f.gen t mem entry) entry s fun At dispatch ls =>
      f.Coded t mem At dispatch ls) (s : GenState) :
    Decl.Codes ((Decl.func f).gen t mem) s fun At dispatch ls =>
      (Decl.func f).Coded t mem At dispatch ls := by
  rw [Decl.gen]
  refine .bind ((yields_freshFunction s).mono fun entry s₁ he₁ => .bind ?_)
  refine (h entry s₁).mono fun _ s₂ h₂ => .pure ?_
  obtain ⟨functions, ls, hls, he₂⟩ := h₂
  refine ⟨functions ++ [(entry, ls)], _, fun At dispatch hat => ?_, code_plain _, ?_⟩
  · obtain ⟨hfs, hf⟩ := List.forall_mem_append.1 hat
    exact .func (hf _ (List.mem_singleton_self _)) (hls At dispatch hfs)
  · refine (he₁.trans he₂).perm (List.perm_iff_count.2 fun x => ?_)
    simp [Listing.ofFunctions, Listing.labels_cons, Instruction.placed?, List.count_cons]
    omega

mutual

/-- Declarations inside functions. There are no classes among them, which is why `env.level ≠ 0` is needed and
why dispatch tables do not matter here. -/
theorem Decl.Checked.codes (ht : t.classes.Lineal) {env : Env} (hl : env.level ≠ 0) :
    (d : Decl) → d.Checked t env → ∀ s, Decl.Codes (d.gen t mem) s fun At dispatch ls =>
      d.Coded t mem At dispatch ls
  | .var _ _ _ init _, h, s => by
    refine (h.var.1.codes h.fits s).mono fun c s' hc => ?_
    obtain ⟨ls, hls, rfl, he⟩ := hc
    exact ⟨[], ls, fun _ _ _ => .var hls, rfl, by simpa using he⟩
  | .func f, h, s => Decl.codes_func (fun entry s => FunDecl.Checked.codes ht f h.func.2.2 entry s) s
  | .cls c, h, _ => by
    obtain ⟨s, final, hc⟩ := h.cls ht
    exact absurd hc.level hl

/-- A function with all the functions in it. The inner ones are added first, so their listings come first. -/
theorem FunDecl.Checked.codes (ht : t.classes.Lineal) {env : Env} {sig : Signature} :
    (f : FunDecl) → f.Checked t env sig → (entry : Label) → ∀ s,
      FunDecl.Codes (f.gen t mem entry) entry s fun At dispatch ls => f.Coded t mem At dispatch ls
  | ⟨id, name, params, ret, decls, body, span⟩, h, entry, s => by
    obtain ⟨e, he, hty⟩ := h.entry
    obtain ⟨-, hdecls, hfits, hbody, -⟩ := h.body ht
    have hl := FunDecl.level_inner_ne_zero ⟨id, name, params, ret, decls, body, span⟩ h.fits sig.params
    rw [FunDecl.gen, h.functionSignature name span, pure_bind]
    refine .bind ((hdecls.yields_localWords ht s).mono fun n s₁ h₁ => .bind ?_)
    obtain ⟨rfl, rfl⟩ := h₁
    refine (Decl.CheckedAll.codes ht hl decls hdecls _).mono fun c s₂ h₂ => ?_
    obtain ⟨functions, ds, hds, rfl, he₂⟩ := h₂
    refine (hbody.codes hfits).yields fun bs s₃ hbs he₃ => ?_
    have hcode : prologue ++ ds.map (·.instruction) ++ bs.map (·.instruction) ++
        epilogue sig.paramWords (t.frameWords decls) sig.returnsFunction =
          List.map (fun l : Line => l.instruction) (⟨.copyFp, some (.entered id)⟩ :: ⟨.load .ra, none⟩ :: ds ++ bs ++
            plain (epilogue sig.paramWords (t.frameWords decls) sig.returnsFunction)) := by
      simp [prologue]
    rw [hcode]
    refine (Gen.yields_addFunction entry _ s₃).mono fun _ s₄ he₄ => ?_
    refine ⟨functions, _, fun At dispatch hat => .mk he hty (hds At dispatch hat) hbs, ?_⟩
    have hall := (he₂.trans he₃).trans he₄
    rw [List.append_nil, ← Listing.ofFunctions_append] at hall
    refine hall.perm (List.perm_iff_count.2 fun x => ?_)
    simp [Listing.labels_cons, Listing.labels_plain, placed_epilogue, Instruction.placed?]
    omega

/-- A block of declarations, one after the other. The blocks of later functions come behind those of earlier
ones. -/
theorem Decl.CheckedAll.codes (ht : t.classes.Lineal) {env : Env} (hl : env.level ≠ 0) :
    (ds : List Decl) → Decl.CheckedAll t env ds → ∀ s,
      Decl.Codes (Decl.genAll t mem ds) s fun At dispatch ls => Decl.CodedAll t mem At dispatch ds ls
  | [], _, s => .pure ⟨[], [], fun _ _ _ => .nil, rfl, .refl s⟩
  | d :: ds, h, s => by
    obtain ⟨hd, hds⟩ := h.cons ht
    have hl' : (d.bind env).1.level ≠ 0 := by rwa [Decl.level_bind]
    refine .bind ((Decl.Checked.codes ht hl d hd s).mono fun c s₁ h₁ => .bind ?_)
    obtain ⟨fs, ls, hls, rfl, he₁⟩ := h₁
    refine (Decl.CheckedAll.codes ht hl' ds hds s₁).mono fun c s₂ h₂ => .pure ?_
    obtain ⟨fs', lss, hlss, rfl, he₂⟩ := h₂
    refine ⟨fs ++ fs', ls ++ lss, fun At dispatch hat => ?_, by simp, ?_⟩
    · obtain ⟨hat, hat'⟩ := List.forall_mem_append.1 hat
      exact .cons (hls At dispatch hat) (hlss At dispatch hat')
    · rw [Listing.ofFunctions_append]
      refine (he₁.trans he₂).perm (List.perm_iff_count.2 fun x => ?_)
      simp only [Listing.labels_append, List.count_append]
      omega

end

/-! ## Classes -/

/-- From a step that yields a result to the result that a run of it has. -/
theorem Gen.Yields.of_run {α : Type} {x : Gen α} {s s' : GenState} {a : α} {Q : α → GenState → Prop}
    (h : Yields x s Q) (hrun : x.run s = .ok (a, s')) : Q a s' := by
  obtain ⟨a', s'', hx, hq⟩ := h
  cases hrun.symm.trans hx
  exact hq

/-- The methods of a class, by induction on them. The dispatch table grows along as it does in
`FunDecl.CodedAll`, and only classes that are finished have tables in the state. -/
theorem ClassBody.Checked.coded_genAll (ht : t.classes.Lineal) {s : ClassSite} {final : Class}
    {fs : List String} (methods : List FunDecl) :
    ∀ {b : ClassBody} {cur : Class} {ms : List String} {table table' : List Label} {st st' : GenState},
      b.Checked t s final cur fs ms methods →
      (FunDecl.genAll t mem table methods).run st = .ok (table', st') →
      ∃ functions, (∀ (At : Label → Listing → Prop) dispatch, (∀ f ∈ functions, At f.1 f.2) →
          FunDecl.CodedAll t mem At dispatch table methods table') ∧
        st'.dispatch = st.dispatch ∧
        Emits st (.ofFunctions functions) (Listing.ofFunctions functions).unit.labels st' := by
  induction methods with
  | nil =>
    intro b cur ms table table' st st' _ hrun
    cases hrun
    exact ⟨[], fun _ _ _ => .nil, rfl, .refl st⟩
  | cons m methods ih =>
    intro b cur ms table table' st st' h hrun
    obtain ⟨b', cur', h', -, hm, e, he, -, -, -⟩ := h.cons ht
    rw [FunDecl.genAll, Tables.declaration_eq he, pure_bind] at hrun
    obtain ⟨entry, s₁, h₁, hrun₁⟩ := bind_eq_ok.1 hrun
    obtain ⟨_, s₂, h₂, hrun₂⟩ := bind_eq_ok.1 hrun₁
    obtain ⟨table₁, s₃, h₃, hrun₃⟩ := bind_eq_ok.1 hrun₂
    obtain ⟨hplace, hs⟩ := orFail_eq_ok.1 h₃
    -- In order: the label of the method, its code with the functions in it, its place in the table, the other
    -- methods.
    have he₁ := (yields_freshFunction st).of_run h₁
    have hd₁ := (keeps_freshFunction st).of_run h₁
    have hd₂ := (FunDecl.Checked.keeps_gen ht m hm entry s₁).of_run h₂
    obtain ⟨functions, ls, hls, he₂⟩ := (FunDecl.Checked.codes ht m hm entry s₁).of_run h₂
    obtain ⟨functions', hall, hd₃, he₃⟩ := ih h' hrun₃
    rw [show s₃ = s₂ from hs] at hd₃ he₃
    refine ⟨functions ++ [(entry, ls)] ++ functions', fun At dispatch hat => ?_, ?_, ?_⟩
    · obtain ⟨hfs, hat'⟩ := List.forall_mem_append.1 hat
      obtain ⟨hfs, hf⟩ := List.forall_mem_append.1 hfs
      exact .cons he (hf _ (List.mem_singleton_self _)) (hls At dispatch hfs) hplace
        (hall At dispatch hat')
    · exact hd₃.trans (hd₂.trans hd₁)
    · rw [Listing.ofFunctions_append _ functions']
      refine ((he₁.trans he₂).trans he₃).perm (List.perm_iff_count.2 fun x => ?_)
      simp [Listing.ofFunctions, Listing.labels_cons, Instruction.placed?, List.count_cons]
      omega

/-- Only classes up to a position have dispatch tables. -/
def GenState.DispatchesBelow (n : Nat) (st : GenState) : Prop :=
  ∀ (c : Nat) (table : List Label), st.dispatch[c]? = some table → c < n

/-- Dispatch tables stay what they are. -/
def GenState.DispatchesIn (st : GenState) (dispatch : ClassId → Option (List Label)) : Prop :=
  ∀ (c : Nat) (table : List Label), st.dispatch[c]? = some table → dispatch c = some table

/-- The next class gets its own table and leaves those before it alone. -/
theorem GenState.DispatchesBelow.dispatchesIn_insert {n : Nat} {st : GenState} (h : st.DispatchesBelow n)
    (table : List Label) : st.DispatchesIn fun c => (st.dispatch.insert n table)[c]? := by
  intro c tb hc
  have := h c tb hc
  change (st.dispatch.insert n table)[c]? = some tb
  rw [Std.TreeMap.getElem?_insert, if_neg (by simp; omega), hc]

/-- With the table of the next class, one more position may have a table. -/
theorem GenState.DispatchesBelow.insert {n : Nat} {st : GenState} (h : st.DispatchesBelow n)
    (table : List Label) : GenState.DispatchesBelow (n + 1) { st with dispatch := st.dispatch.insert n table } := by
  intro c tb hc
  rw [Std.TreeMap.getElem?_insert] at hc
  by_cases heq : n = c
  · omega
  · rw [if_neg (by simpa using heq)] at hc
    have := h c tb hc
    omega

/-- The class of a superclass name comes before the class. -/
theorem ClassDecl.Checked.parent_lt (ht : t.classes.Lineal) {env' : Env} {c : ClassDecl} {s : ClassSite}
    {final : Class} (h : c.Checked t env env' s final) {p : ClassId}
    (hp : final.layout.superclass = some p) : p < s.old.length := by
  have hsup := (ClassLayout.head_eq_iff.1 (h.head ht)).2.2.1
  have hsuper := h.super
  generalize c.superclass = sup at hsuper
  cases hsuper with
  | root hs _ _ =>
    rw [hsup, hs] at hp
    cases hp
  | @sub sup e p' parent he hp' hlt hc hlaid hs =>
    have hlp : t.classes.layout? p' = some parent.layout := by
      rw [ClassTable.layout?, hc]
      rfl
    rw [hsup, hs] at hp
    cases (congrArg some (ht.id_eq hlp)).symm.trans hp
    exact hlt

/-- Where the dispatch table that a class starts with comes from. -/
theorem Tables.inheritedDispatch_eq_ok {cls : ClassId} {l : ClassLayout} {name : Name} {span : Span}
    {st st' : GenState} {table : List Label} (hl : t.classes.layout? cls = some l)
    (h : (t.inheritedDispatch cls name span).run st = .ok (table, st')) :
    st' = st ∧ ((l.superclass = none ∧ table = []) ∨
      ∃ p, l.superclass = some p ∧ st.dispatch[p]? = some table) := by
  rw [Tables.inheritedDispatch, hl, Option.bind_some] at h
  cases hp : l.superclass with
  | none =>
    rw [hp] at h
    cases h
    exact ⟨rfl, .inl ⟨rfl, rfl⟩⟩
  | some p =>
    rw [hp] at h
    obtain ⟨table?, s₀, h₀, h⟩ := bind_eq_ok.1 h
    cases h₀
    obtain ⟨hsome, rfl⟩ := orFail_eq_ok.1 h
    exact ⟨rfl, .inr ⟨p, rfl, hsome⟩⟩

/-- From one state to another a declaration of the outermost block yields its code. The next class is at `n` then. -/
def Decl.CodedFrom (t : Tables) (mem : Int) (d : Decl) (n : Nat) (st : GenState) (c : Code) (st' : GenState) : Prop :=
  st'.DispatchesBelow n ∧ st.DispatchesIn (fun c => st'.dispatch[c]?) ∧
    ∃ functions ls, (∀ (At : Label → Listing → Prop) dispatch, (∀ f ∈ functions, At f.1 f.2) →
        st'.DispatchesIn dispatch → d.Coded t mem At dispatch ls) ∧
      ls.map (·.instruction) = c ∧
      Emits st (.ofFunctions functions) (ls.unit.labels ++ (Listing.ofFunctions functions).unit.labels) st'

/-- Only classes have dispatch tables, so other declarations leave all of them as they are. -/
theorem Decl.CodedFrom.of_dispatch_eq {d : Decl} {n : Nat} {st st' : GenState}
    (functions : List (Label × Listing)) {ls : Listing} (hst : st.DispatchesBelow n) (hd : st'.dispatch = st.dispatch)
    (hls : ∀ (At : Label → Listing → Prop) dispatch, (∀ f ∈ functions, At f.1 f.2) → d.Coded t mem At dispatch ls)
    (he : Emits st (.ofFunctions functions) (ls.unit.labels ++ (Listing.ofFunctions functions).unit.labels) st') :
    d.CodedFrom t mem n st (ls.map (·.instruction)) st' := by
  refine ⟨?_, ?_, functions, ls, fun At dispatch hat _ => hls At dispatch hat, rfl, he⟩
  · rwa [GenState.DispatchesBelow, hd]
  · rw [GenState.DispatchesIn, hd]
    exact fun _ _ h => h

/-- A class puts its methods into the table it inherits. The table of its superclass is there already, and it
stays what it is. -/
theorem ClassDecl.Checked.coded (ht : t.classes.Lineal) {env' : Env} {cls : ClassDecl} {s : ClassSite}
    {final : Class} (hc : cls.Checked t env env' s final) {c : Code} {st st' : GenState}
    (hst : st.DispatchesBelow s.old.length) (hrun : ((Decl.cls cls).gen t mem).run st = .ok (c, st')) :
    (Decl.cls cls).CodedFrom t mem (s.old.length + 1) st c st' := by
  have hl : t.classes.layout? s.old.length = some final.layout := by
    rw [ClassTable.layout?, hc.class?]
    rfl
  have hclass : (⟨.cls, env.level, env.nextLocal, .cls s.old.length⟩ : Entry).declaredClass? =
      some s.old.length := rfl
  have hdecl := hc.declares.entry
  obtain ⟨b, cur, hm, -, -⟩ := hc.members
  obtain ⟨id, name, superclass, fields, methods, span⟩ := cls
  rw [Decl.gen, Tables.declaration_eq hdecl, pure_bind, hclass, orFail_some, pure_bind] at hrun
  obtain ⟨inherited, s₁, h₁, hrun⟩ := bind_eq_ok.1 hrun
  obtain ⟨table, s₂, h₂, hrun⟩ := bind_eq_ok.1 hrun
  cases hrun
  obtain ⟨functions, hall, hd, he⟩ := hm.coded_genAll ht methods h₂
  obtain ⟨rfl, hinh⟩ := Tables.inheritedDispatch_eq_ok hl h₁
  have hst₂ : s₂.DispatchesBelow s.old.length := by rwa [GenState.DispatchesBelow, hd]
  -- The table of the class is added last, so the tables that its methods have seen are still there.
  have hkeep : s₁.DispatchesIn fun c => (s₂.dispatch.insert s.old.length table)[c]? :=
    fun c tb hc => hst₂.dispatchesIn_insert table c tb (hd ▸ hc)
  refine ⟨hst₂.insert table, hkeep, functions, _, fun At dispatch hat hin => ?_, code_plain _, ?_⟩
  · have hself : (s₂.dispatch.insert s.old.length table)[s.old.length]? = some table := by simp
    refine .cls hdecl hclass ?_ (hall At dispatch hat) (hin _ _ hself)
    rw [Tables.inheritedTable?, hl, Option.bind_some]
    obtain ⟨hp, rfl⟩ | ⟨p, hp, htable⟩ := hinh
    · rw [hp]
    · rw [hp]
      exact hin _ _ (hkeep _ _ htable)
  · rw [Listing.labels_plain, placed_dispatchTable]
    exact ⟨he.code, he.functions, he.labels⟩

/-- Generated code of a declaration of the outermost block is its code. -/
theorem Decl.Checked.coded (ht : t.classes.Lineal) {d : Decl} (h : d.Checked t env) {c : Code}
    {st st' : GenState} (hst : st.DispatchesBelow env.classes.classes.length)
    (hrun : (d.gen t mem).run st = .ok (c, st')) :
    d.CodedFrom t mem (d.bind env).1.classes.classes.length st c st' := by
  cases d with
  | var id name type init span =>
    obtain ⟨hinit, -, -, hsame⟩ := h.var
    have hd := (hinit.keeps_gen h.fits st).of_run hrun
    obtain ⟨ls, hls, rfl, he⟩ := (hinit.codes h.fits st).of_run hrun
    rw [hsame]
    exact .of_dispatch_eq [] hst hd (fun _ _ _ => .var hls) (by simpa using he)
  | func f =>
    obtain ⟨-, hsame, hf⟩ := h.func
    have hk : Keeps ((Decl.func f).gen t mem) := by
      rw [Decl.gen]
      exact keeps_freshFunction.bind fun entry => (hf.keeps_gen ht f entry).bind fun _ => .pure _
    have hd := (hk st).of_run hrun
    obtain ⟨functions, ls, hls, rfl, he⟩ :=
      (Decl.codes_func (fun entry s => hf.codes ht f entry s) st).of_run hrun
    rw [hsame]
    exact .of_dispatch_eq functions hst hd hls he
  | cls c =>
    obtain ⟨s, final, hc⟩ := h.cls ht
    have hlen : ((Decl.cls c).bind env).1.classes.classes.length = s.old.length + 1 := by
      rw [hc.after]
      simp
    rw [hlen]
    rw [← hc.old] at hst
    exact hc.coded ht hst hrun

/-- The outermost block, by induction on it. What a declaration needs to know of dispatch tables is what all
later ones leave as it is, so the tables at the end of the block serve for all of it. -/
theorem Decl.CheckedAll.coded (ht : t.classes.Lineal) (ds : List Decl) :
    ∀ {env : Env} {c : Code} {st st' : GenState}, Decl.CheckedAll t env ds →
      st.DispatchesBelow env.classes.classes.length → (Decl.genAll t mem ds).run st = .ok (c, st') →
      st.DispatchesIn (fun c => st'.dispatch[c]?) ∧
      ∃ functions ls, (∀ (At : Label → Listing → Prop) dispatch, (∀ f ∈ functions, At f.1 f.2) →
          st'.DispatchesIn dispatch → Decl.CodedAll t mem At dispatch ds ls) ∧
        ls.map (·.instruction) = c ∧
        Emits st (.ofFunctions functions)
          (ls.unit.labels ++ (Listing.ofFunctions functions).unit.labels) st' := by
  induction ds with
  | nil =>
    intro env c st st' _ _ hrun
    cases hrun
    exact ⟨fun _ _ h => h, [], [], fun _ _ _ _ => .nil, rfl, .refl st⟩
  | cons d ds ih =>
    intro env c st st' h hst hrun
    obtain ⟨hd, hds⟩ := h.cons ht
    rw [Decl.genAll] at hrun
    obtain ⟨c₁, s₁, h₁, hrun₁⟩ := bind_eq_ok.1 hrun
    obtain ⟨c₂, s₂, h₂, hrun₂⟩ := bind_eq_ok.1 hrun₁
    cases hrun₂
    obtain ⟨hst₁, hin₁, fs, ls, hls, rfl, he₁⟩ := hd.coded ht hst h₁
    obtain ⟨hin₂, fs', lss, hlss, rfl, he₂⟩ := ih hds hst₁ h₂
    refine ⟨fun c tb hc => hin₂ c tb (hin₁ c tb hc), fs ++ fs', ls ++ lss, fun At dispatch hat hin => ?_,
      by simp, ?_⟩
    · obtain ⟨hat, hat'⟩ := List.forall_mem_append.1 hat
      exact .cons (hls At dispatch hat fun c tb hc => hin c tb (hin₂ c tb hc)) (hlss At dispatch hat' hin)
    · rw [Listing.ofFunctions_append]
      refine (he₁.trans he₂).perm (List.perm_iff_count.2 fun x => ?_)
      simp only [Listing.labels_append, List.count_append]
      omega

/-! ## Programs -/

/-- A unit is what the declarations and the body of a program yield. -/
theorem Program.generate_eq_ok {p : Program} {u : CodeUnit} (h : p.generate t mem = .ok u) :
    ∃ ds s₁ body s₂, (Decl.genAll t mem p.decls).run {} = .ok (ds, s₁) ∧
      (p.body.gen t mem).run s₁ = .ok (body, s₂) ∧
      u.code = s₂.emitter.code ++ ((if p.hasDecls then [.push 0] else []) ++ ds ++ body ++ [.halt]) ++
        s₂.emitter.functions := by
  rw [Program.generate] at h
  cases hrun : (p.gen t mem).run {} with
  | error e =>
    rw [hrun] at h
    cases h
  | ok r =>
  obtain ⟨main, st⟩ := r
  rw [hrun] at h
  cases h
  rw [Program.gen] at hrun
  obtain ⟨ds, s₁, h₁, hrun₁⟩ := bind_eq_ok.1 hrun
  obtain ⟨body, s₂, h₂, hrun₂⟩ := bind_eq_ok.1 hrun₁
  cases hrun₂
  exact ⟨ds, s₁, body, st, h₁, h₂, rfl⟩

/-- The unit of a clean program is its listing, where no label is placed twice. -/
theorem Program.Checked.exists_listed {p : Program} (h : p.Checked t) {u : CodeUnit}
    (hu : p.generate t mem = .ok u) :
    ∃ ls, p.Listed t mem ls ∧ ls.unit = u ∧ ls.unit.labels.Nodup := by
  obtain ⟨c₁, s₁, c₂, s₂, h₁, h₂, hu⟩ := generate_eq_ok hu
  have hempty : GenState.DispatchesBelow 0 {} := by
    intro c table hc
    simp at hc
  obtain ⟨-, fs, ds, hds, rfl, he₁⟩ := h.decls.coded h.lineal p.decls hempty h₁
  obtain ⟨bs, hbs, rfl, he₂⟩ := (h.body.codes h.fits s₁).of_run h₂
  refine ⟨_, ⟨fs, fun c => s₁.dispatch[c]?, ds, bs, hds _ _ (fun _ hf => hf) fun _ _ h => h, hbs, rfl⟩,
    ?_, ?_⟩
  · have hcode := he₂.code.trans he₁.code
    have hfuns := (he₁.trans he₂).functions
    simp only [List.append_nil] at hfuns
    obtain ⟨code⟩ := u
    dsimp only at hu
    rw [hu, hcode, hfuns]
    simp [Listing.unit]
  · refine (List.perm_iff_count.2 fun x => ?_).nodup_iff.1 (he₁.trans he₂).labels.nodup
    have hpush : (plain (if p.hasDecls then [.push 0] else [])).unit.labels = [] := by
      split <;> rfl
    simp only [Listing.labels_append, hpush, List.count_append]
    simp [Listing.labels_cons, Instruction.placed?]
    omega

end ObjLet
