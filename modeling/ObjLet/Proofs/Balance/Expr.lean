import ObjLet.Proofs.Balance.Sequence
import ObjLet.Proofs.Code.Listed

/-!
# Heights in the code of expressions

The code of a clean expression puts the words of its type on the stack (`Expr.Checked.leads`). Subtyping and
joins keep the number of words, so it does not matter whether words are counted by the type of a value or by
that of the place it goes to.
-/

namespace ObjLet

open Code

variable {t : Tables} {env : Env} {mem : Int}

/-! ## Callees -/

namespace Expr

mutual

/-- The signatures of what an expression calls, in the order in which its code calls. -/
def callees (t : Tables) : Expr → List Signature
  | literal _ _ | ident _ _ => []
  | call id _ args _ =>
    calleesLastFirst t args ++ ((t.resolutions.use? id).bind (Ty.signature? ·.entry.ty)).toList
  | new _ _ args _ => calleesFirstLast t args
  | methodCall id _ _ args _ => calleesLastFirst t args ++ (t.methodSignature? id).toList
  | binary .greaterEqual left right _ => callees t right ++ callees t left
  | binary _ left right _ => callees t left ++ callees t right
  | unary _ operand _ => callees t operand
  | cond condition thenExpr elseExpr _ =>
    callees t condition ++ (callees t elseExpr ++ callees t thenExpr)
  | print value _ => callees t value

def calleesFirstLast (t : Tables) : List Expr → List Signature
  | [] => []
  | e :: es => callees t e ++ calleesFirstLast t es

def calleesLastFirst (t : Tables) : List Expr → List Signature
  | [] => []
  | e :: es => calleesLastFirst t es ++ callees t e

end

end Expr

/-- Whatever is called has, or takes the place of, the signature that the call was checked with. -/
def Tables.Callable (t : Tables) (callees want : List Signature) : Prop :=
  List.Forall₂ (fun callee sig => t.classes.isSubtype callee.ty sig.ty) callees want

/-- Arguments have the width of the parameters they are passed to, so frames are of one size for all callers. -/
theorem ClassTable.totalWords_eq {u : ClassTable} {as bs : List Ty}
    (h : List.Forall₂ (fun a b => u.isSubtype a b) as bs) : TyOf.totalWords as = TyOf.totalWords bs := by
  induction h with
  | nil => rfl
  | cons h _ ih => rw [TyOf.totalWords, TyOf.totalWords, words_eq_of_isSubtype h, ih]

/-- A callee that may take the place of another has the same effect on the stack, so dynamic dispatch and
function values do not change heights. -/
theorem Tables.Callable.map_callEffect {callees want : List Signature} (h : t.Callable callees want) :
    callees.map Signature.callEffect = want.map Signature.callEffect := by
  induction h with
  | nil => rfl
  | cons h _ ih =>
    obtain ⟨hret, hparams⟩ := ClassTable.isSubtype_signature.1 h
    rw [List.map_cons, List.map_cons, ih, Signature.callEffect, Signature.callEffect, Signature.paramWords,
      Signature.paramWords, ClassTable.totalWords_eq hparams, ClassTable.words_eq_of_isSubtype hret]

/-! ## Code -/

namespace Expr

/-- Code of an expression that puts the words of a type on the stack. -/
def Leads (t : Tables) (e : Expr) (ls : Listing) (ty : Ty) : Prop :=
  Code.Leads (ls.map (·.instruction)) ((e.callees t).map Signature.callEffect) 0 ty.words

/-- What fits a place has as many words as the type of the place. -/
theorem Leads.fit {e : Expr} {ls : Listing} {ty want : Ty} (h : e.Leads t ls ty)
    (hs : t.classes.isSubtype ty want) : e.Leads t ls want := by
  rw [Leads, ← ClassTable.words_eq_of_isSubtype hs]
  exact h

/-- Any code of an expression puts the words of its type on the stack. This is shown of one construct at a time; what
is shown of a construct is assumed of its parts. -/
def Puts (t : Tables) (mem : Int) (e : Expr) : Prop :=
  ∀ ⦃ls : Listing⦄ ⦃ty : Ty⦄, e.Coded t mem ls → e.type? t = some ty → e.Leads t ls ty

/-- An operand puts the words of the type that it has to fit on the stack. -/
theorem Puts.operand {e : Expr} (h : e.Puts t mem) (hf : env.Fits t) (he : e.Checked t env) {ls : Listing} {want : Ty}
    (hc : e.Coded t mem ls) (hfit : ∀ ty, e.type? t = some ty → t.classes.isSubtype ty want) :
    e.Leads t ls want := by
  obtain ⟨ty, hty⟩ := he.exists_type hf
  exact (h hc hty).fit (hfit ty hty)

/-! ### Arguments -/

section Arguments

variable {args : List Expr} {codes : List Listing} {params : List Ty}

/-- The arguments of a call put the words of all parameters on the stack. -/
theorem leads_lastFirst (hf : env.Fits t) (hcodes : List.Forall₂ (Expr.Coded t mem) args codes)
    (hfit : ArgsFit t args params) (hargs : ∀ a ∈ args, a.Checked t env) (hputs : ∀ a ∈ args, a.Puts t mem) :
    Code.Leads (codes.reverse.flatten.map (·.instruction))
      ((calleesLastFirst t args).map Signature.callEffect) 0 (TyOf.totalWords params) := by
  induction hcodes generalizing params with
  | nil =>
    cases hfit
    exact .nil
  | @cons a ls args codes ha _ ih =>
    cases hfit with
    | @cons _ p _ params hp hps =>
    obtain ⟨hchecked, hchecked'⟩ := List.forall_mem_cons.1 hargs
    obtain ⟨hput, hputs'⟩ := List.forall_mem_cons.1 hputs
    have hrest := ih hps hchecked' hputs'
    have hall := hrest.seq (hput.operand hf hchecked ha hp) (TyOf.totalWords params) rfl
      (Nat.add_comm p.words (TyOf.totalWords params))
    rw [List.reverse_cons, List.flatten_append, List.map_append, List.flatten_singleton, calleesLastFirst,
      List.map_append, TyOf.totalWords]
    exact hall

/-- The arguments of `new` put the words of all fields on the stack. -/
theorem leads_firstLast (hf : env.Fits t) (hcodes : List.Forall₂ (Expr.Coded t mem) args codes)
    (hfit : ArgsFit t args params) (hargs : ∀ a ∈ args, a.Checked t env) (hputs : ∀ a ∈ args, a.Puts t mem) :
    Code.Leads (codes.flatten.map (·.instruction))
      ((calleesFirstLast t args).map Signature.callEffect) 0 (TyOf.totalWords params) := by
  induction hcodes generalizing params with
  | nil =>
    cases hfit
    exact .nil
  | @cons a ls args codes ha _ ih =>
    cases hfit with
    | @cons _ p _ params hp hps =>
    obtain ⟨hchecked, hchecked'⟩ := List.forall_mem_cons.1 hargs
    obtain ⟨hput, hputs'⟩ := List.forall_mem_cons.1 hputs
    have hall := (hput.operand hf hchecked ha hp).seq (ih hps hchecked' hputs') p.words rfl rfl
    rw [List.flatten_cons, List.map_append, calleesFirstLast, List.map_append, TyOf.totalWords]
    exact hall

end Arguments

/-- A call takes its arguments, with the control link below and a frame or an object above them. -/
theorem leads_call {args body : Code} {jumps : List Effect} {callee : Signature} (hops : Nat)
    (hargs : args.Leads jumps 0 callee.paramWords)
    (hbody : body.Leads [callee.callEffect] (callee.paramWords + 2) callee.ret.words) :
    Code.Leads (.load .fp :: args ++ frame hops ++ body) (jumps ++ [callee.callEffect]) 0
      callee.ret.words := by
  have hlink := Code.Leads.behind (c := [.load .fp]) (a := 0) (b := 1) rfl (hargs.lift 1)
  have hframe := hlink.seqPlain (leads_frame hops) (1 + callee.paramWords) rfl rfl
  have hall := hframe.seq hbody 0 (by omega) (Nat.zero_add _).symm
  exact hall

/-- A method and a function value are called by different code, with the same effect. -/
theorem leads_callEntry (entry : Entry) (callee : Signature) :
    (callEntry entry).Leads [callee.callEffect] (callee.paramWords + 2) callee.ret.words := by
  unfold callEntry
  split
  · exact leads_dispatchCall entry.offset callee
  · exact leads_valueCall entry.offset callee

/-- Operands and results of operators are single words. -/
theorem words_of_fitOperands {op : BinaryOp} {a b : Ty} {span : Span}
    (h : t.fitOperands op (some a) (some b) span = []) : a.words = 1 ∧ b.words = 1 := by
  have both : ∀ {want : Ty}, want.words = 1 →
      t.fit want (some a) (.operand op.text) span ++ t.fit want (some b) (.operand op.text) span = [] →
      a.words = 1 ∧ b.words = 1 := by
    intro want hw hfit
    rw [List.append_eq_nil_iff, Tables.fit_eq_nil, Tables.fit_eq_nil] at hfit
    rw [← hw]
    exact ⟨ClassTable.words_eq_of_isSubtype (hfit.1 a rfl), ClassTable.words_eq_of_isSubtype (hfit.2 b rfl)⟩
  cases op with
  | equal =>
    have hcompare : t.comparable a b = true := by
      by_contra hne
      simp [Tables.fitOperands, BinaryOp.operandType?, Tables.fitComparison, hne] at h
    simp only [Tables.comparable, Bool.and_eq_true, Bool.not_eq_true'] at hcompare
    obtain ⟨⟨ha, hb⟩, -⟩ := hcompare
    cases a <;> cases b <;> first | exact ⟨rfl, rfl⟩ | simp [TyOf.isArrow] at ha hb
  | _ => exact both rfl h

theorem words_resultType (op : BinaryOp) : op.resultType.words = 1 := by
  cases op <;> rfl

/-! ### Constructs -/

attribute [local simp] callees

theorem puts_literal (value : Literal) (span : Span) : (literal value span).Puts t mem := by
  intro ls ty hc hty
  cases hc
  cases hty
  cases value <;> exact Code.Leads.of_heightBehind? (c := [_]) rfl

/-- A function value is read as two words, any other value as one. -/
theorem puts_ident {id : NodeId} {name : Name} (h : (ident id name).Checked t env) :
    (ident id name).Puts t mem := by
  intro ls ty hc hty
  obtain ⟨entry, -, huse, hk⟩ := h.ident
  have hty' : entry.ty = ty := by simpa [type?, huse, hk] using hty
  cases hc with
  | ident huse' =>
    cases huse.symm.trans huse'
    rw [Leads, code_readValue, ← hty']
    exact leads_loadValue _ _ _

section Calls

variable {id : NodeId} {args : List Expr} {span : Span}

/-- The callee's signature is the one that the name was declared with. -/
theorem puts_call {callee : Name} (hf : env.Fits t) (h : (call id callee args span).Checked t env)
    (hputs : ∀ a ∈ args, a.Checked t env → a.Puts t mem) : (call id callee args span).Puts t mem := by
  intro ls ty hc hty
  obtain ⟨entry, sig, -, huse, hsig, hargs, hfit⟩ := h.call
  have hty' : sig.ret = ty := by simpa [type?, huse, hsig] using hty
  cases hc with
  | call huse' hcodes =>
    cases huse.symm.trans huse'
    have hlast := leads_lastFirst hf hcodes hfit hargs fun a ha => hputs a ha (hargs a ha)
    have hall := leads_call (Resolution.mk entry env.level).hops hlast (leads_callEntry entry sig)
    rw [Leads, ← hty']
    simpa [huse, hsig, walk] using hall

/-- The words of the fields go from the stack to the object, and its address is the value. -/
theorem puts_new {cls : Name} (hf : env.Fits t) (h : (new id cls args span).Checked t env)
    (hputs : ∀ a ∈ args, a.Checked t env → a.Puts t mem) : (new id cls args span).Puts t mem := by
  intro ls ty hc hty
  obtain ⟨entry, c, l, -, huse, hclass, hl, hargs, hfit⟩ := h.new hf
  have hty' : TyOf.ref c = ty := by simpa [type?, huse, hclass, hl] using hty
  cases hc with
  | new huse' hclass' hl' hcodes =>
    cases huse.symm.trans huse'
    cases hclass.symm.trans hclass'
    cases hl.symm.trans hl'
    have hfirst := leads_firstLast hf hcodes hfit hargs fun a ha => hputs a ha (hargs a ha)
    have hall := hfirst.seqPlain (leads_newObject l.fieldWords (mem + entry.offset)) 0 (Nat.zero_add _).symm rfl
    rw [Leads, ← hty', show (TyOf.ref c).words = 1 from rfl]
    simpa using hall

/-- The callee's signature is the one that the method has in the class of the object; a subclass may override it.
-/
theorem puts_methodCall {object method : Name} (hf : env.Fits t)
    (h : (methodCall id object method args span).Checked t env)
    (hputs : ∀ a ∈ args, a.Checked t env → a.Puts t mem) :
    (methodCall id object method args span).Puts t mem := by
  intro ls ty hc hty
  obtain ⟨entry, c, m, sig, -, -, -, -, hsig, hcall, hargs, hfit⟩ := h.methodCall hf
  have hms : t.methodSignature? id = some sig := by simp [Tables.methodSignature?, hcall, hsig]
  have hty' : sig.ret = ty := by simpa [type?, hms] using hty
  cases hc with
  | methodCall hcall' hcodes =>
    cases hcall.symm.trans hcall'
    have hlast := leads_lastFirst hf hcodes hfit hargs fun a ha => hputs a ha (hargs a ha)
    -- The object goes on top of the arguments, in place of the frame of a function.
    have hobject := ((leads_loadAt entry.offset).lift (sig.paramWords + 1)).append
      (leads_dispatchCall m.offset sig)
    have hall := leads_call (Resolution.mk entry env.level).hops hlast hobject
    rw [Leads, ← hty']
    simpa [hms, walk] using hall

end Calls

/-- Operands of operators are single words, so an operator leaves one word whatever the order of its operands is.
-/
theorem puts_binary {op : BinaryOp} {left right : Expr} {span : Span} (hf : env.Fits t)
    (h : (binary op left right span).Checked t env) (hputsl : left.Checked t env → left.Puts t mem)
    (hputsr : right.Checked t env → right.Puts t mem) : (binary op left right span).Puts t mem := by
  intro ls ty hc hty
  cases hty
  obtain ⟨hl, hr, hops⟩ := h.binary
  obtain ⟨a, ha⟩ := hl.exists_type hf
  obtain ⟨b, hb⟩ := hr.exists_type hf
  rw [ha, hb] at hops
  obtain ⟨hwa, hwb⟩ := words_of_fitOperands hops
  have hleft : ∀ {ls}, left.Coded t mem ls → Code.Leads (ls.map (·.instruction))
      ((left.callees t).map Signature.callEffect) 0 1 := fun hc => hwa ▸ hputsl hl hc ha
  have hright : ∀ {ls}, right.Coded t mem ls → Code.Leads (ls.map (·.instruction))
      ((right.callees t).map Signature.callEffect) 0 1 := fun hc => hwb ▸ hputsr hr hc hb
  rw [Leads, words_resultType]
  cases hc with
  | @arith _ _ _ _ _ _ i hop hcl hcr =>
    have hall := ((hleft hcl).seq (hright hcr) 1 rfl rfl).seqPlain
      (.of_heightBehind? (c := [.arith i]) (a := 2) (b := 1) rfl) 0 rfl rfl
    have hcallees : callees t (.binary op left right span) = callees t left ++ callees t right := by
      cases op <;> first | rfl | cases hop
    simpa [hcallees] using hall
  | equal l l' hcl hcr =>
    have hall := ((hleft hcl).seq (hright hcr) 1 rfl rfl).seqPlain (leads_select l l' 0 1) 0 rfl rfl
    simpa using hall
  | lessEqual l l' hcl hcr =>
    have hall := ((hleft hcl).seq (hright hcr) 1 rfl rfl).seqPlain (leads_lessEqual l l') 0 rfl rfl
    simpa using hall
  | greaterEqual l l' hcl hcr =>
    have hall := ((hright hcr).seq (hleft hcl) 1 rfl rfl).seqPlain (leads_lessEqual l l') 0 rfl rfl
    simpa using hall
  | and l l' hcl hcr =>
    rw [code_shortCircuited]
    simpa using leads_shortCircuit l l' 0 (hleft hcl) (hright hcr)
  | or l l' hcl hcr =>
    rw [code_shortCircuited]
    simpa using leads_shortCircuit l l' 1 (hleft hcl) (hright hcr)

/-- Negation compares with 0. -/
theorem puts_unary {op : UnaryOp} {operand : Expr} {span : Span} (hf : env.Fits t)
    (h : (unary op operand span).Checked t env) (hputs : operand.Checked t env → operand.Puts t mem) :
    (unary op operand span).Puts t mem := by
  intro ls ty hc hty
  obtain ⟨hv, hfit⟩ := h.unary
  cases hc with
  | not l l' hcv =>
    cases hty
    have hvalue := (hputs hv).operand hf hv hcv hfit
    have hzero := hvalue.seqPlain (.of_heightBehind? (c := [.push 0]) (a := 0) (b := 1) rfl) 1 rfl rfl
    have hall := hzero.seqPlain (leads_select l l' 0 1) 0 rfl rfl
    rw [Leads, show TyOf.words .bool = 1 from rfl]
    simpa using hall

/-- Both branches have as many words as their join, so the height behind does not depend on the condition. -/
theorem puts_cond {condition thenExpr elseExpr : Expr} {span : Span} (hf : env.Fits t)
    (h : (cond condition thenExpr elseExpr span).Checked t env)
    (hputsc : condition.Checked t env → condition.Puts t mem)
    (hputst : thenExpr.Checked t env → thenExpr.Puts t mem)
    (hputse : elseExpr.Checked t env → elseExpr.Puts t mem) :
    (cond condition thenExpr elseExpr span).Puts t mem := by
  intro ls ty hc hty
  obtain ⟨hcond, hthen, helse, hfit, -⟩ := h.cond
  obtain ⟨a, ha⟩ := hthen.exists_type hf
  obtain ⟨b, hb⟩ := helse.exists_type hf
  have hjoin : t.classes.join? a b = some ty := by simpa [type?, ha, hb] using hty
  obtain ⟨hat, hbt⟩ := ClassTable.le_join? hjoin
  cases hc with
  | cond l l' hcc hct hce =>
    have hall := leads_cond l l' ((hputsc hcond).operand hf hcond hcc hfit)
      ((hputse helse hce hb).fit hbt) ((hputst hthen hct ha).fit hat)
    rw [Leads]
    simpa [Code.cond] using hall

/-- Printing leaves the value where it is, so its words need not be known. -/
theorem puts_print {value : Expr} {span : Span} (h : (print value span).Checked t env)
    (hputs : value.Checked t env → value.Puts t mem) : (print value span).Puts t mem := by
  intro ls ty hc hty
  cases hc with
  | print hcv =>
    have hprint : Code.Leads [.print] [] 1 1 := .of_heightBehind? rfl
    have hpos := ty.words_pos
    have hall := Code.Leads.seqPlain (k := ty.words) (hputs h.print hcv hty) hprint (ty.words - 1)
      (by omega) (by omega)
    rw [Leads]
    simpa using hall

/-- The code of a clean expression puts the words of its type on the stack. -/
theorem Checked.leads (hf : env.Fits t) {e : Expr} (h : e.Checked t env) : e.Puts t mem := by
  induction e using Expr.induction with
  | literal value span => exact puts_literal value span
  | ident id name => exact puts_ident h
  | call id callee args span ih => exact puts_call hf h ih
  | new id cls args span ih => exact puts_new hf h ih
  | methodCall id object method args span ih => exact puts_methodCall hf h ih
  | binary op left right span ihl ihr => exact puts_binary hf h ihl ihr
  | unary op value span ih => exact puts_unary hf h ih
  | cond condition thenExpr elseExpr span ihc iht ihe => exact puts_cond hf h ihc iht ihe
  | print value span ih => exact puts_print h ih

end Expr

end ObjLet
