import ObjLet.Proofs.Simulation.Implements

/-!
# Expressions run as they are evaluated

The code of a clean expression implements its evaluation (`Image.implements_expr`), provided that calls run the
code of functions (`Image.Serves`).
-/

namespace ObjLet

open Code

theorem Snapshot.eta_stack {c : Snapshot} {ws : List Int} (h : c.stack = ws) :
    { c with stack := ws } = c := by
  cases h
  rfl

/-- A constant is compared with the top of the stack. -/
theorem Target.Leads.test {T : Target} {ls : Listing} {ip n : Nat} {w : Int} {l : Label}
    (hs : ls.Sits ip (plain [.push w, .branchEqual l])) (hl : ls.unit.address? l = some n) (c : Snapshot)
    (a : Int) (ws : List Int) :
    T.Leads ls ip { c with stack := a :: ws } (if a = w then n else ip + 2) { c with stack := ws } :=
  (Target.Leads.of_moves hs rfl (Moves.push w)).trans (.branchEqual (hs.next rfl) hl)

/-- The instruction of an operator computes what the operator does, and both refuse to divide by zero. -/
theorem BinaryOp.arith_eq {op : BinaryOp} {i : ArithOp} (h : op.instruction? = some i)
    (wrap : Int → Int) (m n : Int) :
    op.arith wrap m n = match i.apply? wrap m n with
      | some w => pure (.int w)
      | none => Eval.done .divisionByZero := by
  cases op <;> cases h <;> try rfl
  simp only [BinaryOp.arith, ArithOp.apply?]
  split <;> rfl

namespace Image

variable {I : Image} {call : Caller} {Γ : Env} {env : List Frame}

/-- The frames around a place of the program lie in memory, the innermost one at `fp`. -/
structure Scoped (I : Image) (Γ : Env) (env : List Frame) (c : Snapshot) : Prop where
  fits : Γ.Fits I.tables
  typed : Frame.AllFit I.tables env Γ.scopes.scopes
  lies : I.Lies (I.cells c) env Γ.scopes.scopes c.fp

/-- With more words on the stack the frames around still lie where they were. -/
theorem Scoped.above {c c' : Snapshot} (h : I.Scoped Γ env c) (ws : List Int)
    (hs : c'.stack = ws ++ c.stack) (hf : c'.fp = c.fp) : I.Scoped Γ env c' := by
  refine ⟨h.fits, h.typed, ?_⟩
  rw [hf]
  refine h.lies.mono fun a x hx => ?_
  rw [cells, hs]
  exact hx.append ws

/-- A name of the scopes stands for a value, whose words lie in the frame that the hops of a use lead to. -/
theorem Scoped.find? {c : Snapshot} (h : I.Scoped Γ env c) {name : String} {e : Entry}
    (he : Γ.scopes.lookup? name = some e) :
    ∃ v ws base, Frame.find? name env = some ((⟨e, Γ.level⟩ : Resolution).hops, .value v) ∧
      Linked (I.cells c) (⟨e, Γ.level⟩ : Resolution).hops c.fp base ∧ e.kind.isValue = true ∧
      v.HasType I.tables e.ty ∧ I.Rep (I.cells c) v ws ∧
      WordsAt (I.cells c) (base + e.offset + 1 - ws.length) ws := by
  obtain ⟨i, b, s, hfind, hsc, hse, hb⟩ := h.typed.find? he
  obtain ⟨base, hlinked, hbinds⟩ := h.lies.find? hse hfind hsc
  have hhops : (⟨e, Γ.level⟩ : Resolution).hops = i := by
    have hlevel := h.fits.level hsc hse
    have hsucc := h.fits.level_succ
    simp only [Resolution.hops]
    omega
  cases hbinds with
  | value hv hw =>
    cases hb with
    | value hk hty =>
      rw [hhops]
      exact ⟨_, _, base, hfind, hlinked, hk, hty, hv, hw⟩

/-- The code of a function begins inside of the listing. -/
theorem Function.lt_size {f : FunDecl} {Γ Γ' : Env} {a : Nat} (h : I.Function f Γ Γ' a) :
    a < I.listing.size := by
  obtain ⟨code, hc, hs⟩ := h.code
  have hle := hs.le
  cases hc with
  | mk _ _ _ _ =>
    simp only [List.cons_append, Listing.size_cons, Instruction.isPlacement, Instruction.placed?,
      Option.isSome_none, Bool.false_eq_true, if_false] at hle
    omega

/-- A function that stands for a function type has a subtype of it. -/
theorem Function.isSubtype {f : FunDecl} {Γ Γ' : Env} {a : Nat} (h : I.Function f Γ Γ' a)
    {sig : Signature} (ht : Value.HasType I.tables (.closure f env) sig.ty) :
    I.tables.classes.isSubtype (f.signature Γ.classes).ty sig.ty := by
  cases ht with
  | closure hd _ _ hs =>
    have hty := congrArg Entry.ty (Option.some.inj (h.declares.entry.symm.trans hd.entry))
    rwa [show (f.signature Γ.classes).ty = _ from hty]

/-- The words of a value have been pushed. -/
def Computes (I : Image) (c : Snapshot) (v : Value) (c' : Snapshot) : Prop :=
  ∃ ws, I.Rep (I.cells c') v ws ∧ c'.stack = ws ++ c.stack ∧ c'.fp = c.fp

/-- Calls run the code of functions: with the link to the frame around the function and the arguments on the
stack, above a word that the frame register gets when the result takes their place. -/
def Serves (I : Image) (call : Caller) : Prop :=
  ∀ {f : FunDecl} {Γ Γ' : Env} {a r : Nat} {outer : List Frame} {args : List Value}
    {words : List (List Int)} {c : Snapshot} {link ctl : Int} {ws : List Int},
    I.Function f Γ Γ' a → Frame.AllFit I.tables outer Γ'.scopes.scopes →
    I.Lies (I.cells c) outer Γ'.scopes.scopes link →
    List.Forall₂ (Value.HasType I.tables) args (f.signature Γ.classes).params →
    List.Forall₂ (I.Rep (I.cells c)) args words →
    c.stack = link :: (words.flatten ++ ctl :: ws) → c.ra = r → r < I.listing.size →
    I.Implements a c (call f outer args) r fun v c' =>
      ∃ w, (∀ M, I.Rep M v [w]) ∧ c'.stack = w :: ws ∧ c'.fp = ctl

end Image

/-- Wherever the code of an expression sits, it implements the expression. -/
def Expr.Implemented (I : Image) (call : Caller) (Γ : Env) (env : List Frame) (e : Expr) : Prop :=
  ∀ {code : Listing} {ip : Nat} {c : Snapshot}, e.Coded I.tables I.target.memory code →
    I.listing.Sits ip code → ip + code.size < I.listing.size → I.Scoped Γ env c →
    I.Implements ip c (e.eval I.target.wrap call env) (ip + code.size) (I.Computes c)

namespace Expr.Implemented

open Image Eval

variable {I : Image} {call : Caller} {Γ : Env} {env : List Frame} {e : Expr} {code : Listing}
  {ip ip' : Nat} {c : Snapshot} {β : Type} {Q : β → Snapshot → Prop}

/-- A number is evaluated and is then on top of the stack. -/
theorem int (h : e.Implemented I call Γ env) (hc : e.Coded I.tables I.target.memory code)
    (hs : I.listing.Sits ip code) (hlt : ip + code.size < I.listing.size) (hΓ : I.Scoped Γ env c)
    {f : Int → Eval β} (hf : ∀ n c₁, c₁.stack = n :: c.stack → c₁.fp = c.fp →
      I.Implements (ip + code.size) c₁ (f n) ip' Q) :
    I.Implements ip c (e.eval I.target.wrap call env >>= fun v => orStuck v.int? >>= f) ip' Q := by
  refine (h hc hs hlt hΓ).bind fun v c₁ hv => ?_
  obtain ⟨ws, hrep, hstack, hfp⟩ := hv
  refine .bind (P := fun n c' => v.int? = some n ∧ c' = c₁) (.orStuck fun n hn => ⟨hn, rfl⟩) ?_
  rintro n c' ⟨hn, rfl⟩
  rw [hrep.int? hn] at hstack
  exact hf n c' hstack hfp

/-- A Boolean is evaluated and is then on top of the stack, as 1 or 0. -/
theorem bool (h : e.Implemented I call Γ env) (hc : e.Coded I.tables I.target.memory code)
    (hs : I.listing.Sits ip code) (hlt : ip + code.size < I.listing.size) (hΓ : I.Scoped Γ env c)
    {f : Bool → Eval β} (hf : ∀ b c₁, c₁.stack = (if b then 1 else 0) :: c.stack → c₁.fp = c.fp →
      I.Implements (ip + code.size) c₁ (f b) ip' Q) :
    I.Implements ip c (e.eval I.target.wrap call env >>= fun v => orStuck v.bool? >>= f) ip' Q := by
  refine (h hc hs hlt hΓ).bind fun v c₁ hv => ?_
  obtain ⟨ws, hrep, hstack, hfp⟩ := hv
  refine .bind (P := fun b c' => v.bool? = some b ∧ c' = c₁) (.orStuck fun b hb => ⟨hb, rfl⟩) ?_
  rintro b c' ⟨hb, rfl⟩
  rw [hrep.bool? hb] at hstack
  exact hf b c' hstack hfp

end Expr.Implemented

namespace Expr

open Image Eval

variable {I : Image} {call : Caller} {Γ : Env} {env : List Frame}

/-- A literal is pushed. -/
theorem implemented_literal {value : Literal} {span : Span} :
    (Expr.literal value span).Implemented I call Γ env := by
  intro code ip c hc hs hlt hΓ
  cases hc
  refine .straight (.single rfl (Moves.push value.word)) rfl hs rfl (.pure ⟨[value.word], ?_, rfl, rfl⟩)
  cases value with
  | int n => exact .int
  | bool b => exact .bool
  | null => exact .null

/-- A name: the hops of the use lead to its frame, and the words at its offset are pushed. -/
theorem implemented_ident {id : NodeId} {name : Name} (h : (Expr.ident id name).Checked I.tables Γ) :
    (Expr.ident id name).Implemented I call Γ env := by
  intro code ip c hc hs hlt hΓ
  cases hc with
  | @ident _ _ use huse =>
    obtain ⟨e, he, huse', -⟩ := h.ident
    cases huse.symm.trans huse'
    obtain ⟨v, ws, base, hfind, hlinked, -, hty, hv, hw⟩ := hΓ.find? he
    have htwo : ws.length = 1 ∨ ws.length = 2 := by
      rw [hv.length]
      cases v <;> simp [Value.words]
    have hcode := code_readValue id (⟨e, Γ.level⟩ : Resolution).hops e.offset e.ty.words
    rw [← hty.words_eq, ← hv.length] at hcode
    rw [Expr.eval, hfind]
    refine .straight (Straight.loadValue htwo hlinked (hw.mono fun _ _ => .inl)) hcode
      (by rwa [hv.length, hty.words_eq]) rfl (.reach ?_)
    rw [hv.length, hty.words_eq]
    have hpure : I.Computes c v { c with stack := ws ++ c.stack } :=
      ⟨ws, hv.mono fun a x hx => hx.append ws, rfl, rfl⟩
    split
    · exact .reach (.pure hpure)
    · exact .pure hpure

/-! ## Calls -/

/-- Arguments are evaluated from the last to the first, which puts their words in the order of the parameters. -/
theorem implemented_lastFirst {args : List Expr} {codes : List Listing}
    (hc : List.Forall₂ (Expr.Coded I.tables I.target.memory) args codes) :
    (∀ a ∈ args, a.Implemented I call Γ env) → ∀ {ip : Nat} {c : Snapshot},
      I.listing.Sits ip codes.reverse.flatten → ip + Listing.size codes.reverse.flatten < I.listing.size →
      I.Scoped Γ env c →
      I.Implements ip c (evalLastFirst I.target.wrap call env args) (ip + Listing.size codes.reverse.flatten)
        fun vs c' => ∃ words, List.Forall₂ (I.Rep (I.cells c')) vs words ∧
          c'.stack = words.flatten ++ c.stack ∧ c'.fp = c.fp := by
  induction hc with
  | nil =>
    intro _ ip c _ _ _
    exact .pure ⟨[], .nil, rfl, rfl⟩
  | @cons a code args codes ha _ ih =>
    intro hall ip c hs hlt hΓ
    obtain ⟨hfirst, hrest⟩ := List.forall_mem_cons.1 hall
    have hflat : (code :: codes).reverse.flatten = codes.reverse.flatten ++ code := by simp
    rw [hflat] at hs hlt ⊢
    rw [Listing.size_append, ← Nat.add_assoc] at hlt ⊢
    refine (ih hrest hs.left (by omega) hΓ).bind fun vs c₁ hvs => ?_
    obtain ⟨words, hreps, hstack, hfp⟩ := hvs
    refine (hfirst ha hs.right hlt (hΓ.above _ hstack hfp)).bind fun v c₂ hv => ?_
    obtain ⟨ws, hrep, hstack', hfp'⟩ := hv
    refine .pure ⟨ws :: words, .cons hrep ?_, ?_, hfp'.trans hfp⟩
    · refine hreps.imp fun v ws h => h.mono fun a x hx => ?_
      rw [cells, hstack']
      exact hx.append _
    · rw [hstack', hstack, List.flatten_cons, List.append_assoc]

/-- A call pushes the control link, the arguments and the words of the function value, which is looked up in the
frames. -/
theorem implemented_call (ht : call.Sound I.tables) (hcall : I.Serves call) {id : NodeId} {callee : Name}
    {args : List Expr} {span : Span} (h : (Expr.call id callee args span).Checked I.tables Γ)
    (hargs : ∀ a ∈ args, a.Implemented I call Γ env) :
    (Expr.call id callee args span).Implemented I call Γ env := by
  intro code ip c hc hs hlt hΓ
  cases hc with
  | @call _ _ _ _ use codes huse hcodes =>
    obtain ⟨e, sig, he, huse', hsig, hclean, hfit⟩ := h.call
    cases huse.symm.trans huse'
    rw [List.append_assoc] at hs hlt ⊢
    have hctl := hs.left
    have hjump := hs.right
    rw [Listing.size_append, Listing.size_executed rfl, ← Nat.add_assoc, ← Nat.add_assoc] at hlt ⊢
    rw [Listing.size_executed rfl, ← Nat.add_assoc] at hjump
    rw [Expr.eval]
    -- The control link and the arguments are pushed first, the last argument before the others.
    refine .lead (.of_moves hctl rfl (Moves.load .fp)) rfl ?_
    have hΓ₀ : I.Scoped Γ env (c.push c.fp) := hΓ.above [c.fp] rfl rfl
    refine ((implemented_lastFirst hcodes hargs (hctl.next rfl) (by omega) hΓ₀).and_sound
      (sound_evalLastFirst I.lineal hΓ.fits hclean hfit fun a ha =>
        Expr.sound I.lineal ht hΓ.fits hΓ.typed (hclean a ha))).bind ?_
    rintro vs c₁ ⟨htypes, words, hreps, hstack, hfp⟩
    obtain ⟨v, ws, base, hfind, hlinked, hk, hty, hv, hw⟩ := (hΓ₀.above _ hstack hfp).find? he
    rw [hsig] at hty
    obtain ⟨f, outer, -, -, -, rfl, -⟩ := hty.arrow
    rw [hfind]
    cases hv with
    | @closure _ _ Γ₁ Γ₂ a link hf hfit hlies hslot =>
    refine .reach (.useClosure ?_)
    have hmethod : e.kind ≠ .method := fun hm => by rw [hm] at hk; cases hk
    rw [show base + e.offset + 1 - ([(a : Int), link].length : Nat) = base + e.offset - 1 by
      rw [List.length_cons, List.length_singleton]; omega] at hw
    -- The function finds itself in its frame.
    have hself : I.Rep (I.cells c₁) (.closure f outer) [a, link] := .closure hf hfit hlies hslot
    have hframes := hlies.declare hf.declares (.value hself (by
      rwa [show link + Γ₁.nextLocal + 1 - ([(a : Int), link].length : Nat) = link + Γ₁.nextLocal - 1 by
        rw [List.length_cons, List.length_singleton]; omega]))
    have hself' : Value.HasType I.tables (.closure f outer) (f.signature Γ₁.classes).ty :=
      .closure hf.declares hf.checked hfit (ClassTable.isSubtype_refl _ _)
    have htyped := hfit.declare hf.declares (.value rfl hself')
    obtain ⟨-, hparams⟩ := ClassTable.isSubtype_signature.1 (hf.isSubtype hty)
    have hpush : ∀ x y, I.cells c₁ x y → I.target.StackCell (link :: c₁.stack) x y := fun _ _ h => h.push link
    refine .lead (Target.Leads.callValue hmethod hjump hlinked hw hf.lt_size) rfl ?_
    refine (hcall (c := { c₁ with stack := link :: c₁.stack, tm := base, ra := _ }) hf htyped (hframes.mono hpush)
      (hasTypeAll_sub I.lineal htypes hparams)
      (hreps.imp fun _ _ h => h.mono hpush) (by rw [hstack]; rfl) rfl hlt).mono ?_
    rintro v c' ⟨w, hrep, hstack', hfp'⟩
    exact ⟨[w], hrep _, hstack', hfp'⟩

/-! ## Operators -/

/-- All arithmetic operators are evaluated alike. -/
theorem eval_arith {op : BinaryOp} {i : ArithOp} (h : op.instruction? = some i) (wrap : Int → Int)
    (left right : Expr) (span : Span) :
    (Expr.binary op left right span).eval wrap call env = left.eval wrap call env >>= fun v =>
      orStuck v.int? >>= fun m => right.eval wrap call env >>= fun w => orStuck w.int? >>= fun n =>
        op.arith wrap m n := by
  cases op <;> first | rfl | cases h

variable {left right operand : Expr} {span : Span} {code ls rs : Listing} {ip : Nat} {c : Snapshot}

/-- Both operands are pushed, and the instruction takes them. -/
theorem implements_arith {op : BinaryOp} {i : ArithOp} (hop : op.instruction? = some i)
    (hl : left.Implemented I call Γ env) (hr : right.Implemented I call Γ env)
    (hcl : left.Coded I.tables I.target.memory ls) (hcr : right.Coded I.tables I.target.memory rs)
    (hs : I.listing.Sits ip (ls ++ rs ++ plain [.arith i]))
    (hlt : ip + Listing.size (ls ++ rs ++ plain [.arith i]) < I.listing.size) (hΓ : I.Scoped Γ env c) :
    I.Implements ip c ((Expr.binary op left right span).eval I.target.wrap call env)
      (ip + Listing.size (ls ++ rs ++ plain [.arith i])) (I.Computes c) := by
  have hend := hs.right
  simp only [Listing.size_append, ← Nat.add_assoc] at hlt hend ⊢
  rw [eval_arith hop]
  refine hl.int hcl hs.left.left (by omega) hΓ fun m c₁ hm hfp => ?_
  refine hr.int hcr hs.left.right (by omega) (hΓ.above [m] hm hfp) fun n c₂ hn hfp' => ?_
  rw [BinaryOp.arith_eq hop]
  cases hw : i.apply? I.target.wrap m n with
  | none => exact .done nofun
  | some w =>
    rw [hm] at hn
    rw [← Snapshot.eta_stack hn]
    exact .straight (.single rfl (Moves.arith hw)) rfl hend rfl (.pure ⟨[w], .int, rfl, hfp'.trans hfp⟩)

/-- Words are compared; on values that can be compared this is equality. -/
theorem implements_equal {l l' : Label} (hl : left.Implemented I call Γ env)
    (hr : right.Implemented I call Γ env) (hcl : left.Coded I.tables I.target.memory ls)
    (hcr : right.Coded I.tables I.target.memory rs)
    (hs : I.listing.Sits ip (ls ++ rs ++ plain (select l l' 0 1)))
    (hlt : ip + Listing.size (ls ++ rs ++ plain (select l l' 0 1)) < I.listing.size)
    (hΓ : I.Scoped Γ env c) :
    I.Implements ip c ((Expr.binary .equal left right span).eval I.target.wrap call env)
      (ip + Listing.size (ls ++ rs ++ plain (select l l' 0 1))) (I.Computes c) := by
  have hend := hs.right
  simp only [Listing.size_append, ← Nat.add_assoc] at hlt hend ⊢
  refine (hl hcl hs.left.left (by omega) hΓ).bind fun v c₁ hv => ?_
  obtain ⟨vs, hrep, hstack, hfp⟩ := hv
  refine (hr hcr hs.left.right (by omega) (hΓ.above vs hstack hfp)).bind fun w c₂ hw => ?_
  obtain ⟨ws, hrep', hstack', hfp'⟩ := hw
  have hstay : I.Implements (ip + ls.size + rs.size) c₂ (orStuck (v.same? w)) (ip + ls.size + rs.size)
      fun r c' => v.same? w = some r ∧ c' = c₂ := .orStuck fun r hr => ⟨hr, rfl⟩
  refine hstay.bind ?_
  rintro r c' ⟨hsame, rfl⟩
  obtain ⟨a, b, rfl, rfl, rfl⟩ := hrep.same? hrep' hsame
  have hboth : c'.stack = b :: a :: c.stack := by rw [hstack', hstack]; rfl
  rw [← Snapshot.eta_stack hboth]
  refine .lead (Target.Leads.select I.labels hend) rfl (.pure ⟨[if a = b then 1 else 0], ?_, rfl, ?_⟩)
  · simpa only [decide_eq_true_eq] using Rep.bool (b := decide (a = b))
  · exact hfp'.trans hfp

/-- Comparison of two numbers, the lesser one of which is pushed first if the result is true. -/
theorem implements_lessEqual {l l' : Label} {first second : Expr} (hl : first.Implemented I call Γ env)
    (hr : second.Implemented I call Γ env) (hcl : first.Coded I.tables I.target.memory ls)
    (hcr : second.Coded I.tables I.target.memory rs)
    (hs : I.listing.Sits ip (ls ++ rs ++ plain (Code.lessEqual l l')))
    (hlt : ip + Listing.size (ls ++ rs ++ plain (Code.lessEqual l l')) < I.listing.size)
    (hΓ : I.Scoped Γ env c) :
    I.Implements ip c (first.eval I.target.wrap call env >>= fun v => orStuck v.int? >>= fun m =>
        second.eval I.target.wrap call env >>= fun w => orStuck w.int? >>= fun n =>
          pure (.bool (decide (m ≤ n))))
      (ip + Listing.size (ls ++ rs ++ plain (Code.lessEqual l l'))) (I.Computes c) := by
  have hend := hs.right
  simp only [Listing.size_append, ← Nat.add_assoc] at hlt hend ⊢
  refine hl.int hcl hs.left.left (by omega) hΓ fun m c₁ hm hfp => ?_
  refine hr.int hcr hs.left.right (by omega) (hΓ.above [m] hm hfp) fun n c₂ hn hfp' => ?_
  rw [hm] at hn
  rw [← Snapshot.eta_stack hn]
  refine .lead (Target.Leads.lessEqual I.labels hend) rfl (.pure ⟨[if m ≤ n then 1 else 0], ?_, rfl, ?_⟩)
  · simpa only [decide_eq_true_eq] using Rep.bool (b := decide (m ≤ n))
  · exact hfp'.trans hfp

/-- The operand is compared with 0. -/
theorem implements_not {l l' : Label} (hl : operand.Implemented I call Γ env)
    (hcl : operand.Coded I.tables I.target.memory ls)
    (hs : I.listing.Sits ip (ls ++ plain (.push 0 :: select l l' 0 1)))
    (hlt : ip + Listing.size (ls ++ plain (.push 0 :: select l l' 0 1)) < I.listing.size)
    (hΓ : I.Scoped Γ env c) :
    I.Implements ip c ((Expr.unary .not operand span).eval I.target.wrap call env)
      (ip + Listing.size (ls ++ plain (.push 0 :: select l l' 0 1))) (I.Computes c) := by
  have hend := hs.right
  rw [plain_cons] at hs hlt hend ⊢
  rw [Listing.size_append, Listing.size_executed rfl, ← Nat.add_assoc, ← Nat.add_assoc] at hlt ⊢
  refine hl.bool hcl hs.left (by omega) hΓ fun b c₁ hb hfp => ?_
  rw [← Snapshot.eta_stack hb]
  refine .lead ((Target.Leads.of_moves hend rfl (Moves.push 0)).trans (.select I.labels (hend.next rfl))) rfl
    (.pure ⟨[if !b then 1 else 0], .bool, ?_, hfp⟩)
  cases b <;> rfl

/-- The right operand decides only if the left one does not. -/
theorem implements_shortCircuit {l l' : Label} (decisive : Bool) (hl : left.Implemented I call Γ env)
    (hr : right.Implemented I call Γ env) (hcl : left.Coded I.tables I.target.memory ls)
    (hcr : right.Coded I.tables I.target.memory rs)
    (hs : I.listing.Sits ip (shortCircuited l l' (if decisive then 1 else 0) ls rs))
    (hlt : ip + (shortCircuited l l' (if decisive then 1 else 0) ls rs).size < I.listing.size)
    (hΓ : I.Scoped Γ env c) :
    I.Implements ip c (left.eval I.target.wrap call env >>= fun v => orStuck v.bool? >>= fun b =>
        if b = decisive then pure (.bool decisive)
        else right.eval I.target.wrap call env >>= fun w => orStuck w.bool? >>= fun b => pure (.bool b))
      (ip + (shortCircuited l l' (if decisive then 1 else 0) ls rs).size) (I.Computes c) := by
  -- Conjunction and disjunction differ in the word that decides; that it is 0 or 1 matters only for what the
  -- words mean.
  generalize hd : (if decisive then 1 else 0 : Int) = d at hs hlt ⊢
  have hword : ∀ b : Bool, (if b then (1 : Int) else 0) = d ↔ b = decisive := by
    rw [← hd]
    cases decisive <;> decide
  have hother : ∀ b : Bool, b ≠ decisive → (1 - d) = if b then 1 else 0 := by
    rw [← hd]
    cases decisive <;> decide
  unfold shortCircuited at hs hlt ⊢
  have htest := hs.left.left.left.right
  have hright := hs.left.left.right
  have htest' := hs.left.right
  have htail := hs.right
  have hsize : Listing.size (plain [.push d, .branchEqual l]) = 2 := rfl
  have hsize' : Listing.size (plain [.push (1 - d), .branch l', .place l, .push d, .place l']) = 3 := rfl
  simp only [Listing.size_append, hsize, hsize', ← Nat.add_assoc] at hlt htail htest htest' hright ⊢
  have hplace := (htail.next rfl).next rfl
  have hdecided := hplace.address I.labels
  -- Two ways lead to the end: one pushes the deciding word, the other the opposite one.
  have hyes : ∀ c₁ : Snapshot, I.target.Leads I.listing (ip + ls.size + 2 + rs.size + 2 + 1 + 1) c₁
      (ip + ls.size + 2 + rs.size + 2 + 3) (c₁.push d) :=
    fun c₁ => .of_moves (hplace.skip rfl) rfl (Moves.push d)
  have hno : ∀ c₁ : Snapshot, I.target.Leads I.listing (ip + ls.size + 2 + rs.size + 2) c₁
      (ip + ls.size + 2 + rs.size + 2 + 3) (c₁.push (1 - d)) :=
    fun c₁ => (Target.Leads.of_moves htail rfl (Moves.push (1 - d))).trans
      (.branch (htail.next rfl) (((hplace.skip rfl).next rfl).address I.labels))
  refine hl.bool hcl hs.left.left.left.left (by omega) hΓ fun b c₁ hb hfp => ?_
  rw [← Snapshot.eta_stack hb]
  have hleads := Target.Leads.test (T := I.target) htest hdecided c₁ (if b then 1 else 0) c.stack
  -- If the left operand decides, the right one is skipped, in the evaluation as in the code.
  by_cases heq : b = decisive
  · rw [if_pos ((hword b).2 heq)] at hleads
    rw [if_pos heq]
    refine .lead (hleads.trans (hyes _)) rfl (.pure ⟨[d], ?_, rfl, hfp⟩)
    rw [← (hword b).2 heq, heq]
    exact .bool
  · rw [if_neg (mt (hword b).1 heq)] at hleads
    rw [if_neg heq]
    have hΓ₁ : I.Scoped Γ env { c₁ with stack := c.stack } := hΓ.above [] rfl hfp
    refine .lead hleads rfl (hr.bool hcr hright (by omega) hΓ₁ fun b' c₂ hb' hfp' => ?_)
    rw [← Snapshot.eta_stack hb']
    have hleads' := Target.Leads.test (T := I.target) htest' hdecided c₂ (if b' then 1 else 0) c.stack
    by_cases heq' : b' = decisive
    · rw [if_pos ((hword b').2 heq')] at hleads'
      refine .lead (hleads'.trans (hyes _)) rfl (.pure ⟨[d], ?_, rfl, hfp'.trans hfp⟩)
      rw [← (hword b').2 heq']
      exact .bool
    · rw [if_neg (mt (hword b').1 heq')] at hleads'
      refine .lead (hleads'.trans (hno _)) rfl (.pure ⟨[1 - d], ?_, rfl, hfp'.trans hfp⟩)
      rw [hother b' heq']
      exact .bool

/-! ## Conditions and output -/

/-- One of two branches is taken, and both end behind the condition. -/
theorem implements_cond {condition thenExpr elseExpr : Expr} {l l' : Label} {cs ts es : Listing}
    (hc : condition.Implemented I call Γ env) (ht : thenExpr.Implemented I call Γ env)
    (he : elseExpr.Implemented I call Γ env) (hcc : condition.Coded I.tables I.target.memory cs)
    (hct : thenExpr.Coded I.tables I.target.memory ts) (hce : elseExpr.Coded I.tables I.target.memory es)
    (hs : I.listing.Sits ip (cs ++ plain [.push 1, .branchEqual l] ++ es ++
      plain [.branch l', .place l] ++ ts ++ plain [.place l']))
    (hlt : ip + Listing.size (cs ++ plain [.push 1, .branchEqual l] ++ es ++
      plain [.branch l', .place l] ++ ts ++ plain [.place l']) < I.listing.size)
    (hΓ : I.Scoped Γ env c) :
    I.Implements ip c ((Expr.cond condition thenExpr elseExpr span).eval I.target.wrap call env)
      (ip + Listing.size (cs ++ plain [.push 1, .branchEqual l] ++ es ++
        plain [.branch l', .place l] ++ ts ++ plain [.place l'])) (I.Computes c) := by
  have htest := hs.left.left.left.left.right
  have helse := hs.left.left.left.right
  have hbranch := hs.left.left.right
  have hthen := hs.left.right
  have hend := hs.right
  have hsize : Listing.size (plain [.push 1, .branchEqual l]) = 2 := rfl
  have hsize' : Listing.size (plain [.branch l', .place l]) = 1 := rfl
  have hsize'' : Listing.size (plain [.place l']) = 0 := rfl
  simp only [Listing.size_append, hsize, hsize', hsize'', ← Nat.add_assoc, Nat.add_zero] at *
  have hthenLabel := (hbranch.next rfl).address I.labels
  have hendLabel := hend.address I.labels
  refine hc.bool hcc hs.left.left.left.left.left (by omega) hΓ fun b c₁ hb hfp => ?_
  rw [← Snapshot.eta_stack hb]
  have hleads := Target.Leads.test (T := I.target) htest hthenLabel c₁ (if b then 1 else 0) c.stack
  have hΓ₁ : I.Scoped Γ env { c₁ with stack := c.stack } := hΓ.above [] rfl hfp
  -- The code tests for 1, so the first branch comes last.
  cases b with
  | true =>
    refine .lead hleads rfl ((ht hct hthen hlt hΓ₁).mono ?_)
    rintro v c' ⟨ws, hrep, hstack, hfp'⟩
    exact ⟨ws, hrep, hstack, hfp'.trans hfp⟩
  | false =>
    refine .lead hleads rfl ((he hce helse (by omega) hΓ₁).follow ?_)
    rintro v c' ⟨ws, hrep, hstack, hfp'⟩
    exact ⟨c', .branch hbranch hendLabel, rfl, ws, hrep, hstack, hfp'.trans hfp⟩

/-- The word on top of the stack is printed and stays. -/
theorem implements_print {value : Expr} (h : value.Implemented I call Γ env)
    (hc : value.Coded I.tables I.target.memory ls) (hs : I.listing.Sits ip (ls ++ plain [.print]))
    (hlt : ip + Listing.size (ls ++ plain [.print]) < I.listing.size) (hΓ : I.Scoped Γ env c) :
    I.Implements ip c ((Expr.print value span).eval I.target.wrap call env)
      (ip + Listing.size (ls ++ plain [.print])) (I.Computes c) := by
  have hend := hs.right
  rw [Listing.size_append, ← Nat.add_assoc] at hlt ⊢
  refine (h hc hs.left (by omega) hΓ).bind fun v c₁ hv => ?_
  obtain ⟨ws, hrep, hstack, hfp⟩ := hv
  obtain ⟨w, rest, rfl, hshown⟩ := hrep.shownAs
  rw [cells, hstack] at hrep
  rw [← Snapshot.eta_stack hstack]
  exact .print hend hshown (.pure ⟨w :: rest, hrep, rfl, hfp⟩)

/-! ## Objects -/

/-- Where the frames hold values only, no class is in scope to make an object of. -/
theorem not_scoped_new {id : NodeId} {cls : Name} {args : List Expr}
    (h : (Expr.new id cls args span).Checked I.tables Γ) (hΓ : I.Scoped Γ env c) : False := by
  obtain ⟨e, -, -, he, -⟩ := h.new hΓ.fits
  obtain ⟨i, s, hs, hse, hk⟩ := Env.lookupClass?_eq_some he
  have hv := hΓ.lies.isValue hse hΓ.typed (List.mem_of_getElem? hs)
  rw [hk] at hv
  cases hv

/-- Without objects, methods are called on null only. -/
theorem implemented_methodCall {id : NodeId} {object method : Name} {args : List Expr}
    (h : (Expr.methodCall id object method args span).Checked I.tables Γ) :
    (Expr.methodCall id object method args span).Implemented I call Γ env := by
  intro code ip c hc hs hlt hΓ
  obtain ⟨e, cls, _, _, he, hty, -⟩ := h.methodCall hΓ.fits
  obtain ⟨v, ws, base, hfind, -, -, htyped, hrep, -⟩ := hΓ.find? he
  rw [hty] at htyped
  obtain rfl | ⟨_, _, _, _, rfl, -, -⟩ := htyped.ref
  · rw [Expr.eval, hfind]
    refine .fails fun vs h b rest heq => ?_
    obtain ⟨_, _, _, _, -, hcall⟩ := Eval.bind_eq_value heq
    cases hcall
  · cases hrep

/-! ## All expressions -/

theorem eval_and (wrap : Int → Int) :
    (Expr.binary .and left right span).eval wrap call env =
      left.eval wrap call env >>= fun v => orStuck v.bool? >>= fun b =>
        if b = false then pure (.bool false)
        else right.eval wrap call env >>= fun w => orStuck w.bool? >>= fun b => pure (.bool b) := by
  rw [Expr.eval]
  congr 1
  funext v
  congr 1
  funext b
  cases b <;> rfl

/-- The code of a clean expression implements it, where calls run the code of functions and there are no
classes. -/
theorem implemented (ht : call.Sound I.tables) (hcall : I.Serves call) {e : Expr}
    (h : e.Checked I.tables Γ) : e.Implemented I call Γ env := by
  induction e using Expr.induction with
  | literal value span => exact implemented_literal
  | ident id name => exact implemented_ident h
  | call id callee args span ih =>
    obtain ⟨_, _, _, _, _, hargs, _⟩ := h.call
    exact implemented_call ht hcall h fun a ha => ih a ha (hargs a ha)
  -- The program has no classes, so there is nothing to show for objects.
  | new id cls args span ih =>
    intro code ip c _ _ _ hΓ
    exact (not_scoped_new h hΓ).elim
  | methodCall id object method args span ih => exact implemented_methodCall h
  | binary op left right span ihl ihr =>
    obtain ⟨hl, hr, -⟩ := h.binary
    intro code ip c hc hs hlt hΓ
    cases hc with
    | arith hop hcl hcr => exact implements_arith hop (ihl hl) (ihr hr) hcl hcr hs hlt hΓ
    | equal _ _ hcl hcr => exact implements_equal (ihl hl) (ihr hr) hcl hcr hs hlt hΓ
    | lessEqual _ _ hcl hcr => exact implements_lessEqual (ihl hl) (ihr hr) hcl hcr hs hlt hΓ
    | greaterEqual _ _ hcl hcr => exact implements_lessEqual (ihr hr) (ihl hl) hcr hcl hs hlt hΓ
    | and _ _ hcl hcr =>
      rw [eval_and]
      exact implements_shortCircuit false (ihl hl) (ihr hr) hcl hcr hs hlt hΓ
    | or _ _ hcl hcr => exact implements_shortCircuit true (ihl hl) (ihr hr) hcl hcr hs hlt hΓ
  | unary op operand span ih =>
    intro code ip c hc hs hlt hΓ
    cases hc with
    | not _ _ hcl => exact implements_not (ih h.unary.1) hcl hs hlt hΓ
  | cond condition thenExpr elseExpr span ihc iht ihe =>
    obtain ⟨hc', ht', he', -, -⟩ := h.cond
    intro code ip c hc hs hlt hΓ
    cases hc with
    | cond _ _ hcc hct hce =>
      exact implements_cond (ihc hc') (iht ht') (ihe he') hcc hct hce hs hlt hΓ
  | print value span ih =>
    intro code ip c hc hs hlt hΓ
    cases hc with
    | print hcl => exact implements_print (ih h.print) hcl hs hlt hΓ

end Expr

end ObjLet
