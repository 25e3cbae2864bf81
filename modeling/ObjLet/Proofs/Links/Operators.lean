import ObjLet.Proofs.Links.Calls

/-!
# Operators, conditions and output

The machine keeps track of an expression wherever its code sits (`Expr.Tracked`), provided that it keeps track of
the parts. Operands are of the types that their operators ask for, so evaluation does not get stuck where the
machine would go on.
-/

namespace ObjLet

open Code Eval Loaded

/-- Wherever the code of an expression sits, the machine keeps track of the expression. -/
def Expr.Tracked (L : Loaded) (fuel : Nat) (call : Caller) (Γ : Env) (env : List Frame) (e : Expr) : Prop :=
  ∀ {code : Listing} {p : Stage}, e.Coded L.tables L.target.memory code → L.listing.Sits p.ip code →
    p.ip + code.size < L.listing.size → L.Scoped Γ env p → L.Stands p →
    L.Tracks fuel p (e.eval L.target.wrap call env) fun v =>
      L.Pushes p (p.ip + code.size) p.snapshot.fp p.snapshot.stack (L.Rep · v)

variable {L : Loaded} {fuel : Nat} {call : Caller} {Γ : Env} {env : List Frame} {p : Stage}

/-- A division by zero ends the run. -/
theorem Target.Passes.division {T : Target} {ls : Listing} {ip : Nat} {c : Snapshot} {i : ArithOp} {m n : Int}
    {ws : List Int}
    (h : ls.Sits ip (plain [.arith i])) (hw : i.apply? T.wrap m n = none) :
    T.Passes ls none (·.At T ip { c with stack := n :: m :: ws }) fun _ => False := by
  refine .of_exec h rfl (fun s hs => hs.ip) fun s hs => .inl ⟨.divisionByZero, ?_⟩
  obtain ⟨hp, hs₁⟩ := hs.next.pop
  obtain ⟨hp', -⟩ := hs₁.pop
  rw [Target.exec, hp]
  simp only [bind, Except.bind, hp', hw]

/-- An option that is there does not need a step. -/
theorem Loaded.Tracks.orStuck {α β : Type} {a? : Option α} {a : α} (ha : a? = some a) {f : α → Eval β}
    {Q : β → Stage → Prop} (hf : L.Tracks fuel p (f a) Q) : L.Tracks fuel p (Eval.orStuck a? >>= f) Q := by
  rw [ha]
  exact .skip rfl (.refl _) hf

/-- Of values that can be compared, the words are equal if the values are. -/
theorem Loaded.Rep.same? {v w : Value} {vs ws : List Int} {r : Bool} (hp : L.Stands p) (hv : L.Rep p.ledger v vs)
    (hw : L.Rep p.ledger w ws) (h : v.same? w = some r) : ∃ a b, vs = [a] ∧ ws = [b] ∧ r = decide (a = b) := by
  -- No object lies below 0, so its address is not the word for null.
  have hnull : ∀ {id : Nat} {base : Int}, p.ledger.base (.object id) = some base → base ≠ -1 := by
    intro id base hb
    obtain ⟨-, hpos, -⟩ := hp.object hb
    omega
  cases hv with
  | null =>
    cases hw with
    | null =>
      cases h
      exact ⟨-1, -1, rfl, rfl, rfl⟩
    | object hb _ _ _ _ _ =>
      cases h
      exact ⟨-1, _, rfl, rfl, (decide_eq_false (hnull hb).symm).symm⟩
    | int | bool | closure _ _ _ _ _ _ => cases h
  | object hb _ _ _ _ _ =>
    cases hw with
    | null =>
      cases h
      exact ⟨_, -1, rfl, rfl, (decide_eq_false (hnull hb)).symm⟩
    | object hb' _ _ _ _ _ =>
      cases h
      -- Objects are told apart by their addresses, since no two lie at the same place.
      refine ⟨_, _, rfl, rfl, ?_⟩
      rw [Bool.beq_eq_decide_eq, decide_eq_decide]
      constructor
      · rintro rfl
        exact Option.some.inj (hb.symm.trans hb')
      · rintro rfl
        exact hp.distinct hb hb'
    | int | bool | closure _ _ _ _ _ _ => cases h
  | int | bool =>
    cases hw with
    | int | bool =>
      cases h
      exact ⟨_, _, rfl, rfl, rfl⟩
    | null | object _ _ _ _ _ _ | closure _ _ _ _ _ _ => cases h
  | closure _ _ _ _ _ _ => cases hw <;> cases h

namespace Expr.Tracked

variable {e : Expr} {code : Listing} {β : Type} {Q : β → Stage → Prop}

/-- An operand that is a number leaves one word, and it is that number. -/
theorem int (h : e.Tracked L fuel call Γ env) (hc : e.Coded L.tables L.target.memory code)
    (hs : L.listing.Sits p.ip code) (hlt : p.ip + code.size < L.listing.size) (hΓ : L.Scoped Γ env p)
    (hp : L.Stands p) (hn : Eval.Sound (e.eval L.target.wrap call env) fun v => ∃ n, v.int? = some n)
    {f : Int → Eval β} (hf : ∀ n q,
      L.Pushes p (p.ip + code.size) p.snapshot.fp p.snapshot.stack (fun _ vs => vs = [n]) q → L.Tracks fuel q (f n) Q) :
    L.Tracks fuel p (e.eval L.target.wrap call env >>= fun v => orStuck v.int? >>= f) Q := by
  refine ((h hc hs hlt hΓ hp).and_sound hn).bind ?_
  rintro v q - ⟨⟨n, hn⟩, hv⟩
  obtain ⟨vs, hrep, hstack⟩ := hv.words
  exact .orStuck hn (hf n q ⟨hv.ip, hv.fp, hv.stands, hv.follows, vs, hrep.int? hn, hstack⟩)

/-- An operand that is a truth value leaves 0 or 1. -/
theorem bool (h : e.Tracked L fuel call Γ env) (hc : e.Coded L.tables L.target.memory code)
    (hs : L.listing.Sits p.ip code) (hlt : p.ip + code.size < L.listing.size) (hΓ : L.Scoped Γ env p)
    (hp : L.Stands p) (hb : Eval.Sound (e.eval L.target.wrap call env) fun v => ∃ b, v.bool? = some b)
    {f : Bool → Eval β} (hf : ∀ (b : Bool) q,
      L.Pushes p (p.ip + code.size) p.snapshot.fp p.snapshot.stack (fun _ vs => vs = [if b then 1 else 0]) q →
        L.Tracks fuel q (f b) Q) :
    L.Tracks fuel p (e.eval L.target.wrap call env >>= fun v => orStuck v.bool? >>= f) Q := by
  refine ((h hc hs hlt hΓ hp).and_sound hb).bind ?_
  rintro v q - ⟨⟨b, hb⟩, hv⟩
  obtain ⟨vs, hrep, hstack⟩ := hv.words
  exact .orStuck hb (hf b q ⟨hv.ip, hv.fp, hv.stands, hv.follows, vs, hrep.bool? hb, hstack⟩)

end Expr.Tracked

namespace Expr

variable {left right operand : Expr} {span : Span} {code ls rs : Listing}

/-- A literal is pushed; nothing is shown. -/
theorem tracked_literal {value : Literal} {span : Span} : (Expr.literal value span).Tracked L fuel call Γ env := by
  intro code p hc hs hlt hΓ hp
  cases hc
  have hrep : L.Rep p.ledger value.value [value.word] := by
    cases value with
    | int n => exact .int
    | bool b => exact .bool
    | null => exact .null
  exact .pass (.of_moves hs rfl (Moves.push value.word)) (.pure (.of_stack hp hp (.refl _ _) _ hrep rfl rfl rfl))

/-! ## Operators -/

/-- The target's arithmetic is the evaluator's, division by zero included: there the run is blocked and
evaluation has no value. -/
theorem tracks_arith {op : BinaryOp} {i : ArithOp} (hop : op.instruction? = some i)
    (hl : left.Tracked L fuel call Γ env) (hr : right.Tracked L fuel call Γ env)
    (hnl : Eval.Sound (left.eval L.target.wrap call env) fun v => ∃ n, v.int? = some n)
    (hnr : Eval.Sound (right.eval L.target.wrap call env) fun v => ∃ n, v.int? = some n)
    (hcl : left.Coded L.tables L.target.memory ls) (hcr : right.Coded L.tables L.target.memory rs)
    (hs : L.listing.Sits p.ip (ls ++ rs ++ plain [.arith i]))
    (hlt : p.ip + Listing.size (ls ++ rs ++ plain [.arith i]) < L.listing.size) (hΓ : L.Scoped Γ env p)
    (hp : L.Stands p) :
    L.Tracks fuel p ((Expr.binary op left right span).eval L.target.wrap call env) fun v =>
      L.Pushes p (p.ip + Listing.size (ls ++ rs ++ plain [.arith i])) p.snapshot.fp p.snapshot.stack (L.Rep · v) := by
  have hend := hs.right
  simp only [Listing.size_append, ← Nat.add_assoc] at hlt hend ⊢
  rw [eval_arith hop]
  refine hl.int hcl hs.left.left (by omega) hΓ hp hnl fun m q hq => ?_
  have hright := hs.left.right
  rw [← hq.ip] at hright
  refine hr.int hcr hright (by rw [hq.ip]; omega) (hq.scope hΓ) hq.stands hnr fun n r hr => ?_
  have hip := hr.ip
  rw [hq.ip] at hip
  rw [← hip] at hend ⊢
  have hboth : r.snapshot.stack = n :: m :: p.snapshot.stack := by rw [hr.stack, hq.stack]
  rw [BinaryOp.arith_eq hop]
  cases hw : i.apply? L.target.wrap m n with
  | none =>
    refine .blocked ?_
    rw [← Snapshot.eta_stack hboth]
    exact .division hend hw
  | some w =>
    refine .pass (.of_stack hboth (.of_moves hend rfl (Moves.arith hw))) (.pure ?_)
    exact .of_stack hp hr.stands (hq.follows.next hr.follows) _ .int rfl rfl (hr.fp.trans hq.fp)

/-- Equality compares words, and values of comparable types are equal if their words are. -/
theorem tracks_equal {l l' : Label} (hl : left.Tracked L fuel call Γ env) (hr : right.Tracked L fuel call Γ env)
    {a b : Ty} (hnl : Eval.Sound (left.eval L.target.wrap call env) (Value.HasType L.tables · a))
    (hnr : Eval.Sound (right.eval L.target.wrap call env) (Value.HasType L.tables · b))
    (hab : L.tables.comparable a b) (hcl : left.Coded L.tables L.target.memory ls)
    (hcr : right.Coded L.tables L.target.memory rs)
    (hs : L.listing.Sits p.ip (ls ++ rs ++ plain (select l l' 0 1)))
    (hlt : p.ip + Listing.size (ls ++ rs ++ plain (select l l' 0 1)) < L.listing.size) (hΓ : L.Scoped Γ env p)
    (hp : L.Stands p) :
    L.Tracks fuel p ((Expr.binary .equal left right span).eval L.target.wrap call env) fun v =>
      L.Pushes p (p.ip + Listing.size (ls ++ rs ++ plain (select l l' 0 1))) p.snapshot.fp p.snapshot.stack
        (L.Rep · v) := by
  have hend := hs.right
  simp only [Listing.size_append, ← Nat.add_assoc] at hlt hend ⊢
  refine ((hl hcl hs.left.left (by omega) hΓ hp).and_sound hnl).bind ?_
  rintro v q - ⟨hv, hq⟩
  have hright := hs.left.right
  rw [← hq.ip] at hright
  refine ((hr hcr hright (by rw [hq.ip]; omega) (hq.scope hΓ) hq.stands).and_sound hnr).bind ?_
  rintro w r hle ⟨hw, hr⟩
  have hip := hr.ip
  rw [hq.ip] at hip
  rw [← hip] at hend ⊢
  obtain ⟨vs, hrep, hstack⟩ := hq.words
  obtain ⟨ws, hrep', hstack'⟩ := hr.words
  obtain ⟨same, hsame⟩ := same?_of_comparable L.lineal hv hw hab
  obtain ⟨x, y, rfl, rfl, rfl⟩ := Loaded.Rep.same? hr.stands (hrep.mono hle) hrep' hsame
  have hboth : r.snapshot.stack = y :: x :: p.snapshot.stack := by rw [hstack', hstack]; rfl
  refine .orStuck hsame (.pass (.of_stack hboth (.select L.labels hend)) (.pure ?_))
  refine .of_stack hp hr.stands (hq.follows.next hr.follows) [if x = y then 1 else 0] ?_ rfl rfl
    (hr.fp.trans hq.fp)
  simpa only [decide_eq_true_eq] using Rep.bool (b := decide (x = y))

/-- Comparison of two numbers, the lesser one of which is pushed first if the result is true. -/
theorem tracks_lessEqual {l l' : Label} {first second : Expr} (hl : first.Tracked L fuel call Γ env)
    (hr : second.Tracked L fuel call Γ env)
    (hnl : Eval.Sound (first.eval L.target.wrap call env) fun v => ∃ n, v.int? = some n)
    (hnr : Eval.Sound (second.eval L.target.wrap call env) fun v => ∃ n, v.int? = some n)
    (hcl : first.Coded L.tables L.target.memory ls) (hcr : second.Coded L.tables L.target.memory rs)
    (hs : L.listing.Sits p.ip (ls ++ rs ++ plain (Code.lessEqual l l')))
    (hlt : p.ip + Listing.size (ls ++ rs ++ plain (Code.lessEqual l l')) < L.listing.size) (hΓ : L.Scoped Γ env p)
    (hp : L.Stands p) :
    L.Tracks fuel p (first.eval L.target.wrap call env >>= fun v => orStuck v.int? >>= fun m =>
        second.eval L.target.wrap call env >>= fun w => orStuck w.int? >>= fun n => pure (.bool (decide (m ≤ n))))
      fun v => L.Pushes p (p.ip + Listing.size (ls ++ rs ++ plain (Code.lessEqual l l'))) p.snapshot.fp
        p.snapshot.stack (L.Rep · v) := by
  have hend := hs.right
  simp only [Listing.size_append, ← Nat.add_assoc] at hlt hend ⊢
  refine hl.int hcl hs.left.left (by omega) hΓ hp hnl fun m q hq => ?_
  have hright := hs.left.right
  rw [← hq.ip] at hright
  refine hr.int hcr hright (by rw [hq.ip]; omega) (hq.scope hΓ) hq.stands hnr fun n r hr => ?_
  have hip := hr.ip
  rw [hq.ip] at hip
  rw [← hip] at hend ⊢
  have hboth : r.snapshot.stack = n :: m :: p.snapshot.stack := by rw [hr.stack, hq.stack]
  refine .pass (.of_stack hboth (.lessEqual L.labels hend)) (.pure ?_)
  refine .of_stack hp hr.stands (hq.follows.next hr.follows) [if m ≤ n then 1 else 0] ?_ rfl rfl
    (hr.fp.trans hq.fp)
  simpa only [decide_eq_true_eq] using Rep.bool (b := decide (m ≤ n))

/-- Negation compares with 0, the word for false. -/
theorem tracks_not {l l' : Label} (hl : operand.Tracked L fuel call Γ env)
    (hb : Eval.Sound (operand.eval L.target.wrap call env) fun v => ∃ b, v.bool? = some b)
    (hcl : operand.Coded L.tables L.target.memory ls)
    (hs : L.listing.Sits p.ip (ls ++ plain (.push 0 :: select l l' 0 1)))
    (hlt : p.ip + Listing.size (ls ++ plain (.push 0 :: select l l' 0 1)) < L.listing.size) (hΓ : L.Scoped Γ env p)
    (hp : L.Stands p) :
    L.Tracks fuel p ((Expr.unary .not operand span).eval L.target.wrap call env) fun v =>
      L.Pushes p (p.ip + Listing.size (ls ++ plain (.push 0 :: select l l' 0 1))) p.snapshot.fp p.snapshot.stack
        (L.Rep · v) := by
  have hend := hs.right
  rw [plain_cons] at hs hlt hend ⊢
  rw [Listing.size_append, Listing.size_executed rfl, ← Nat.add_assoc, ← Nat.add_assoc] at hlt ⊢
  refine hl.bool hcl hs.left (by omega) hΓ hp hb fun b q hq => ?_
  rw [← hq.ip] at hend ⊢
  refine .pass (.of_stack hq.stack
    ((Target.Goes.of_moves hend rfl (Moves.push 0)).trans (.select L.labels (hend.next rfl)))) (.pure ?_)
  refine .of_stack hp hq.stands hq.follows [if !b then 1 else 0] .bool ?_ rfl hq.fp
  cases b <;> rfl

/-- The right operand decides only if the left one does not. -/
theorem tracks_shortCircuit {l l' : Label} (decisive : Bool) (hl : left.Tracked L fuel call Γ env)
    (hr : right.Tracked L fuel call Γ env)
    (hbl : Eval.Sound (left.eval L.target.wrap call env) fun v => ∃ b, v.bool? = some b)
    (hbr : Eval.Sound (right.eval L.target.wrap call env) fun v => ∃ b, v.bool? = some b)
    (hcl : left.Coded L.tables L.target.memory ls) (hcr : right.Coded L.tables L.target.memory rs)
    (hs : L.listing.Sits p.ip (shortCircuited l l' (if decisive then 1 else 0) ls rs))
    (hlt : p.ip + (shortCircuited l l' (if decisive then 1 else 0) ls rs).size < L.listing.size)
    (hΓ : L.Scoped Γ env p) (hp : L.Stands p) :
    L.Tracks fuel p (left.eval L.target.wrap call env >>= fun v => orStuck v.bool? >>= fun b =>
        if b = decisive then pure (.bool decisive)
        else right.eval L.target.wrap call env >>= fun w => orStuck w.bool? >>= fun b => pure (.bool b))
      fun v => L.Pushes p (p.ip + (shortCircuited l l' (if decisive then 1 else 0) ls rs).size) p.snapshot.fp
        p.snapshot.stack (L.Rep · v) := by
  -- Both operators at once: `d` is the word that decides.
  generalize hd : (if decisive then 1 else 0 : Int) = d at hs hlt ⊢
  have hword : ∀ b : Bool, (if b then (1 : Int) else 0) = d ↔ b = decisive := by
    rw [← hd]
    cases decisive <;> decide
  have hother : ∀ b : Bool, b ≠ decisive → (1 - d) = if b then 1 else 0 := by
    rw [← hd]
    cases decisive <;> decide
  unfold shortCircuited at hs hlt ⊢
  have htest := hs.left.left.left.right
  have hright := hs.left.left.right
  have htest' := hs.left.right
  have htail := hs.right
  have hsize : Listing.size (plain [.push d, .branchEqual l]) = 2 := rfl
  have hsize' : Listing.size (plain [.push (1 - d), .branch l', .place l, .push d, .place l']) = 3 := rfl
  simp only [Listing.size_append, hsize, hsize', ← Nat.add_assoc] at hlt htail htest htest' hright ⊢
  have hplace := (htail.next rfl).next rfl
  have hdecided := hplace.address L.labels
  generalize hend : p.ip + ls.size + 2 + rs.size + 2 + 3 = stop at hlt ⊢
  -- Two ways to the end of the code, from either test.
  have hyes : ∀ c : Snapshot, L.target.Goes L.listing none (p.ip + ls.size + 2 + rs.size + 2 + 1 + 1) c
      stop (c.push d) := by
    subst hend
    exact fun c => .of_moves (hplace.skip rfl) rfl (Moves.push d)
  have hno : ∀ c : Snapshot, L.target.Goes L.listing none (p.ip + ls.size + 2 + rs.size + 2) c
      stop (c.push (1 - d)) := by
    subst hend
    exact fun c => (Target.Goes.of_moves htail rfl (Moves.push (1 - d))).trans
      (.branch (htail.next rfl) (((hplace.skip rfl).next rfl).address L.labels))
  refine hl.bool hcl hs.left.left.left.left (by omega) hΓ hp hbl fun b q hq => ?_
  rw [← hq.ip] at htest hright htest' hdecided hyes hno hend
  have hfirst := Target.Goes.test (T := L.target) htest hdecided q.snapshot (if b then 1 else 0) p.snapshot.stack
  -- The left operand decides, or the right one is evaluated behind the test.
  by_cases heq : b = decisive
  · rw [if_pos ((hword b).2 heq)] at hfirst
    rw [if_pos heq]
    refine .pass (.of_stack hq.stack (hfirst.trans (hyes _))) (.pure ?_)
    refine .of_stack hp hq.stands hq.follows [d] ?_ rfl rfl hq.fp
    rw [← (hword b).2 heq, heq]
    exact .bool
  · rw [if_neg (mt (hword b).1 heq)] at hfirst
    rw [if_neg heq]
    let q₁ : Stage := { q with ip := q.ip + 2, snapshot := { q.snapshot with stack := p.snapshot.stack } }
    have hfollows : p.Follows p.history.live q₁ := hq.follows.trans (.moved ..)
    have hstands : L.Stands q₁ := hp.restack hq.stands hq.follows [] rfl rfl
    refine .pass (.of_stack hq.stack hfirst) ?_
    refine hr.bool (p := q₁) hcr hright (show q.ip + 2 + rs.size < _ by omega) (hΓ.follows hfollows hq.fp) hstands hbr
      fun b' r hr => ?_
    have hip : r.ip = q.ip + 2 + rs.size := hr.ip
    have hstack : r.snapshot.stack = (if b' then 1 else 0) :: p.snapshot.stack := hr.stack
    have hall := hfollows.trans (hfollows.live ▸ hr.follows)
    rw [← hip] at htest' hdecided hyes hno
    have hsecond := Target.Goes.test (T := L.target) htest' hdecided r.snapshot (if b' then 1 else 0) p.snapshot.stack
    by_cases heq' : b' = decisive
    · rw [if_pos ((hword b').2 heq')] at hsecond
      refine .pass (.of_stack hstack (hsecond.trans (hyes _))) (.pure ?_)
      refine .of_stack hp hr.stands hall [d] ?_ rfl rfl (hr.fp.trans hq.fp)
      rw [← (hword b').2 heq']
      exact .bool
    · rw [if_neg (mt (hword b').1 heq')] at hsecond
      refine .pass (.of_stack hstack (hsecond.trans (hno _))) (.pure ?_)
      refine .of_stack hp hr.stands hall [1 - d] ?_ rfl rfl (hr.fp.trans hq.fp)
      rw [hother b' heq']
      exact .bool

/-! ## Conditions and output -/

/-- Only the branch that evaluation takes is entered. The code of the other one is jumped over and shows nothing.
-/
theorem tracks_cond {condition thenExpr elseExpr : Expr} {l l' : Label} {cs ts es : Listing}
    (hc : condition.Tracked L fuel call Γ env) (ht : thenExpr.Tracked L fuel call Γ env)
    (he : elseExpr.Tracked L fuel call Γ env)
    (hb : Eval.Sound (condition.eval L.target.wrap call env) fun v => ∃ b, v.bool? = some b)
    (hcc : condition.Coded L.tables L.target.memory cs) (hct : thenExpr.Coded L.tables L.target.memory ts)
    (hce : elseExpr.Coded L.tables L.target.memory es)
    (hs : L.listing.Sits p.ip (cs ++ plain [.push 1, .branchEqual l] ++ es ++ plain [.branch l', .place l] ++ ts ++
      plain [.place l']))
    (hlt : p.ip + Listing.size (cs ++ plain [.push 1, .branchEqual l] ++ es ++ plain [.branch l', .place l] ++ ts ++
      plain [.place l']) < L.listing.size) (hΓ : L.Scoped Γ env p) (hp : L.Stands p) :
    L.Tracks fuel p ((Expr.cond condition thenExpr elseExpr span).eval L.target.wrap call env) fun v =>
      L.Pushes p (p.ip + Listing.size (cs ++ plain [.push 1, .branchEqual l] ++ es ++ plain [.branch l', .place l] ++
        ts ++ plain [.place l'])) p.snapshot.fp p.snapshot.stack (L.Rep · v) := by
  have htest := hs.left.left.left.left.right
  have helse := hs.left.left.left.right
  have hbranch := hs.left.left.right
  have hthen := hs.left.right
  have hend := hs.right
  have hsize : Listing.size (plain [.push 1, .branchEqual l]) = 2 := rfl
  have hsize' : Listing.size (plain [.branch l', .place l]) = 1 := rfl
  have hsize'' : Listing.size (plain [.place l']) = 0 := rfl
  simp only [Listing.size_append, hsize, hsize', hsize'', ← Nat.add_assoc, Nat.add_zero] at *
  have hthenLabel := (hbranch.next rfl).address L.labels
  have hendLabel := hend.address L.labels
  refine hc.bool hcc hs.left.left.left.left.left (by omega) hΓ hp hb fun b q hq => ?_
  rw [← hq.ip] at htest helse hthenLabel hbranch hthen hendLabel hlt ⊢
  have hway := Target.Goes.test (T := L.target) htest hthenLabel q.snapshot (if b then 1 else 0) p.snapshot.stack
  -- Either branch starts with the condition popped, so it ends as the whole does.
  have hback : ∀ {ip ip' : Nat} {v : Value} {r : Stage},
      L.Pushes { q with ip, snapshot := { q.snapshot with stack := p.snapshot.stack } } ip' q.snapshot.fp
        p.snapshot.stack (L.Rep · v) r → L.Pushes p ip' p.snapshot.fp p.snapshot.stack (L.Rep · v) r :=
    fun hr => hq.fp ▸ hr.after (hq.follows.trans (.moved ..))
  have hready : ∀ ip : Nat, L.Scoped Γ env { q with ip, snapshot := { q.snapshot with stack := p.snapshot.stack } } ∧
      L.Stands { q with ip, snapshot := { q.snapshot with stack := p.snapshot.stack } } :=
    fun ip => ⟨hΓ.follows (hq.follows.trans (.moved ..)) hq.fp, hp.restack hq.stands hq.follows [] rfl rfl⟩
  cases b with
  | true =>
    obtain ⟨hΓ₁, hp₁⟩ := hready (q.ip + 2 + es.size + 1)
    exact .pass (.of_stack hq.stack hway) ((ht hct hthen hlt hΓ₁ hp₁).mono fun v r _ hr => hback hr)
  | false =>
    obtain ⟨hΓ₁, hp₁⟩ := hready (q.ip + 2)
    refine .pass (.of_stack hq.stack hway)
      ((he hce helse (show q.ip + 2 + es.size < _ by omega) hΓ₁ hp₁).follow fun v r _ hr => ?_)
    rw [← hr.ip] at hbranch
    exact ⟨_, _, .branch hbranch hendLabel, hback ⟨rfl, hr.fp, hr.stands.above [] rfl rfl, hr.follows.trans (.moved ..),
      hr.words⟩⟩

/-- What is printed is the top word. It is no event. -/
theorem tracks_print {value : Expr} (h : value.Tracked L fuel call Γ env)
    (hc : value.Coded L.tables L.target.memory ls) (hs : L.listing.Sits p.ip (ls ++ plain [.print]))
    (hlt : p.ip + Listing.size (ls ++ plain [.print]) < L.listing.size) (hΓ : L.Scoped Γ env p) (hp : L.Stands p) :
    L.Tracks fuel p ((Expr.print value span).eval L.target.wrap call env) fun v =>
      L.Pushes p (p.ip + Listing.size (ls ++ plain [.print])) p.snapshot.fp p.snapshot.stack (L.Rep · v) := by
  have hend := hs.right
  rw [Listing.size_append, ← Nat.add_assoc] at hlt ⊢
  refine (h hc hs.left (by omega) hΓ hp).bind fun v q _ hq => ?_
  obtain ⟨vs, hrep, hstack⟩ := hq.words
  obtain ⟨w, rest, rfl⟩ : ∃ w rest, vs = w :: rest := by
    rcases hrep.words_cases with hlen | hlen
    all_goals
      cases vs with
      | nil => cases hlen
      | cons w rest => exact ⟨w, rest, rfl⟩
  rw [← hq.ip] at hend ⊢
  refine .pass (.of_stack hstack (.of_moves hend rfl Moves.print)) ?_
  refine .skip rfl (.refl _) (.pure ?_)
  have hstands : L.Stands { q with ip := q.ip + 1, snapshot := { q.snapshot with
      stack := w :: (rest ++ p.snapshot.stack), out := q.snapshot.out ++ [w] } } := hq.stands.above [] hstack.symm rfl
  exact ⟨rfl, hq.fp, ⟨hstands.heap, hstands.cell, hstands.around, hstands.old, hstands.new, hstands.object,
    hstands.distinct, hstands.outermost⟩, ⟨hq.follows.ledger, hq.follows.live, hq.follows.word⟩, w :: rest, hrep, rfl⟩

end Expr

end ObjLet
