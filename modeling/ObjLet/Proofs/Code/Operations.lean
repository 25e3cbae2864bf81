import ObjLet.Code.Program
import ObjLet.Proofs.Code.OutOfLine
import ObjLet.Proofs.Typing.Checked

/-!
# Generation as operations on the emitter

Generation puts code together before it adds it to a unit: the code of an expression is a list, and a function is
added to the unit whole. Here the same code is emitted the other way round, instruction by instruction as the tree
is walked: an `Emitting` step does operations on an emitter, and a function is opened before its prologue and closed
behind its epilogue, with the functions that are declared in it opened and closed in between.

`Program.generate_eq_emit` says that both ways give the same unit and the same errors, and `Program.nested_emit`
that the operations are properly nested. So what holds of properly nested operations holds of every unit that is
generated: nothing that was emitted is lost, and every function is one block behind the main part.

`Follows` relates a step of generation to a step of emission. There is one rule for each way to put steps together;
the walk over the tree then follows the two definitions side by side.
-/

namespace ObjLet

open Emitter (Operation run nesting Nested)

/-- What emission has done so far. -/
structure EmitState where
  /-- The operations that were done on the emitter. -/
  ops : List Operation := []
  /-- The entries of the methods of each class, by slot. -/
  dispatch : Std.TreeMap ClassId (List Label) := ∅

/-- A step of emission. -/
abbrev Emitting := StateT EmitState (Except InternalError)

namespace Emitting

def perform (op : Operation) : Emitting Unit := modify fun s => { s with ops := s.ops ++ [op] }

def emit (i : Instruction) : Emitting Unit := perform (.emit i)

def emitAll (code : Code) : Emitting Unit := perform (.emitAll code)

/-- Take a label for a branch from the emitter. -/
def freshBranch : Emitting Label := do
  let s ← get
  perform .freshBranch
  return (run s.ops).emitter.freshBranch.1

/-- Take a label for a function from the emitter. -/
def freshFunction : Emitting Label := do
  let s ← get
  perform .freshFunction
  return (run s.ops).emitter.freshFunction.1

/-- Open a function; its handle is the next one. -/
def openFunction (entry : Label) : Emitting Nat := do
  let s ← get
  perform (.begin entry)
  return (run s.ops).handles.length

def closeFunction (f : Nat) : Emitting Unit := perform (.close f)

def setDispatch (cls : ClassId) (table : List Label) : Emitting Unit :=
  modify fun s => { s with dispatch := s.dispatch.insert cls table }

/-- What generation looks up in the tables, of which nothing is emitted. -/
def look {α : Type} (x : Gen α) : Emitting α :=
  fun s => (x.run { dispatch := s.dispatch }).map fun r => (r.1, s)

/-- Pop two values and push `equal` or `different`. -/
def emitSelect (different equal : Int) : Emitting Unit := do
  let equalLabel ← freshBranch
  let endLabel ← freshBranch
  emitAll (Code.select equalLabel endLabel different equal)

/-- Pop two values and push whether the lower one is at most the upper one. -/
def emitLessEqual : Emitting Unit := do
  let trueLabel ← freshBranch
  let endLabel ← freshBranch
  emitAll (Code.lessEqual trueLabel endLabel)

/-- Emit `right` so that it is evaluated only if `left` is not `decisive`. -/
def emitShortCircuit (decisive : Int) (left right : Emitting Unit) : Emitting Unit := do
  let decidedLabel ← freshBranch
  let endLabel ← freshBranch
  left
  emitAll [.push decisive, .branchEqual decidedLabel]
  right
  emitAll [.push decisive, .branchEqual decidedLabel]
  emitAll [.push (1 - decisive), .branch endLabel, .place decidedLabel, .push decisive, .place endLabel]

end Emitting

/-! ## Emission -/

namespace Expr

open Emitting

mutual

/-- Emit the code of an expression. -/
def emit (t : Tables) (mem : Int) : Expr → Emitting Unit
  | literal value _ => Emitting.emit (.push value.word)
  | ident id name => do
    let use ← look (t.use id name.span)
    if use.entry.kind.isValue then
      emitAll (Code.loadValue use.hops use.entry.offset use.entry.ty.words)
    else
      look (Gen.fail (.notAValue name.text use.entry.kind) name.span)
  | call id callee args _ => do
    let use ← look (t.use id callee.span)
    if use.entry.kind = .cls then
      look (Gen.fail (.classCalled callee.text) callee.span)
    else
      Emitting.emit (.load .fp)
      emitLastFirst t mem args
      emitAll (Code.frame use.hops)
      emitAll (Code.callEntry use.entry)
  | new id cls args _ => do
    let use ← look (t.use id cls.span)
    let layout ← look (Gen.orFail (use.entry.declaredClass?.bind t.classes.layout?)
      (.notAClass cls.text) cls.span)
    emitFirstLast t mem args
    emitAll (Code.newObject layout.fieldWords (mem + use.entry.offset))
  | methodCall id _ _ args span => do
    let call ← look (t.methodCall id span)
    Emitting.emit (.load .fp)
    emitLastFirst t mem args
    emitAll (Code.frame call.object.hops)
    emitAll (Code.loadAt call.object.entry.offset)
    emitAll (Code.dispatchCall call.method.offset)
  | binary .add left right _ => do emit t mem left; emit t mem right; Emitting.emit (.arith .add)
  | binary .sub left right _ => do emit t mem left; emit t mem right; Emitting.emit (.arith .sub)
  | binary .mul left right _ => do emit t mem left; emit t mem right; Emitting.emit (.arith .mult)
  | binary .div left right _ => do emit t mem left; emit t mem right; Emitting.emit (.arith .div)
  | binary .equal left right _ => do emit t mem left; emit t mem right; emitSelect 0 1
  | binary .lessEqual left right _ => do emit t mem left; emit t mem right; emitLessEqual
  | binary .greaterEqual left right _ => do emit t mem right; emit t mem left; emitLessEqual
  | binary .and left right _ => emitShortCircuit 0 (emit t mem left) (emit t mem right)
  | binary .or left right _ => emitShortCircuit 1 (emit t mem left) (emit t mem right)
  | unary .not operand _ => do
    emit t mem operand
    Emitting.emit (.push 0)
    emitSelect 0 1
  | cond condition thenExpr elseExpr _ => do
    let thenLabel ← freshBranch
    let endLabel ← freshBranch
    emit t mem condition
    emitAll [.push 1, .branchEqual thenLabel]
    emit t mem elseExpr
    emitAll [.branch endLabel, .place thenLabel]
    emit t mem thenExpr
    Emitting.emit (.place endLabel)
  | print value _ => do
    emit t mem value
    Emitting.emit .print

def emitFirstLast (t : Tables) (mem : Int) : List Expr → Emitting Unit
  | [] => return
  | e :: es => do
    emit t mem e
    emitFirstLast t mem es

def emitLastFirst (t : Tables) (mem : Int) : List Expr → Emitting Unit
  | [] => return
  | e :: es => do
    emitLastFirst t mem es
    emit t mem e

end

end Expr

section Declarations

open Emitting

mutual

/-- Emit the code that a declaration runs where it stands. -/
def Decl.emit (t : Tables) (mem : Int) : Decl → Emitting Unit
  | .var _ _ _ init _ => init.emit t mem
  | .func f => do
    let entry ← freshFunction
    f.emit t mem entry
    Emitting.emit (.load .fp)
    Emitting.emit (.pushLabel entry)
  | .cls ⟨id, name, _, _, methods, span⟩ => do
    let declared ← look (t.declaration id span)
    let cls ← look (Gen.orFail declared.declaredClass? (.noClassEntry name.text) span)
    let inherited ← look (t.inheritedDispatch cls name span)
    let table ← FunDecl.emitEach t mem inherited methods
    emitAll (Code.dispatchTable table)
    setDispatch cls table

/-- Emit a function out of line, from its label on. -/
def FunDecl.emit (t : Tables) (mem : Int) (entry : Label) : FunDecl → Emitting Unit
  | ⟨id, name, _, _, decls, body, span⟩ => do
    let sig ← look (t.functionSignature id name span)
    let localWords ← look (t.localWords decls)
    let f ← openFunction entry
    emitAll Code.prologue
    Decl.emitEach t mem decls
    body.emit t mem
    emitAll (Code.epilogue sig.paramWords localWords sig.returnsFunction)
    closeFunction f

/-- Emit methods and put their entries into a dispatch table. -/
def FunDecl.emitEach (t : Tables) (mem : Int) (table : List Label) : List FunDecl → Emitting (List Label)
  | [] => return table
  | m :: ms => do
    let declared ← look (t.declaration m.id m.span)
    let entry ← freshFunction
    m.emit t mem entry
    let table ← look (Gen.orFail (placeMethod? table declared.offset entry)
      (.slotOutOfRange m.name.text declared.offset) m.span)
    FunDecl.emitEach t mem table ms

def Decl.emitEach (t : Tables) (mem : Int) : List Decl → Emitting Unit
  | [] => return
  | d :: ds => do
    d.emit t mem
    Decl.emitEach t mem ds

end

/-- Emit a program, with its functions out of line. -/
def Program.emit (t : Tables) (mem : Int) (p : Program) : Emitting Unit := do
  emitAll (if p.hasDecls then [.push 0] else [])
  Decl.emitEach t mem p.decls
  p.body.emit t mem
  Emitting.emit .halt

end Declarations

/-! ## Nested operations -/

namespace Emitter

/-- Functions are numbered like their handles, so the number of the next one is known before it is opened. -/
theorem begun_nesting (ops : List Operation) : (nesting ops).begun = (run ops).handles.length := by
  induction ops using List.reverseRecOn with
  | nil => rfl
  | append_singleton ops op ih =>
    rw [nesting_concat, run_concat]
    cases op with
    | close f => cases h : (run ops).handles[f]? <;> simp [Nesting.step, Session.step, h, ih]
    | _ => simp [Nesting.step, Session.step, ih]

/-- From one sequence of operations to a longer one: what is opened is closed again, and `code` is added to the
code at hand. This is what a step of emission does, whatever functions it emits on the way. Handles stay where they
are, so a function that is open can still be closed by its number. -/
structure Adds (ops : List Operation) (code : Code) (ops' : List Operation) : Prop where
  allowed : ∃ more, ops' = ops ++ more ∧ (nesting ops).AllowsAll more
  pending : (nesting ops').pending = (nesting ops).pending
  code : (run ops').emitter.code = (run ops).emitter.code ++ code
  handles : (run ops).handles <+: (run ops').handles

namespace Adds

variable {ops ops' ops'' : List Operation} {c c' : Code}

theorem refl (ops : List Operation) : Adds ops [] ops :=
  ⟨⟨[], (List.append_nil _).symm, trivial⟩, rfl, (List.append_nil _).symm, List.prefix_rfl⟩

/-- Nested stretches of operations can follow each other. -/
theorem trans (h : Adds ops c ops') (h' : Adds ops' c' ops'') : Adds ops (c ++ c') ops'' where
  allowed := by
    obtain ⟨more, rfl, hmore⟩ := h.allowed
    obtain ⟨more', rfl, hmore'⟩ := h'.allowed
    refine ⟨more ++ more', List.append_assoc .., (Nesting.allowsAll_append _).2 ⟨hmore, ?_⟩⟩
    rwa [nesting, List.foldl_append] at hmore'
  pending := h'.pending.trans h.pending
  code := by rw [h'.code, h.code, List.append_assoc]
  handles := h.handles.trans h'.handles

/-- An operation that opens and closes nothing. -/
theorem plain (op : Operation) (he : op.entry? = none) (hc : op.closed? = none) :
    Adds ops op.inside (ops ++ [op]) where
  allowed := ⟨[op], rfl, by cases op <;> simp_all [Nesting.AllowsAll, Nesting.Allows, Operation.closed?]⟩
  pending := by cases op <;> simp_all [Nesting.step, Operation.entry?, Operation.closed?]
  code := by
    cases op <;> simp_all [Session.step, Operation.inside, Operation.entry?, Operation.closed?, Emitter.emit,
      Emitter.emitAll, Emitter.freshBranch, Emitter.freshFunction]
  handles := by
    cases op <;> simp_all [Session.step, Operation.entry?, Operation.closed?]

/-- A function is opened, `c` is emitted in it, and it is closed: the code at hand is what it was, and the function is
behind those that were finished while it was open. -/
theorem function {entry : Label} (h : Adds (ops ++ [.begin entry]) c ops') :
    Adds ops [] (ops' ++ [.close (run ops).handles.length]) ∧
      (run (ops' ++ [.close (run ops).handles.length])).emitter =
        { code := (run ops).emitter.code
          functions := (run ops').emitter.functions ++ .place entry :: c
          labels := (run ops').emitter.labels } := by
  have hopened : run (ops ++ [.begin entry]) = ⟨⟨[.place entry], (run ops).emitter.functions,
      (run ops).emitter.labels⟩, (run ops).handles ++ [⟨(run ops).emitter.code⟩]⟩ := run_concat ops _
  -- What was done in the function has left its handle where it was put, and with it the code around the function.
  have hhandles := h.handles
  rw [hopened] at hhandles
  have hhandle : (run ops').handles[(run ops).handles.length]? = some ⟨(run ops).emitter.code⟩ := by
    obtain ⟨later, hlater⟩ := hhandles
    simp [← hlater]
  have hclosed : run (ops' ++ [.close (run ops).handles.length]) =
      { run ops' with emitter := (run ops').emitter.finishFunction ⟨(run ops).emitter.code⟩ } := by
    rw [run_concat, Session.step, hhandle]
  -- Whatever was opened in the function is closed, so the function itself is the innermost open one.
  have hpending : (nesting ops').pending = (run ops).handles.length :: (nesting ops).pending := by
    rw [h.pending, nesting_concat, Nesting.step, begun_nesting]
  have hadds : Adds ops [] (ops' ++ [.close (run ops).handles.length]) := by
    constructor
    case allowed =>
      obtain ⟨more, rfl, hmore⟩ := h.allowed
      refine ⟨.begin entry :: more ++ [.close (run ops).handles.length], by simp, ?_⟩
      refine (Nesting.allowsAll_append _).2 ⟨⟨trivial, by rwa [nesting_concat] at hmore⟩, ?_, trivial⟩
      have hnesting : (Operation.begin entry :: more).foldl Nesting.step (nesting ops) =
          nesting (ops ++ [.begin entry] ++ more) := by
        simp [nesting]
      rw [hnesting, Nesting.Allows, hpending, List.head?_cons]
    case pending => rw [nesting_concat, Nesting.step, hpending, List.tail_cons]
    case code => rw [hclosed, Emitter.finishFunction, List.append_nil]
    case handles =>
      rw [hclosed]
      exact (List.prefix_append _ _).trans hhandles
  refine ⟨hadds, ?_⟩
  have hcode : (run ops').emitter.code = .place entry :: c := by
    rw [h.code, hopened]
    rfl
  rw [hclosed, Emitter.finishFunction, hcode]

end Adds

end Emitter

/-! ## Following generation -/

/-- Emission has done what generation has: the same functions are finished, the same labels are taken and the same
dispatch tables are filled. Generation has no code at hand, since it returns what it generates. -/
structure EmitState.Matches (s : EmitState) (g : GenState) : Prop where
  code : g.emitter.code = []
  functions : (run s.ops).emitter.functions = g.emitter.functions
  labels : (run s.ops).emitter.labels = g.emitter.labels
  dispatch : s.dispatch = g.dispatch

namespace Emitting

/-- The same error, or related results. -/
def Alike {α β : Type} (Q : α → β → Prop) : Except InternalError α → Except InternalError β → Prop
  | .ok a, .ok b => Q a b
  | .error e, .error e' => e = e'
  | _, _ => False

section

variable {α β γ δ : Type} {Q : α → β → Prop} {r : Except InternalError α} {r' : Except InternalError β}

/-- Two computations that fail alike go on alike. -/
theorem Alike.bind {R : γ → δ → Prop} {f : α → Except InternalError γ} {k : β → Except InternalError δ}
    (h : Alike Q r r') (hf : ∀ a b, Q a b → Alike R (f a) (k b)) : Alike R (r >>= f) (r' >>= k) := by
  cases r <;> cases r'
  case ok.ok a b => exact hf a b h
  case error.error => exact h
  all_goals exact h.elim

theorem Alike.mono {R : α → β → Prop} (h : Alike Q r r') (hq : ∀ a b, Q a b → R a b) : Alike R r r' := by
  cases r <;> cases r'
  case ok.ok a b => exact hq a b h
  all_goals exact h

end

/-- From states that match, `y` fails as `x` does, or it ends with a result that is related to that of `x` and to
the code that was emitted, in states that match again. -/
def Follows {α β : Type} (y : Emitting β) (x : Gen α) (Q : α → β → Code → Prop) : Prop :=
  ∀ s g, s.Matches g →
    Alike (fun a b => ∃ c, Q a.1 b.1 c ∧ Emitter.Adds s.ops c b.2.ops ∧ b.2.Matches a.2) (x.run g) (y.run s)

/-- `y` emits `c` where generation does nothing. -/
def Puts (y : Emitting Unit) (c : Code) : Prop := y.Follows (pure ()) fun _ _ c' => c' = c

/-- The code that `y` emits is what `x` returns. -/
def Emits (y : Emitting Unit) (x : Gen Code) : Prop := y.Follows x fun a _ c => c = a

/-- `y` has the result of `x` and emits nothing where it stands. -/
def Finds {α : Type} (y : Emitting α) (x : Gen α) : Prop := y.Follows x fun a b c => b = a ∧ c = []

variable {α β γ δ : Type} {x : Gen α} {y : Emitting β} {f : α → Gen γ} {k : β → Emitting δ}
  {P : α → β → Code → Prop} {Q : γ → δ → Code → Prop}

namespace Follows

theorem pure {a : α} {b : β} (h : P a b []) : Follows (Pure.pure b) (Pure.pure a) P :=
  fun s _ hs => ⟨[], h, .refl s.ops, hs⟩

/-- What the second steps emit comes behind what the first ones emit. -/
theorem bind (h : y.Follows x P)
    (hf : ∀ a b c, P a b c → (k b).Follows (f a) fun a' b' c' => Q a' b' (c ++ c')) :
    (y >>= k).Follows (x >>= f) Q := by
  intro s g hs
  rw [StateT.run_bind, StateT.run_bind]
  refine (h s g hs).bind fun a b hab => ?_
  obtain ⟨c, hc, hadds, hmatch⟩ := hab
  refine (hf a.1 b.1 c hc b.2 a.2 hmatch).mono fun a' b' hab' => ?_
  obtain ⟨c', hc', hadds', hmatch'⟩ := hab'
  exact ⟨c ++ c', hc', hadds.trans hadds', hmatch'⟩

/-- What was found is the same on both sides, so the second steps need only be related where their inputs are equal. -/
theorem found {y : Emitting α} {k : α → Emitting δ} (h : y.Finds x) (hf : ∀ a, (k a).Follows (f a) Q) :
    (y >>= k).Follows (x >>= f) Q :=
  h.bind fun a b c hab => by
    obtain ⟨rfl, rfl⟩ := hab
    exact hf b

/-- Generation holds the code in a variable from here on; emission has already put it behind the rest. -/
theorem emitted {x : Gen Code} {y : Emitting Unit} {f : Code → Gen γ} {k : Unit → Emitting δ} (h : y.Emits x)
    (hf : ∀ c, (k ()).Follows (f c) fun a b c' => Q a b (c ++ c')) : (y >>= k).Follows (x >>= f) Q :=
  h.bind fun a b c hab => by
    obtain rfl := hab
    exact hf c

/-- Emission goes on alone, with an instruction that generation will put around the code it has. -/
theorem put {y : Emitting Unit} {k : Unit → Emitting δ} {x : Gen γ} {c : Code} (h : y.Puts c)
    (hk : (k ()).Follows x fun a b c' => Q a b (c ++ c')) : (y >>= k).Follows x Q := by
  rw [← pure_bind () fun _ => x]
  exact h.bind fun _ _ c' hc => by
    obtain rfl := hc
    exact hk

/-- Generation returns when the last code is emitted. -/
theorem ends {y : Emitting Unit} {a : γ} {c : Code} {Q : γ → Unit → Code → Prop} (h : y.Puts c)
    (hq : Q a () c) : y.Follows (Pure.pure a) Q := by
  rw [← bind_pure y]
  exact .put h (.pure (by rwa [List.append_nil]))

/-- Generation only puts the last code to what it has. -/
theorem last {x : Gen Code} {y : Emitting Unit} {r : Code → γ} {Q : γ → Unit → Code → Prop} (h : y.Emits x)
    (hq : ∀ c, Q (r c) () c) : y.Follows (x >>= fun c => Pure.pure (r c)) Q := by
  rw [← bind_pure y]
  exact .emitted h fun c => .pure (by rw [List.append_nil]; exact hq c)

end Follows

/-! ### Single operations -/

/-- The operations of emission are matched with generation one by one. Those that emit have no counterpart in
generation, which emits nothing until the end. -/
theorem puts_emitAll (code : Code) : (emitAll code).Puts code := by
  intro s g hs
  have hrun := Emitter.run_concat s.ops (.emitAll code)
  exact ⟨code, rfl, .plain (.emitAll code) rfl rfl, hs.code, hrun ▸ hs.functions, hrun ▸ hs.labels,
    hs.dispatch⟩

theorem puts_emit (i : Instruction) : (emit i).Puts [i] := by
  intro s g hs
  have hrun := Emitter.run_concat s.ops (.emit i)
  exact ⟨[i], rfl, .plain (.emit i) rfl rfl, hs.code, hrun ▸ hs.functions, hrun ▸ hs.labels, hs.dispatch⟩

/-- Both sides take their labels from supplies that are equal, so they get the same one. -/
theorem finds_freshBranch : freshBranch.Finds Gen.freshBranch := by
  intro s g hs
  have hrun := Emitter.run_concat s.ops .freshBranch
  have hlabels := congrArg LabelSupply.freshBranch hs.labels
  exact ⟨[], ⟨congrArg Prod.fst hlabels, rfl⟩, .plain .freshBranch rfl rfl, hs.code, hrun ▸ hs.functions,
    hrun ▸ congrArg Prod.snd hlabels, hs.dispatch⟩

theorem finds_freshFunction : freshFunction.Finds Gen.freshFunction := by
  intro s g hs
  have hrun := Emitter.run_concat s.ops .freshFunction
  have hlabels := congrArg LabelSupply.freshFunction hs.labels
  exact ⟨[], ⟨congrArg Prod.fst hlabels, rfl⟩, .plain .freshFunction rfl rfl, hs.code, hrun ▸ hs.functions,
    hrun ▸ congrArg Prod.snd hlabels, hs.dispatch⟩

theorem finds_setDispatch (cls : ClassId) (table : List Label) :
    (setDispatch cls table).Finds (Gen.setDispatch cls table) :=
  fun s _ hs => ⟨[], ⟨rfl, rfl⟩, .refl s.ops, hs.code, hs.functions, hs.labels,
    congrArg (·.insert cls table) hs.dispatch⟩

/-- Generation adds a function whole, with the code of its parts; emission opens it before that code is emitted. The
functions in it are finished before it on both sides. -/
theorem finds_addFunction {x : Gen Code} {y : Emitting Unit} (h : y.Emits x) (entry : Label) :
    Finds (openFunction entry >>= fun f => y >>= fun _ => closeFunction f) (x >>= Gen.addFunction entry) := by
  intro s g hs
  have hopened : EmitState.Matches { s with ops := s.ops ++ [.begin entry] } g := by
    have hrun := Emitter.run_concat s.ops (.begin entry)
    exact ⟨hs.code, hrun ▸ hs.functions, hrun ▸ hs.labels, hs.dispatch⟩
  rw [StateT.run_bind]
  refine (h _ g hopened).bind fun a b hab => ?_
  obtain ⟨c, rfl, hadds, hmatch⟩ := hab
  obtain ⟨hfunction, hrun⟩ := hadds.function
  refine ⟨[], ⟨rfl, rfl⟩, hfunction, hmatch.code, ?_, ?_, hmatch.dispatch⟩
  · rw [congrArg Emitter.functions hrun, hmatch.functions]
    rfl
  · exact (congrArg Emitter.labels hrun).trans hmatch.labels

/-! ### Looking things up -/

/-- A step of generation that only looks things up: all it reads of the state is the dispatch tables. -/
def Reads {α : Type} (x : Gen α) : Prop :=
  ∀ g, x.run g = (x.run { dispatch := g.dispatch }).map fun r => (r.1, g)

/-- What only reads the dispatch tables has the same result on both sides, or the same error. -/
theorem finds_look (h : Reads x) : (look x).Finds x := by
  intro s g hs
  have hlook : (look x).run s = (x.run { dispatch := g.dispatch }).map fun r => (r.1, s) := by
    rw [← hs.dispatch]
    rfl
  rw [hlook, h g]
  cases x.run { dispatch := g.dispatch } with
  | error e => rfl
  | ok r => exact ⟨[], ⟨rfl, rfl⟩, .refl s.ops, hs⟩

theorem Reads.pure (a : α) : Reads (Pure.pure a) := fun _ => rfl

/-- The lookups of generation are put together from lookups that may fail. -/
theorem Reads.bind (hx : Reads x) (hf : ∀ a, Reads (f a)) : Reads (x >>= f) := by
  intro g
  have hread := hx { dispatch := g.dispatch }
  rw [StateT.run_bind, StateT.run_bind, hx g]
  cases h : x.run { dispatch := g.dispatch } with
  | error e => rfl
  | ok r =>
    -- Looking up leaves the state as it is, so the second step reads the same tables as the first.
    rw [h] at hread
    have hstate : r.2 = { dispatch := g.dispatch } := congrArg Prod.snd (Except.ok.inj hread)
    change (f r.1).run g = ((f r.1).run r.2).map fun r => (r.1, g)
    rw [hstate]
    exact hf r.1 g

theorem reads_fail (misfit : Misfit) (span : Span) : Reads (Gen.fail misfit span : Gen α) := fun _ => rfl

theorem reads_orFail (value? : Option α) (misfit : Misfit) (span : Span) :
    Reads (Gen.orFail value? misfit span) := by
  cases value? with
  | none => exact reads_fail misfit span
  | some a => exact .pure a

variable {t : Tables} {mem : Int}

theorem finds_use (id : NodeId) (span : Span) : (look (t.use id span)).Finds (t.use id span) :=
  finds_look (reads_orFail _ _ _)

theorem reads_localWords (ds : List Decl) : Reads (t.localWords ds) := by
  induction ds with
  | nil => exact .pure 0
  | cons d ds ih =>
    rw [Tables.localWords]
    exact .bind (reads_orFail _ _ _) fun _ => .bind ih fun _ => .pure _

theorem reads_functionSignature (id : NodeId) (name : Name) (span : Span) :
    Reads (t.functionSignature id name span) :=
  .bind (reads_orFail _ _ _) fun _ => reads_orFail _ _ _

/-- This is the one lookup that reads the state: the table of a superclass is there if its class has been
generated. -/
theorem reads_inheritedDispatch (cls : ClassId) (name : Name) (span : Span) :
    Reads (t.inheritedDispatch cls name span) := by
  rw [Tables.inheritedDispatch]
  split
  · exact .pure []
  · exact .bind (fun _ => rfl) fun _ => reads_orFail _ _ _

/-- Where generation gives up, emission does so with the same error. -/
theorem follows_fail {misfit : Misfit} {span : Span} {Q : γ → β → Code → Prop} :
    (look (Gen.fail misfit span)).Follows (Gen.fail misfit span) Q := fun _ _ _ => rfl

/-! ### Choices -/

variable {before : Code} {Q : Code → Unit → Code → Prop}

/-- The choice at the end of an operator. What stands before it is what the operands have emitted already. -/
theorem follows_emitSelect (different equal : Int) (hq : ∀ c, Q (before ++ c) () c) :
    (emitSelect different equal).Follows (Gen.freshBranch >>= fun l => Gen.freshBranch >>= fun l' =>
      Pure.pure (before ++ Code.select l l' different equal)) Q :=
  .found finds_freshBranch fun _ => .found finds_freshBranch fun _ => .ends (puts_emitAll _) (hq _)

theorem follows_emitLessEqual (hq : ∀ c, Q (before ++ c) () c) :
    emitLessEqual.Follows (Gen.freshBranch >>= fun l => Gen.freshBranch >>= fun l' =>
      Pure.pure (before ++ Code.lessEqual l l')) Q :=
  .found finds_freshBranch fun _ => .found finds_freshBranch fun _ => .ends (puts_emitAll _) (hq _)

/-- Labels are taken before the left operand on both sides. -/
theorem emits_emitShortCircuit {left right : Emitting Unit} {left' right' : Gen Code} (hl : left.Emits left')
    (hr : right.Emits right') (decisive : Int) :
    (emitShortCircuit decisive left right).Emits (Gen.freshBranch >>= fun l => Gen.freshBranch >>= fun l' =>
      left' >>= fun cl => right' >>= fun cr => Pure.pure (Code.shortCircuit l l' decisive cl cr)) :=
  .found finds_freshBranch fun l => .found finds_freshBranch fun l' => .emitted hl fun cl =>
    .put (puts_emitAll _) (.emitted hr fun cr => .put (puts_emitAll _) (.ends (puts_emitAll _)
      (by simp [Code.shortCircuit])))

end Emitting

/-! ## Expressions -/

open Emitting

variable {t : Tables} {mem : Int}

namespace Expr

/-- The arguments of `new` are emitted in the order in which they are generated. -/
theorem emits_emitFirstLast {args : List Expr} (h : ∀ a ∈ args, (a.emit t mem).Emits (a.gen t mem)) :
    (emitFirstLast t mem args).Emits (genFirstLast t mem args) := by
  induction args with
  | nil => exact .pure rfl
  | cons a as ih =>
    obtain ⟨ha, has⟩ := List.forall_mem_cons.1 h
    rw [emitFirstLast, genFirstLast]
    exact .emitted ha fun _ => .last (ih has) fun _ => rfl

/-- The arguments of a call are walked from the last to the first on both sides, so labels agree. -/
theorem emits_emitLastFirst {args : List Expr} (h : ∀ a ∈ args, (a.emit t mem).Emits (a.gen t mem)) :
    (emitLastFirst t mem args).Emits (genLastFirst t mem args) := by
  induction args with
  | nil => exact .pure rfl
  | cons a as ih =>
    obtain ⟨ha, has⟩ := List.forall_mem_cons.1 h
    rw [emitLastFirst, genLastFirst]
    exact .emitted (ih has) fun _ => .last ha fun _ => rfl

theorem emits_emit_ident (id : NodeId) (name : Name) :
    ((ident id name).emit t mem).Emits ((ident id name).gen t mem) := by
  refine .found (finds_use id name.span) fun use => ?_
  split
  · exact .ends (puts_emitAll _) rfl
  · exact follows_fail

/-- The frame of the callee is emitted behind the arguments. -/
theorem emits_emit_call {args : List Expr} (h : ∀ a ∈ args, (a.emit t mem).Emits (a.gen t mem)) (id : NodeId)
    (callee : Name) (span : Span) :
    ((call id callee args span).emit t mem).Emits ((call id callee args span).gen t mem) := by
  refine .found (finds_use id callee.span) fun use => ?_
  split
  · exact follows_fail
  · refine .put (puts_emit _) (.emitted (emits_emitLastFirst h) fun c => ?_)
    exact .put (puts_emitAll _) (.ends (puts_emitAll _) (by simp))

theorem emits_emit_new {args : List Expr} (h : ∀ a ∈ args, (a.emit t mem).Emits (a.gen t mem)) (id : NodeId)
    (cls : Name) (span : Span) :
    ((new id cls args span).emit t mem).Emits ((new id cls args span).gen t mem) := by
  refine .found (finds_use id cls.span) fun use => .found (finds_look (reads_orFail _ _ _)) fun layout => ?_
  exact .emitted (emits_emitFirstLast h) fun c => .ends (puts_emitAll _) rfl

theorem emits_emit_methodCall {args : List Expr} (h : ∀ a ∈ args, (a.emit t mem).Emits (a.gen t mem))
    (id : NodeId) (object method : Name) (span : Span) :
    ((methodCall id object method args span).emit t mem).Emits
      ((methodCall id object method args span).gen t mem) := by
  refine .found (finds_look (reads_orFail _ _ _)) fun call => ?_
  refine .put (puts_emit _) (.emitted (emits_emitLastFirst h) fun c => ?_)
  exact .put (puts_emitAll _) (.put (puts_emitAll _) (.ends (puts_emitAll _) (by simp)))

theorem emits_emit_binary {left right : Expr} (hl : (left.emit t mem).Emits (left.gen t mem))
    (hr : (right.emit t mem).Emits (right.gen t mem)) (op : BinaryOp) (span : Span) :
    ((binary op left right span).emit t mem).Emits ((binary op left right span).gen t mem) := by
  cases op with
  | add | sub | mul | div =>
    exact .emitted hl fun _ => .emitted hr fun _ => .ends (puts_emit _) (List.append_assoc ..).symm
  | equal =>
    exact .emitted hl fun _ => .emitted hr fun _ => follows_emitSelect 0 1 fun _ => (List.append_assoc ..).symm
  | lessEqual =>
    exact .emitted hl fun _ => .emitted hr fun _ => follows_emitLessEqual fun _ => (List.append_assoc ..).symm
  | greaterEqual =>
    exact .emitted hr fun _ => .emitted hl fun _ => follows_emitLessEqual fun _ => (List.append_assoc ..).symm
  | and | or =>
    exact emits_emitShortCircuit hl hr _

theorem emits_emit_cond {condition thenExpr elseExpr : Expr}
    (hc : (condition.emit t mem).Emits (condition.gen t mem))
    (ht : (thenExpr.emit t mem).Emits (thenExpr.gen t mem))
    (he : (elseExpr.emit t mem).Emits (elseExpr.gen t mem)) (span : Span) :
    ((cond condition thenExpr elseExpr span).emit t mem).Emits
      ((cond condition thenExpr elseExpr span).gen t mem) := by
  refine .found finds_freshBranch fun l => .found finds_freshBranch fun l' => ?_
  refine .emitted hc fun c => .put (puts_emitAll _) (.emitted he fun ce => .put (puts_emitAll _) ?_)
  exact .emitted ht fun ct => .ends (puts_emit _) (by simp [Code.cond])

/-- Emission of an expression follows its generation, one construct at a time. -/
theorem emits_emit (e : Expr) : (e.emit t mem).Emits (e.gen t mem) := by
  induction e using Expr.induction with
  | literal value span =>
    exact .ends (puts_emit _) rfl
  | ident id name => exact emits_emit_ident id name
  | call id callee args span ih => exact emits_emit_call ih id callee span
  | new id cls args span ih => exact emits_emit_new ih id cls span
  | methodCall id object method args span ih => exact emits_emit_methodCall ih id object method span
  | binary op left right span ihl ihr => exact emits_emit_binary ihl ihr op span
  | unary op operand span ih =>
    cases op with
    | not =>
      exact .emitted ih fun _ => .put (puts_emit _) (follows_emitSelect 0 1 fun _ => (List.append_assoc ..).symm)
  | cond condition thenExpr elseExpr span ihc iht ihe => exact emits_emit_cond ihc iht ihe span
  | print value span ih =>
    exact .emitted ih fun _ => .ends (puts_emit _) rfl

end Expr

/-! ## Declarations -/

/-- A function is emitted out of line where generation adds it to the unit. -/
theorem FunDecl.finds_emit_of_decls {f : FunDecl}
    (hds : (Decl.emitEach t mem f.decls).Emits (Decl.genAll t mem f.decls)) (entry : Label) :
    (f.emit t mem entry).Finds (f.gen t mem entry) := by
  obtain ⟨id, name, params, ret, decls, body, span⟩ := f
  rw [FunDecl.emit, FunDecl.gen]
  refine .found (finds_look (reads_functionSignature id name span)) fun sig => ?_
  refine .found (finds_look (reads_localWords decls)) fun localWords => ?_
  have hbody : Emitting.Emits
      (emitAll Code.prologue >>= fun _ => Decl.emitEach t mem decls >>= fun _ => body.emit t mem >>= fun _ =>
        emitAll (Code.epilogue sig.paramWords localWords sig.returnsFunction))
      (Decl.genAll t mem decls >>= fun ds => body.gen t mem >>= fun bs => pure (Code.prologue ++ ds ++ bs ++
        Code.epilogue sig.paramWords localWords sig.returnsFunction)) :=
    .put (puts_emitAll _) (.emitted hds fun ds => .emitted (Expr.emits_emit body) fun bs =>
      .ends (puts_emitAll _) (by simp))
  have hfunction := finds_addFunction hbody entry
  simp only [bind_assoc, pure_bind] at hfunction
  exact hfunction

mutual

/-- By recursion over declarations, functions and methods, as both definitions go. -/
theorem Decl.emits_emit : (d : Decl) → (d.emit t mem).Emits (d.gen t mem)
  | .var _ _ _ init _ => by
    rw [Decl.emit, Decl.gen]
    exact Expr.emits_emit init
  | .func f => by
    rw [Decl.emit, Decl.gen]
    refine .found finds_freshFunction fun entry => .found (FunDecl.finds_emit f entry) fun _ => ?_
    exact .put (puts_emit _) (.ends (puts_emit _) rfl)
  | .cls ⟨id, name, superclass, fields, methods, span⟩ => by
    rw [Decl.emit, Decl.gen]
    refine .found (finds_look (reads_orFail _ _ _)) fun declared => ?_
    refine .found (finds_look (reads_orFail _ _ _)) fun cls => ?_
    refine .found (finds_look (reads_inheritedDispatch cls name span)) fun inherited => ?_
    refine .found (FunDecl.finds_emitEach methods inherited) fun table => .put (puts_emitAll _) ?_
    rw [← bind_pure (Emitting.setDispatch cls table)]
    exact .found (finds_setDispatch cls table) fun _ => .pure (List.append_nil _)

/-- A function leaves no code where it stands, on either side. -/
theorem FunDecl.finds_emit : (f : FunDecl) → (entry : Label) → (f.emit t mem entry).Finds (f.gen t mem entry)
  | ⟨_, _, _, _, decls, _, _⟩, entry => FunDecl.finds_emit_of_decls (Decl.emits_emitEach decls) entry

/-- The dispatch table is passed along in the same way on both sides. -/
theorem FunDecl.finds_emitEach : (ms : List FunDecl) → (table : List Label) →
    (FunDecl.emitEach t mem table ms).Finds (FunDecl.genAll t mem table ms)
  | [], table => .pure ⟨rfl, rfl⟩
  | m :: ms, table => by
    rw [FunDecl.emitEach, FunDecl.genAll]
    refine .found (finds_look (reads_orFail _ _ _)) fun declared => ?_
    refine .found finds_freshFunction fun entry => .found (FunDecl.finds_emit m entry) fun _ => ?_
    exact .found (finds_look (reads_orFail _ _ _)) fun table' => FunDecl.finds_emitEach ms table'

theorem Decl.emits_emitEach : (ds : List Decl) → (Decl.emitEach t mem ds).Emits (Decl.genAll t mem ds)
  | [] => .pure rfl
  | d :: ds => by
    rw [Decl.emitEach, Decl.genAll]
    exact .emitted (Decl.emits_emit d) fun _ => .last (Decl.emits_emitEach ds) fun _ => rfl

end

/-! ## Programs -/

theorem Program.emits_emit (p : Program) : (p.emit t mem).Emits (p.gen t mem) := by
  rw [Program.emit, Program.gen]
  refine .put (puts_emitAll _) (.emitted (Decl.emits_emitEach p.decls) fun ds => ?_)
  exact .emitted (Expr.emits_emit p.body) fun bs => .ends (puts_emit _) (by simp)

/-- Generation and emission fail alike, or both end: then the unit that is generated is the one that was emitted, by
properly nested operations. -/
theorem Program.alike_emit (t : Tables) (mem : Int) (p : Program) :
    Alike (fun u r => u = (run r.2.ops).emitter.finish ∧ Nested r.2.ops) (p.generate t mem)
      ((p.emit t mem).run {}) := by
  rw [Program.generate, ← bind_pure ((p.emit t mem).run {})]
  refine (Program.emits_emit p {} {} ⟨rfl, rfl, rfl, rfl⟩).bind fun a b hab => ?_
  obtain ⟨c, rfl, hadds, hmatch⟩ := hab
  refine ⟨?_, ?_, hadds.pending⟩
  · have hcode : (run b.2.ops).emitter.code = a.1 := hadds.code
    rw [Emitter.finish, Emitter.finish, Emitter.emitAll, hmatch.code, hcode, hmatch.functions]
    rfl
  · obtain ⟨more, hmore, hallowed⟩ := hadds.allowed
    rwa [hmore]

/-- Emitting a program operation by operation gives the unit that is generated, and fails where generation fails,
with the same error. -/
theorem Program.generate_eq_emit (t : Tables) (mem : Int) (p : Program) :
    p.generate t mem = ((p.emit t mem).run {}).map fun r => (run r.2.ops).emitter.finish := by
  have halike := p.alike_emit t mem
  cases hgen : p.generate t mem <;> cases hemit : (p.emit t mem).run {} <;> rw [hgen, hemit] at halike
  case error.error => exact congrArg Except.error halike
  case ok.ok => exact congrArg Except.ok halike.1
  all_goals exact halike.elim

/-- The operations that emit a program are properly nested. -/
theorem Program.nested_emit {p : Program} {r : Unit × EmitState} (h : (p.emit t mem).run {} = .ok r) :
    Nested r.2.ops := by
  have halike := p.alike_emit t mem
  rw [h] at halike
  cases hgen : p.generate t mem <;> rw [hgen] at halike
  · exact halike.elim
  · exact halike.2

end ObjLet
