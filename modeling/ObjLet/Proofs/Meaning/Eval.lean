import ObjLet.Proofs.Meaning.Value

/-!
# The meaning of programs

A reference evaluator: call by value with lexical scoping. It says what a program means without
regard to tables, offsets or machine words; names are looked up as names.

Arguments of a call are evaluated from last to first, those of `new` from first to last, operands from
left to right except those of `>=`. `&&` and `||` evaluate their right operand only if the left one
does not decide. A method is that of the nearest class of the object that declares it.

Evaluation is bounded by a depth of calls (`FunDecl.call`). Besides a value it can end by running out
of that bound, by a division by zero, by a method call on null, or stuck, where something has not the
shape that its place asks for.

A `History` counts activations and objects and keeps the output. Beside its outcome, an evaluation lists
the `Event`s at which code and meaning can be compared. Nothing is decided by either.
-/

namespace ObjLet

/-- Something that happens during evaluation. -/
inductive Event where
  /-- A call of a function or method starts a new activation. -/
  | entered (function : NodeId) (activation : Nat)
  /-- A `new` creates an object. -/
  | created (site : NodeId) (object : Nat)
  /-- A use of a name finds the place that holds its declaration and the value that it has there. The
  search may have `crossed` the frame of an object, from a method to what is declared around its
  class. -/
  | reached (site : NodeId) (place : Place) (value : Value) (crossed : Bool)
  /-- A function value is called after the activation that declared it has ended. -/
  | outlived (site : NodeId)

structure History where
  /-- Number of activations so far; the outermost one is 0. -/
  activations : Nat := 1
  /-- Number of objects so far. -/
  objects : Nat := 0
  /-- The activations that have not ended, innermost first. -/
  live : List Nat := [0]
  output : List Value := []

/-- How an evaluation ends. -/
inductive Outcome (α : Type) where
  | value (a : α)
  | outOfFuel
  | divisionByZero
  | nullCall
  | stuck

/-- An evaluation: it goes on from a history and ends with a longer one and with what happened on the
way. -/
def Eval (α : Type) := History → Outcome α × History × List Event

namespace Eval

variable {α β : Type}

/-- End with an outcome. -/
def done (o : Outcome α) : Eval α := fun h => (o, h, [])

def andThen (x : Eval α) (f : α → Eval β) : Eval β := fun h =>
  match x h with
  | (.value a, h', es) =>
    let (o, h'', es') := f a h'
    (o, h'', es ++ es')
  | (.outOfFuel, h', es) => (.outOfFuel, h', es)
  | (.divisionByZero, h', es) => (.divisionByZero, h', es)
  | (.nullCall, h', es) => (.nullCall, h', es)
  | (.stuck, h', es) => (.stuck, h', es)

instance : Monad Eval where
  pure a := done (.value a)
  bind := andThen

/-- The value of an option; without one, evaluation is stuck. -/
def orStuck (a? : Option α) : Eval α :=
  match a? with
  | some a => pure a
  | none => done .stuck

def log (e : Event) : Eval Unit := fun h => (.value (), h, [e])

def print (v : Value) : Eval Unit := fun h => (.value (), { h with output := h.output ++ [v] }, [])

/-- Start an activation of a function. -/
def enter (function : NodeId) : Eval Nat := fun h =>
  (.value h.activations,
    { h with activations := h.activations + 1, live := h.activations :: h.live },
    [.entered function h.activations])

/-- End the innermost activation. -/
def leave : Eval Unit := fun h => (.value (), { h with live := h.live.tail }, [])

def create (site : NodeId) (lineage : List ClassValue) (fields : List (String × Value)) :
    Eval Value := fun h =>
  (.value (.object h.objects lineage fields), { h with objects := h.objects + 1 },
    [.created site h.objects])

/-- Note that a function value is about to be called. -/
def useClosure (site : NodeId) (env : List Frame) : Eval Unit := fun h =>
  match env with
  | ⟨.activation a, _⟩ :: _ => if a ∈ h.live then (.value (), h, []) else log (.outlived site) h
  | _ => (.value (), h, [])

end Eval

namespace Value

/-- Function values take two words. -/
def words : Value → Nat
  | closure _ _ => 2
  | _ => 1

/-- Booleans count as 0 and 1. -/
def int? : Value → Option Int
  | int n => some n
  | bool b => some (if b then 1 else 0)
  | _ => none

def bool? : Value → Option Bool
  | bool b => some b
  | _ => none

/-- Whether two values are the same. Objects are compared by identity; function values cannot be
compared, nor numbers with objects. -/
def same? : Value → Value → Option Bool
  | null, null => some true
  | null, object _ _ _ | object _ _ _, null => some false
  | object a _ _, object b _ _ => some (a == b)
  | v, w =>
    match v.int?, w.int? with
    | some m, some n => some (m == n)
    | _, _ => none

end Value

def Literal.value : Literal → Value
  | int n => .int n
  | bool b => .bool b
  | null => .null

/-- Arithmetic on words; `wrap` is what becomes of a result that need not fit a word. -/
def BinaryOp.arith (wrap : Int → Int) (op : BinaryOp) (m n : Int) : Eval Value :=
  match op with
  | add => pure (.int (wrap (m + n)))
  | sub => pure (.int (wrap (m - n)))
  | mul => pure (.int (wrap (m * n)))
  | div => if n = 0 then Eval.done .divisionByZero else pure (.int (wrap (m.tdiv n)))
  | _ => Eval.done .stuck

/-- How bodies of functions are run: given a function, the frames around it and the arguments. -/
abbrev Caller := FunDecl → List Frame → List Value → Eval Value

section Evaluation

variable (wrap : Int → Int) (call : Caller)

open Eval

/-- Note that a use of `name` reached a frame, once for each word that is read there. -/
def Eval.reach (site : NodeId) (env : List Frame) (i : Nat) (v : Value) : Eval Unit :=
  match env[i]? with
  | some f => log (.reached site f.place v ((env.take i).any (·.place.isObject)))
  | none => done .stuck

/-- Call a method of an object by name. -/
def Value.callMethod (self : Value) (name : String) (args : List Value) : Eval Value :=
  match self with
  | .null => done .nullCall
  | .object id lineage fields =>
    match ClassValue.findMethod? name lineage with
    | some (c :: ancestors, m) =>
      call m
        (ClassValue.scope id self fields name (c :: ancestors) ::
          Frame.bind c.decl.name.text (.cls (c :: ancestors)) c.env)
        args
    | _ => done .stuck
  | _ => done .stuck

mutual

def Expr.eval (env : List Frame) : Expr → Eval Value
  | .literal value _ => pure value.value
  | .ident id name => do
    match Frame.find? name.text env with
    | some (i, .value v) =>
      reach id env i v
      if v.words = 2 then reach id env i v
      return v
    | _ => done .stuck
  | .call id callee args _ => do
    let args ← Expr.evalLastFirst env args
    match Frame.find? callee.text env with
    | some (i, .value (.closure f outer)) =>
      reach id env i (.closure f outer)
      useClosure id outer
      call f (Frame.bind f.name.text (.value (.closure f outer)) outer) args
    | some (i, .method self) =>
      reach id env i self
      self.callMethod call callee.text args
    | _ => done .stuck
  | .new id cls args _ => do
    let args ← Expr.evalFirstLast env args
    let lineage ← orStuck (Frame.findClass? cls.text env)
    let names := ClassValue.fieldNames lineage
    if names.length = args.length then create id lineage (names.zip args) else done .stuck
  | .methodCall id object method args _ => do
    let args ← Expr.evalLastFirst env args
    match Frame.find? object.text env with
    | some (i, .value self) =>
      reach id env i self
      self.callMethod call method.text args
    | _ => done .stuck
  | .binary .equal left right _ => do
    let v ← Expr.eval env left
    let w ← Expr.eval env right
    return .bool (← orStuck (v.same? w))
  | .binary .lessEqual left right _ => do
    let m ← orStuck (← Expr.eval env left).int?
    let n ← orStuck (← Expr.eval env right).int?
    return .bool (m ≤ n)
  | .binary .greaterEqual left right _ => do
    let n ← orStuck (← Expr.eval env right).int?
    let m ← orStuck (← Expr.eval env left).int?
    return .bool (m ≥ n)
  | .binary .and left right _ => do
    if ← orStuck (← Expr.eval env left).bool? then
      return .bool (← orStuck (← Expr.eval env right).bool?)
    else return .bool false
  | .binary .or left right _ => do
    if ← orStuck (← Expr.eval env left).bool? then return .bool true
    else return .bool (← orStuck (← Expr.eval env right).bool?)
  | .binary op left right _ => do
    let m ← orStuck (← Expr.eval env left).int?
    let n ← orStuck (← Expr.eval env right).int?
    op.arith wrap m n
  | .unary .not operand _ => do
    return .bool !(← orStuck (← Expr.eval env operand).bool?)
  | .cond condition thenExpr elseExpr _ => do
    if ← orStuck (← Expr.eval env condition).bool? then Expr.eval env thenExpr
    else Expr.eval env elseExpr
  | .print value _ => do
    let v ← Expr.eval env value
    Eval.print v
    return v

def Expr.evalFirstLast (env : List Frame) : List Expr → Eval (List Value)
  | [] => return []
  | e :: es => do
    let v ← Expr.eval env e
    return v :: (← Expr.evalFirstLast env es)

def Expr.evalLastFirst (env : List Frame) : List Expr → Eval (List Value)
  | [] => return []
  | e :: es => do
    let vs ← Expr.evalLastFirst env es
    return (← Expr.eval env e) :: vs

end

/-- Evaluate declarations; the result has their bindings in its innermost frame. A function can call
itself, but does not see what is declared after it. -/
def Decl.evalAll (env : List Frame) : List Decl → Eval (List Frame)
  | [] => return env
  | .var _ name _ init _ :: ds => do
    let v ← init.eval wrap call env
    Decl.evalAll (Frame.bind name.text (.value v) env) ds
  | .func f :: ds => Decl.evalAll (Frame.bind f.name.text (.value (.closure f env)) env) ds
  | .cls c :: ds => do
    let ancestors ← match c.superclass with
      | none => pure []
      | some sup => orStuck (Frame.findClass? sup.text env)
    Decl.evalAll (Frame.bind c.name.text (.cls (⟨c, env⟩ :: ancestors)) env) ds

/-- Run the body of a function in a frame of its own, inside the frames around the function. -/
def FunDecl.invoke (f : FunDecl) (outer : List Frame) (args : List Value) : Eval Value := do
  if f.params.length = args.length then
    let a ← enter f.id
    let params := (f.params.map (·.name.text)).zip (args.map Binding.value)
    let env ← Decl.evalAll wrap call (⟨.activation a, params.reverse⟩ :: outer) f.decls
    let v ← f.body.eval wrap call env
    leave
    return v
  else done .stuck

end Evaluation

/-- Run a function with calls nested up to a depth. -/
def FunDecl.call (wrap : Int → Int) : Nat → Caller
  | 0 => fun _ _ _ => Eval.done .outOfFuel
  | fuel + 1 => FunDecl.invoke wrap (FunDecl.call wrap fuel)

/-- Run a program with calls nested up to a depth. -/
def Program.eval (wrap : Int → Int) (fuel : Nat) (p : Program) :
    Outcome Value × History × List Event :=
  let run : Eval Value := do
    let env ← Decl.evalAll wrap (FunDecl.call wrap fuel) [⟨.activation 0, []⟩] p.decls
    p.body.eval wrap (FunDecl.call wrap fuel) env
  run {}

end ObjLet
