import ObjLet.Code.Unit

/-!
# The stack machine

The machine that units are made for. Stack and heap share one memory; the stack grows down from its end
and the heap up from 0. Placed labels are not executed: a label is the address of the instruction that
follows it, counted without labels. A push that would meet the heap ends the run, and so does every
access outside memory.
-/

namespace ObjLet

/-- A machine: its memory, and what becomes of a result of arithmetic that need not fit a word. Words
are wide enough for addresses. -/
structure Target where
  memory : Nat
  wrap : Int → Int
  wrap_address : ∀ a : Int, 0 ≤ a → a ≤ memory → wrap a = a

/-- A machine whose words hold every number. -/
def Target.unbounded (memory : Nat) : Target := ⟨memory, id, fun _ _ _ => rfl⟩

structure Machine where
  /-- Address of the next instruction. -/
  ip : Nat
  sp : Int
  fp : Int
  hp : Int
  ra : Int
  tm : Int
  mem : Int → Int
  out : List Int

/-- Why a run ends. -/
inductive Stop where
  | halt
  | divisionByZero
  | addressOutOfRange
  | stackOverflow
  | invalidJump
  | unplacedLabel
deriving DecidableEq

namespace CodeUnit

/-- The instructions that are executed. -/
def executed (u : CodeUnit) : Code := u.code.filter (!·.isPlacement)

/-- The address of a label in code that starts at address `n`. If it is placed twice, the last
placement counts. -/
def addressFrom (label : Label) : Nat → Code → Option Nat
  | _, [] => none
  | n, .place l :: code => (addressFrom label n code).or (if l = label then some n else none)
  | n, _ :: code => addressFrom label (n + 1) code

def address? (u : CodeUnit) (label : Label) : Option Nat := addressFrom label 0 u.code

end CodeUnit

namespace Machine

/-- The state before the first instruction. -/
def start (memory : Nat) : Machine where
  ip := 0
  sp := memory
  fp := memory
  hp := 0
  ra := 0
  tm := 0
  mem := fun _ => 0
  out := []

def next (s : Machine) : Machine := { s with ip := s.ip + 1 }

def goto (s : Machine) (ip : Nat) : Machine := { s with ip }

def write (s : Machine) (a w : Int) : Machine :=
  { s with mem := fun b => if b = a then w else s.mem b }

/-- The state after a push. -/
def pushed (s : Machine) (w : Int) : Machine := { s.write (s.sp - 1) w with sp := s.sp - 1 }

/-- The state after a pop. -/
def popped (s : Machine) : Machine := { s with sp := s.sp + 1 }

/-- The word on top of the stack. -/
def top (s : Machine) : Int := s.mem s.sp

def register (s : Machine) : Register → Int
  | .fp => s.fp
  | .ra => s.ra
  | .tm => s.tm
  | .hp => s.hp

def setRegister (s : Machine) (r : Register) (w : Int) : Machine :=
  match r with
  | .fp => { s with fp := w }
  | .ra => { s with ra := w }
  | .tm => { s with tm := w }
  | .hp => { s with hp := w }

end Machine

/-- Two numbers and an operator; `none` is a division by zero. -/
def ArithOp.apply? (wrap : Int → Int) : ArithOp → Int → Int → Option Int
  | add, a, b => some (wrap (a + b))
  | sub, a, b => some (wrap (a - b))
  | mult, a, b => some (wrap (a * b))
  | div, a, b => if b = 0 then none else some (wrap (a.tdiv b))

namespace Target

variable (t : Target) (u : CodeUnit)

def InRange (a : Int) : Prop := 0 ≤ a ∧ a < t.memory

instance (a : Int) : Decidable (t.InRange a) := inferInstanceAs (Decidable (_ ∧ _))

def read (s : Machine) (a : Int) : Except Stop Int :=
  if t.InRange a then .ok (s.mem a) else .error .addressOutOfRange

def push (s : Machine) (w : Int) : Except Stop Machine :=
  if s.sp - 1 < s.hp then .error .stackOverflow
  else if t.InRange (s.sp - 1) then .ok (s.pushed w)
  else .error .addressOutOfRange

/-- The top of the stack and the state without it. -/
def pop (s : Machine) : Except Stop (Int × Machine) := do
  return (← t.read s s.sp, s.popped)

def resolve (label : Label) : Except Stop Nat :=
  match u.address? label with
  | some n => .ok n
  | none => .error .unplacedLabel

/-- Pop two values and go on at the label if they are related, the upper one on the right. -/
def branchIf (s : Machine) (test : Int → Int → Bool) (label : Label) : Except Stop Machine := do
  let (b, s) ← t.pop s
  let (a, s) ← t.pop s
  if test a b then return s.goto (← resolve u label) else return s

/-- Execute one instruction, with `ip` already at the one behind it. -/
def exec (s : Machine) : Instruction → Except Stop Machine
  | .push value => t.push s value
  | .pushLabel label => do t.push s (← resolve u label)
  | .pop => do return (← t.pop s).2
  | .arith op => do
    let (b, s) ← t.pop s
    let (a, s) ← t.pop s
    match op.apply? t.wrap a b with
    | some w => t.push s w
    | none => .error .divisionByZero
  | .branch target => do return s.goto (← resolve u target)
  | .branchEqual target => t.branchIf u s (· == ·) target
  | .branchLessEqual target => t.branchIf u s (· ≤ ·) target
  | .jump => do
    let (a, s) ← t.pop s
    if 0 ≤ a ∧ a < u.executed.length then return { s with ra := s.ip, ip := a.toNat }
    else .error .invalidJump
  | .place _ => return s
  | .load r => t.push s (s.register r)
  | .store r => do
    let (w, s) ← t.pop s
    return s.setRegister r w
  | .copyFp => return { s with fp := s.sp }
  | .loadWord => do
    let (a, s) ← t.pop s
    t.push s (← t.read s a)
  | .storeWord => do
    let (a, s) ← t.pop s
    let (w, s) ← t.pop s
    if t.InRange a then return s.write a w else .error .addressOutOfRange
  | .print => do
    let w ← t.read s s.sp
    return { s with out := s.out ++ [w] }
  | .halt => .error .halt

def step (s : Machine) : Except Stop Machine :=
  match u.executed[s.ip]? with
  | some i => t.exec u s.next i
  | none => .error .invalidJump

/-- The state after a number of steps, or why the run ended before. -/
def run : Nat → Machine → Except Stop Machine
  | 0, s => .ok s
  | n + 1, s => do run n (← t.step u s)

/-- Runs can be cut anywhere, which is how the steps of pieces of code are put together. -/
theorem run_add (m n : Nat) (s : Machine) :
    t.run u (m + n) s = (t.run u m s).bind (t.run u n) := by
  induction m generalizing s with
  | zero => rw [Nat.zero_add]; rfl
  | succ m ih =>
    rw [Nat.add_right_comm]
    change (t.step u s).bind (fun s => t.run u (m + n) s) =
      ((t.step u s).bind fun s => t.run u m s).bind (t.run u n)
    cases t.step u s with
    | error e => rfl
    | ok s' => exact ih s'

end Target

end ObjLet
