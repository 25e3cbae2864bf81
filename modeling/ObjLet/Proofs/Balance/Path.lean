import ObjLet.Code.Instruction
import ObjLet.Ty

/-!
# Paths through code and the stack

What an instruction takes from the stack and puts there is its `Effect`. `Code.Path` follows the height of
the stack along the paths through a piece of code: a branch goes to where its label is put, and a conditional
one may also be passed. What the callee of a jump does to the stack is known to its caller only, so the jumps
of a piece of code get their effects in the order in which they stand.

`Code.Acts` says that a piece of code acts on the stack like one instruction, whichever path is taken.
-/

namespace ObjLet

/-- Words taken from the stack and words put there instead. -/
structure Effect where
  pops : Nat
  pushes : Nat
deriving DecidableEq

/-- What an instruction does to the stack. A jump by itself takes the code address. -/
def Instruction.effect : Instruction → Effect
  | push _ | pushLabel _ | load _ => ⟨0, 1⟩
  | pop | store _ | jump => ⟨1, 0⟩
  | arith _ => ⟨2, 1⟩
  | loadWord | print => ⟨1, 1⟩
  | branchEqual _ | branchLessEqual _ | storeWord => ⟨2, 0⟩
  | branch _ | place _ | copyFp | halt => ⟨0, 0⟩

/-- What a call does to the stack from its jump on: it takes the code address, the access link, the arguments
and the control link, and puts the result there. -/
def Signature.callEffect (callee : Signature) : Effect :=
  ⟨1 + 1 + callee.paramWords + 1, callee.ret.words⟩

/-- Where an instruction branches to. -/
def Instruction.branch? : Instruction → Option Label
  | branch l | branchEqual l | branchLessEqual l => some l
  | _ => none

/-- Whether the next instruction may come next. -/
def Instruction.falls : Instruction → Bool
  | branch _ | halt => false
  | _ => true

namespace Code

/-- The effect of the instruction at a position of code whose jumps have the given effects. -/
def effect? (code : Code) (jumps : List Effect) (i : Nat) : Option Effect :=
  match code[i]? with
  | some .jump => jumps[(code.take i).count .jump]?
  | some ins => some ins.effect
  | none => none

/-- Where code may go on behind the instruction at a position. -/
def Goes (code : Code) (i j : Nat) : Prop :=
  ∃ ins, code[i]? = some ins ∧
    ((ins.falls = true ∧ j = i + 1) ∨ ∃ l, ins.branch? = some l ∧ code[j]? = some (.place l))

/-- The positions on the paths through code, with the height of the stack there. -/
inductive Path (code : Code) (jumps : List Effect) (start : Int) : Nat → Int → Prop where
  | start : Path code jumps start 0 start
  | step {i j : Nat} {h : Int} {e : Effect} (hp : Path code jumps start i h) (hg : code.Goes i j)
      (he : code.effect? jumps i = some e) : Path code jumps start j (h - e.pops + e.pushes)

/-- Code has an effect as a whole: on every path it takes so many words from the stack, at no point more, and
puts so many there, and wherever paths meet they agree on the height. -/
structure Acts (code : Code) (jumps : List Effect) (effect : Effect) : Prop where
  calls : code.count .jump = jumps.length
  ends : ∀ {start h : Int}, code.Path jumps start code.length h ↔ h = start - effect.pops + effect.pushes
  joins : ∀ {start h h' : Int} {i : Nat}, code.Path jumps start i h → code.Path jumps start i h' →
    h = h'
  above : ∀ {start h : Int} {i : Nat}, code.Path jumps start i h → start - effect.pops ≤ h
  /-- Not even within an instruction the stack falls below. -/
  within : ∀ {start h : Int} {i : Nat} {e : Effect}, code.Path jumps start i h →
    code.effect? jumps i = some e → start - effect.pops ≤ h - e.pops

end Code

end ObjLet
