import ObjLet.Proofs.Balance.Path
import ObjLet.Proofs.Code.Listed

/-!
# Self-contained code

Code that is generated for expressions and declarations is `Code.Inner`: its branches lead forward, to labels
in it, it puts no label of a function, pushes labels of known functions only, and does not halt. Such code
stays so between other code (`Code.Inner.append`), and the sequences that branch are so if the code put into
them is (`Code.inner_cond`, `Code.inner_shortCircuit`).

Nothing here depends on the tables that code is generated with.
-/

namespace ObjLet

namespace Code

/-- Every branch of a piece of code leads to a label that is put behind it, in the code or in what comes
after. -/
def Forward (after : Code) : Code → Prop
  | [] => True
  | i :: c => (∀ l, i.branch? = some l → .place l ∈ c ++ after) ∧ Forward after c

/-- The labels that code puts, in order. -/
def placed (c : Code) : List Label := c.filterMap Instruction.placed?

variable {a b c after after' : Code} {i : Instruction} {l : Label}

@[simp] theorem forward_nil : Forward after [] := trivial

@[simp] theorem forward_cons :
    Forward after (i :: c) ↔ (∀ l, i.branch? = some l → .place l ∈ c ++ after) ∧ Forward after c := Iff.rfl

@[simp] theorem forward_append : Forward after (a ++ b) ↔ Forward (b ++ after) a ∧ Forward after b := by
  induction a with
  | nil => simp
  | cons i a ih => rw [List.cons_append, forward_cons, forward_cons, ih, List.append_assoc, and_assoc]

/-- More code behind cannot take the target of a branch away. -/
theorem Forward.mono (h : Forward after c) (hsub : ∀ i ∈ after, i ∈ after') : Forward after' c := by
  induction c with
  | nil => exact trivial
  | cons i c ih =>
    refine ⟨fun l hl => ?_, ih h.2⟩
    rcases List.mem_append.1 (h.1 l hl) with hc | hafter
    · exact List.mem_append_left _ hc
    · exact List.mem_append_right _ (hsub _ hafter)

/-- What the recursion says of one branch in the middle of the code: its target is further on. -/
theorem Forward.mem (h : Forward after c) (hc : c = a ++ i :: b) (hl : i.branch? = some l) :
    .place l ∈ b ++ after := by
  subst hc
  exact (forward_append.1 h).2.1 l hl

@[simp] theorem placed_nil : placed [] = [] := rfl

@[simp] theorem placed_append : placed (a ++ b) = placed a ++ placed b := List.filterMap_append

theorem placed_cons : placed (i :: c) = i.placed?.toList ++ placed c := by
  simp only [placed, List.filterMap_cons]
  cases i.placed? <;> rfl

@[simp] theorem mem_placed : l ∈ placed c ↔ .place l ∈ c := by
  rw [placed, List.mem_filterMap]
  constructor
  · rintro ⟨i, hi, hl⟩
    cases i with
    | place l' =>
      cases hl
      exact hi
    | _ => cases hl
  · exact fun h => ⟨_, h, rfl⟩

end Code

/-- What an instruction between the label of a function and its end is like; the labels that may be pushed are
given. -/
def Instruction.IsInner (known : Label → Prop) : Instruction → Prop
  | place l => l.kind = .branch
  | pushLabel l => known l
  | branch l | branchEqual l | branchLessEqual l => l.kind = .branch
  | halt => False
  | _ => True

/-- Neither a label nor an end. -/
def Instruction.isPlain : Instruction → Bool
  | halt => false
  | i => i.label?.isNone

/-- Control comes into the code at its start only and leaves it by calls and at its end. -/
structure Code.Inner (known : Label → Prop) (c : Code) : Prop where
  forward : Forward [] c
  each : ∀ i ∈ c, i.IsInner known

namespace Code.Inner

variable {known known' : Label → Prop} {a b c : Code} {l : Label}

theorem nil : Inner known [] := ⟨trivial, nofun⟩

/-- Inner code can be put together in any order, since each part holds the targets of its own branches. -/
theorem append (ha : Inner known a) (hb : Inner known b) : Inner known (a ++ b) :=
  ⟨forward_append.2 ⟨ha.forward.mono nofun, hb.forward⟩, List.forall_mem_append.2 ⟨ha.each, hb.each⟩⟩

/-- The targets are in the code itself, so it does not matter what follows. -/
theorem anywhere (h : Inner known c) (after : Code) : Forward after c := h.forward.mono nofun

/-- Knowing more functions is no loss. -/
theorem mono (h : Inner known c) (hk : ∀ l, known l → known' l) : Inner known' c := by
  refine ⟨h.forward, fun i hi => ?_⟩
  have hi := h.each i hi
  cases i with
  | pushLabel l => exact hk l hi
  | _ => exact hi

/-- Code without labels. -/
theorem of_plain (h : ∀ i ∈ c, i.isPlain = true) : Inner known c := by
  induction c with
  | nil => exact nil
  | cons i c ih =>
    obtain ⟨hi, hc⟩ := List.forall_mem_cons.1 h
    refine ⟨⟨fun l hl => ?_, (ih hc).forward⟩, List.forall_mem_cons.2 ⟨?_, (ih hc).each⟩⟩
    · cases i with
      | branch | branchEqual | branchLessEqual => cases hi
      | _ => cases hl
    · cases i with
      | place | pushLabel | branch | branchEqual | branchLessEqual | halt => cases hi
      | _ => trivial

/-- Inner code puts no label of a function, so it cannot be entered by a call. -/
theorem kind_of_place (h : Inner known c) (hl : .place l ∈ c) : l.kind = .branch := h.each _ hl

theorem known_of_pushLabel (h : Inner known c) (hl : .pushLabel l ∈ c) : known l := h.each _ hl

theorem kind_of_branch (h : Inner known c) {i : Instruction} (hi : i ∈ c) (hl : i.branch? = some l) :
    l.kind = .branch := by
  have hi := h.each i hi
  cases i with
  | branch | branchEqual | branchLessEqual =>
    cases hl
    exact hi
  | _ => cases hl

/-- Only the end of the main part halts, and that is not inner code. -/
theorem halt_notMem (h : Inner known c) : .halt ∉ c := fun hmem => h.each _ hmem

end Code.Inner

namespace Code

/-! ## Sequences without labels -/

theorem isPlain_frame {hops : Nat} : ∀ i ∈ frame hops, i.isPlain = true := by
  simp only [frame, List.mem_cons, List.mem_replicate]
  rintro i (rfl | ⟨-, rfl⟩) <;> rfl

theorem isPlain_loadAt {offset : Int} : ∀ i ∈ loadAt offset, i.isPlain = true := by
  simp [loadAt, Instruction.isPlain, Instruction.label?, Instruction.placed?, Instruction.target?]

/-- Values are read without branching, one word or two. -/
theorem isPlain_loadValue {hops words : Nat} {offset : Int} :
    ∀ i ∈ loadValue hops offset words, i.isPlain = true := by
  unfold loadValue
  split
  · simp only [List.forall_mem_append]
    exact ⟨⟨isPlain_frame, isPlain_loadAt⟩, isPlain_frame, isPlain_loadAt⟩
  · simp only [List.forall_mem_append]
    exact ⟨⟨isPlain_frame, isPlain_loadAt⟩, nofun⟩

theorem isPlain_heapStore : ∀ i ∈ heapStore, i.isPlain = true := by decide

/-- Objects are made without branching and push no code address: the table they refer to was made by their class.
-/
theorem isPlain_newObject {words : Nat} {table : Int} :
    ∀ i ∈ newObject words table, i.isPlain = true := by
  simp only [newObject, List.forall_mem_append, List.mem_flatten, List.mem_replicate]
  refine ⟨⟨?_, ?_⟩, by decide⟩
  · rintro i ⟨c, ⟨-, rfl⟩, hi⟩
    exact isPlain_heapStore i hi
  · simp [Instruction.isPlain, Instruction.label?, Instruction.placed?, Instruction.target?]

theorem isPlain_dispatchCall {slot : Int} : ∀ i ∈ dispatchCall slot, i.isPlain = true := by
  simp only [dispatchCall, List.forall_mem_append]
  exact ⟨⟨by decide, isPlain_loadAt⟩, by decide⟩

/-- A call jumps to an address that is on the stack, so no label occurs in it. -/
theorem isPlain_callEntry {e : Entry} : ∀ i ∈ callEntry e, i.isPlain = true := by
  unfold callEntry
  split
  · exact isPlain_dispatchCall
  · simp only [valueCall, List.forall_mem_append]
    exact ⟨⟨⟨⟨by decide, isPlain_loadAt⟩, by decide⟩, isPlain_loadAt⟩, by decide⟩

theorem isPlain_returnFrameWord {paramWords : Nat} :
    ∀ i ∈ returnFrameWord paramWords, i.isPlain = true := by
  simp [returnFrameWord, Instruction.isPlain, Instruction.label?, Instruction.placed?, Instruction.target?]

theorem isPlain_replicate_pop {n : Nat} : ∀ i ∈ List.replicate n Instruction.pop, i.isPlain = true := by
  simp only [List.mem_replicate]
  rintro i ⟨-, rfl⟩
  rfl

/-- Plain code puts no labels. -/
theorem placed_of_plain {c : Code} (h : ∀ i ∈ c, i.isPlain = true) : placed c = [] := by
  rw [placed, List.filterMap_eq_nil_iff]
  intro i hi
  have := h i hi
  cases i with
  | place l => cases this
  | _ => rfl

/-! ## Sequences that branch -/

section Choices

variable {known : Label → Prop} {l l' : Label} (hl : l.kind = .branch) (hl' : l'.kind = .branch)
include hl hl'

/-- Both branches of a selection go forward, to labels put in it. -/
theorem inner_select (different equal : Int) : Inner known (select l l' different equal) where
  forward := by simp [select, Instruction.branch?]
  each := by simp [select, Instruction.IsInner, hl, hl']

theorem inner_lessEqual : Inner known (lessEqual l l') where
  forward := by simp [lessEqual, Instruction.branch?]
  each := by simp [lessEqual, Instruction.IsInner, hl, hl']

/-- Short circuits branch to their own end, whatever the operands are. -/
theorem inner_shortCircuit (decisive : Int) {left right : Code} (hleft : Inner known left)
    (hright : Inner known right) : Inner known (shortCircuit l l' decisive left right) where
  forward := by
    simp [shortCircuit, Instruction.branch?, hleft.anywhere, hright.anywhere]
  each := by
    simp only [shortCircuit, List.forall_mem_append]
    refine ⟨⟨⟨⟨hleft.each, ?_⟩, hright.each⟩, ?_⟩, ?_⟩ <;> simp [Instruction.IsInner, hl, hl']

/-- A conditional branches over one of its parts to labels put behind that part. -/
theorem inner_cond {condition thenCode elseCode : Code} (hc : Inner known condition)
    (ht : Inner known thenCode) (he : Inner known elseCode) :
    Inner known (cond l l' condition thenCode elseCode) where
  forward := by
    simp [cond, Instruction.branch?, hc.anywhere, ht.anywhere, he.anywhere]
  each := by
    simp only [cond, List.forall_mem_append]
    refine ⟨⟨⟨⟨⟨hc.each, ?_⟩, he.each⟩, ?_⟩, ht.each⟩, ?_⟩ <;> simp [Instruction.IsInner, hl, hl']

end Choices

/-- The labels of a dispatch table are pushed, and nothing else is done with labels. -/
theorem inner_dispatchTable {known : Label → Prop} {table : List Label} (h : ∀ l ∈ table, known l) :
    Inner known (dispatchTable table) := by
  refine Inner.append (a := [.load .hp]) (.of_plain (by decide)) ?_
  induction table with
  | nil => exact .nil
  | cons l ls ih =>
    obtain ⟨hl, hls⟩ := List.forall_mem_cons.1 h
    have hpush : Inner known [.pushLabel l] := ⟨⟨nofun, trivial⟩, by simpa [Instruction.IsInner] using hl⟩
    exact (hpush.append (.of_plain isPlain_heapStore)).append (ih hls)

end Code

end ObjLet
