import ObjLet.Proofs.Machine.Step
import ObjLet.Syntax

/-!
# Runs that are watched

A `Listing` is code some of whose instructions bear a `Mark`, that is, do something that the meaning of the
program knows of too. A run (`Target.Runs`) collects the states behind marked instructions.

`Listing.Sits` places a piece of code at an address. Where no label is placed twice, a label has the address
of the code behind it (`Listing.Sits.address`).
-/

namespace ObjLet

/-- What an instruction completes. -/
inductive Mark where
  /-- The frame of a function or method. -/
  | entered (function : NodeId)
  /-- The object of a `new`. -/
  | created (site : NodeId)
  /-- The way to the frame or object that holds the declaration of a name. -/
  | reached (site : NodeId)
deriving DecidableEq

structure Line where
  instruction : Instruction
  mark : Option Mark := none

abbrev Listing := List Line

namespace Listing

def unit (ls : Listing) : CodeUnit := ⟨ls.map (·.instruction)⟩

/-- The lines that are executed. -/
def executed (ls : Listing) : Listing := ls.filter (!·.instruction.isPlacement)

/-- Number of lines that are executed. -/
def size (ls : Listing) : Nat := ls.executed.length

def markAt (ls : Listing) (ip : Nat) : Option Mark := ls.executed[ip]?.bind (·.mark)

/-- What is executed of a listing is what is executed of its unit. -/
theorem executed_unit (ls : Listing) : ls.unit.executed = ls.executed.map (·.instruction) := by
  simp only [unit, CodeUnit.executed, executed, List.filter_map]
  rfl

theorem executed_append (a b : Listing) : executed (a ++ b) = a.executed ++ b.executed :=
  List.filter_append ..

@[simp] theorem size_nil : size [] = 0 := rfl

/-- Sizes add up, so addresses can be counted over a listing. -/
@[simp] theorem size_append (a b : Listing) : size (a ++ b) = a.size + b.size := by
  simp [size, executed_append]

/-- A placed label takes no address. -/
theorem size_cons (l : Line) (ls : Listing) :
    size (l :: ls) = (if l.instruction.isPlacement then 0 else 1) + ls.size := by
  by_cases h : l.instruction.isPlacement
  · simp [size, executed, h]
  · simp [size, executed, h]
    omega

/-! ## Labels -/

theorem addressFrom_of_notMem {l : Label} {ls : Listing} (h : l ∉ ls.unit.labels) (n : Nat) :
    CodeUnit.addressFrom l n ls.unit.code = none := by
  induction ls generalizing n with
  | nil => rfl
  | cons line ls ih =>
    have hrest : l ∉ (unit ls).labels := by
      intro hmem
      apply h
      simp only [unit, CodeUnit.labels, List.map_cons, List.filterMap_cons]
      split
      · exact hmem
      · exact List.mem_cons_of_mem _ hmem
    obtain ⟨i, m⟩ := line
    cases i
    case place l' =>
      have hne : l' ≠ l := by
        rintro rfl
        apply h
        simp [unit, CodeUnit.labels, Instruction.placed?]
      change (CodeUnit.addressFrom l n (unit ls).code).or (if l' = l then some n else none) = none
      rw [ih hrest, if_neg hne]
      rfl
    all_goals exact ih hrest _

/-- A label is searched from the end, so the last place of it counts. There is only one where labels are placed
once. -/
theorem addressFrom_append (l : Label) (a b : Listing) (n : Nat) :
    CodeUnit.addressFrom l n (unit (a ++ b)).code =
      (CodeUnit.addressFrom l (n + a.size) b.unit.code).or
        (CodeUnit.addressFrom l n a.unit.code) := by
  induction a generalizing n with
  | nil =>
    change _ = (CodeUnit.addressFrom l n b.unit.code).or none
    rw [Option.or_none]
    rfl
  | cons line a ih =>
    obtain ⟨i, m⟩ := line
    cases i
    case place l' =>
      change (CodeUnit.addressFrom l n (unit (a ++ b)).code).or _ = _
      rw [ih, size_cons, Option.or_assoc]
      simp only [Instruction.isPlacement, Instruction.placed?, Option.isSome_some, if_true,
        Nat.zero_add]
      rfl
    all_goals
      change CodeUnit.addressFrom l (n + 1) (unit (a ++ b)).code = _
      rw [ih, size_cons]
      simp only [Instruction.isPlacement, Instruction.placed?, Option.isSome_none, Bool.false_eq_true,
        if_false, Nat.add_assoc]
      rfl

/-! ## Code in place -/

/-- A piece of code is part of a listing and starts at an address. -/
def Sits (ls : Listing) (ip : Nat) (code : Listing) : Prop :=
  ∃ before after, ls = before ++ code ++ after ∧ before.size = ip

namespace Sits

variable {ls code : Listing} {ip : Nat} {l : Line}

theorem left {a b : Listing} (h : ls.Sits ip (a ++ b)) : ls.Sits ip a := by
  obtain ⟨before, after, rfl, hip⟩ := h
  exact ⟨before, b ++ after, by simp, hip⟩

theorem right {a b : Listing} (h : ls.Sits ip (a ++ b)) : ls.Sits (ip + a.size) b := by
  obtain ⟨before, after, rfl, hip⟩ := h
  exact ⟨before ++ a, after, by simp, by rw [size_append, hip]⟩

/-- The line at an address. -/
theorem line (h : ls.Sits ip (l :: code)) (hi : l.instruction.isPlacement = false) :
    ls.executed[ip]? = some l := by
  obtain ⟨before, after, rfl, rfl⟩ := h
  have hl : executed (l :: code) = l :: executed code := by simp [executed, hi]
  rw [executed_append, executed_append, List.append_assoc, size, hl,
    List.getElem?_append_right (Nat.le_refl _)]
  simp

theorem next (h : ls.Sits ip (l :: code)) (hi : l.instruction.isPlacement = false) :
    ls.Sits (ip + 1) code := by
  have hr : ls.Sits (ip + size [l]) code := h.right
  rwa [size_cons, hi] at hr

/-- A label is no step: the address stays. -/
theorem skip (h : ls.Sits ip (l :: code)) (hi : l.instruction.isPlacement = true) :
    ls.Sits ip code := by
  have hr : ls.Sits (ip + size [l]) code := h.right
  rwa [size_cons, hi] at hr

/-- A label has the address of the code behind it. -/
theorem address (hl : ls.unit.labels.Nodup) {l : Label} {m : Option Mark}
    (h : ls.Sits ip (⟨.place l, m⟩ :: code)) : ls.unit.address? l = some ip := by
  obtain ⟨before, after, rfl, rfl⟩ := h
  have hsplit : (unit (before ++ ⟨.place l, m⟩ :: code ++ after)).labels =
      before.unit.labels ++ l :: (unit (code ++ after)).labels := by
    simp [unit, CodeUnit.labels, Instruction.placed?]
  rw [hsplit, List.nodup_append, List.nodup_cons] at hl
  obtain ⟨-, ⟨hafter, -⟩, -⟩ := hl
  rw [CodeUnit.address?, List.append_assoc, addressFrom_append, Nat.zero_add]
  change ((CodeUnit.addressFrom l before.size (unit (code ++ after)).code).or
    (if l = l then some before.size else none)).or _ = _
  rw [addressFrom_of_notMem hafter, if_pos rfl]
  rfl

end Sits

/-- A piece of code sits where a label is. -/
def Placed (ls : Listing) (l : Label) (code : Listing) : Prop :=
  ∃ ip, ls.unit.address? l = some ip ∧ ls.Sits ip code

/-- Where a label is placed, the code behind it is what a branch to the label reaches. -/
theorem Sits.placed {ls a code b : Listing} {ip : Nat} {l : Label} {m : Option Mark}
    (hl : ls.unit.labels.Nodup) (h : ls.Sits ip b) (hb : b = a ++ ⟨.place l, m⟩ :: code) :
    ls.Placed l code := by
  subst hb
  exact ⟨_, h.right.address hl, h.right.skip rfl⟩

end Listing

/-! ## Runs -/

/-- A step, with the state behind it if its instruction is marked. -/
def Listing.observed (ls : Listing) (ip : Nat) (s : Machine) : List (Mark × Machine) :=
  (ls.markAt ip).toList.map (·, s)

/-- A number of steps from a state to a state, and what was observed on the way. -/
inductive Target.Runs (T : Target) (ls : Listing) :
    Nat → Machine → List (Mark × Machine) → Machine → Prop where
  | refl (s : Machine) : Runs T ls 0 s [] s
  | step {n : Nat} {s s' s'' : Machine} {obs : List (Mark × Machine)}
    (h : T.step ls.unit s = .ok s') (hr : Runs T ls n s' obs s'') :
    Runs T ls (n + 1) s (ls.observed s.ip s' ++ obs) s''

namespace Target.Runs

variable {T : Target} {ls : Listing} {m n : Nat} {s s' s'' : Machine} {obs obs' : List (Mark × Machine)}

/-- Of two runs from a state, the longer one goes on from the end of the shorter one. -/
theorem split (h : T.Runs ls m s obs s') (h' : T.Runs ls n s obs' s'') (hle : m ≤ n) :
    ∃ rest, obs' = obs ++ rest ∧ T.Runs ls (n - m) s' rest s'' := by
  induction h generalizing n obs' with
  | refl s => exact ⟨obs', rfl, h'⟩
  | step hs _ ih =>
    cases h' with
    | refl => omega
    | step hs' hr' =>
      have heq := hs.symm.trans hs'
      cases heq
      obtain ⟨rest, rfl, hrest⟩ := ih hr' (by omega)
      refine ⟨rest, by rw [List.append_assoc], ?_⟩
      rwa [Nat.add_sub_add_right]

end Target.Runs

end ObjLet
