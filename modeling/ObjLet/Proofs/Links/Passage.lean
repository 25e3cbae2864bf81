import ObjLet.Proofs.Simulation.Implements

/-!
# Stretches of a watched run

`Target.Passes` says that a machine comes from one kind of state to another and shows nothing on the way but, at
the end, a mark; or it is blocked before. A machine is blocked when it stops, and when its stack takes up the word
at the end of the heap: what is stored there next would be lost again. The way from an address and a snapshot to
another address and snapshot is the usual case (`Target.Goes`).
-/

namespace ObjLet

open Code

variable {T : Target} {ls : Listing}

namespace Target.Runs

variable {m n : Nat} {s s' s'' : Machine} {obs obs' : List (Mark × Machine)}

/-- Watched runs follow each other, and so do the states they show. -/
theorem append (h : T.Runs ls m s obs s') (h' : T.Runs ls n s' obs' s'') :
    T.Runs ls (m + n) s (obs ++ obs') s'' := by
  induction h with
  | refl s => rwa [Nat.zero_add]
  | step hs _ ih =>
    rw [Nat.add_right_comm, List.append_assoc]
    exact .step hs (ih h')

/-- Watching does not change a run. -/
theorem run_eq (h : T.Runs ls n s obs s') : T.run ls.unit n s = .ok s' := by
  induction h with
  | refl s => rfl
  | step hs _ ih =>
    rw [Target.run, hs]
    exact ih

/-- Every run can be watched. -/
theorem exists_of_run : ∀ {n : Nat} {s : Machine}, T.run ls.unit n s = .ok s' → ∃ obs, T.Runs ls n s obs s'
  | 0, s, h => by
    cases h
    exact ⟨[], .refl _⟩
  | n + 1, s, h => by
    rw [Target.run] at h
    cases hs : T.step ls.unit s with
    | error e =>
      rw [hs] at h
      cases h
    | ok s₁ =>
      rw [hs] at h
      obtain ⟨obs, hobs⟩ := exists_of_run h
      exact ⟨_, .step hs hobs⟩

end Target.Runs

/-- No run goes on from here in which the stack keeps clear of the heap. -/
def Target.Blocked (T : Target) (ls : Listing) (s : Machine) : Prop :=
  s.sp ≤ s.hp ∨ ∃ e, T.step ls.unit s = .error e

/-- A machine comes from one kind of state to another, if it is not blocked on the way. Only the last instruction
may be marked. -/
def Target.Passes (T : Target) (ls : Listing) (mark : Option Mark) (P Q : Machine → Prop) : Prop :=
  ∀ s, P s → (∃ n s', T.Runs ls n s [] s' ∧ T.Blocked ls s') ∨
    ∃ n s', T.Runs ls n s (mark.toList.map (·, s')) s' ∧ Q s'

/-- A machine comes from one address and snapshot to another. -/
def Target.Goes (T : Target) (ls : Listing) (mark : Option Mark) (ip : Nat) (c : Snapshot) (ip' : Nat)
    (c' : Snapshot) : Prop :=
  T.Passes ls mark (·.At T ip c) (·.At T ip' c')

namespace Target.Passes

variable {mark : Option Mark} {P Q R : Machine → Prop} {ip : Nat} {i : Instruction} {code : Listing}

/-- The empty passage. It may show nothing, so it has no mark. -/
theorem refl (P : Machine → Prop) : T.Passes ls none P P := fun s hs => .inr ⟨0, s, .refl s, hs⟩

/-- Only the last part of a passage may show a mark, so passages before it have none. -/
theorem trans (h : T.Passes ls none P Q) (h' : T.Passes ls mark Q R) : T.Passes ls mark P R := by
  intro s hs
  rcases h s hs with hblocked | ⟨m, s₁, hm, hs₁⟩
  · exact .inl hblocked
  rcases h' s₁ hs₁ with ⟨n, s₂, hn, hblocked⟩ | ⟨n, s₂, hn, hs₂⟩
  · exact .inl ⟨m + n, s₂, hm.append hn, hblocked⟩
  · exact .inr ⟨m + n, s₂, hm.append hn, hs₂⟩

/-- What one instruction does. -/
theorem of_exec (h : ls.Sits ip (⟨i, mark⟩ :: code)) (hi : i.isPlacement = false) (hip : ∀ s, P s → s.ip = ip)
    (hx : ∀ s, P s → (∃ e, T.exec ls.unit s.next i = .error e) ∨
      ∃ s', T.exec ls.unit s.next i = .ok s' ∧ Q s') : T.Passes ls mark P Q := by
  intro s hs
  have hline := h.line hi
  have hstep : T.step ls.unit s = T.exec ls.unit s.next i := by
    rw [Target.step, Listing.executed_unit, List.getElem?_map, hip s hs, hline]
    rfl
  rcases hx s hs with ⟨e, he⟩ | ⟨s', hs', hq⟩
  · exact .inl ⟨0, s, .refl s, .inr ⟨e, hstep.trans he⟩⟩
  · refine .inr ⟨1, s', ?_, hq⟩
    have hrun := Target.Runs.step (hstep.trans hs') (.refl s')
    rw [Listing.observed, Listing.markAt, hip s hs, hline, List.append_nil] at hrun
    exact hrun

/-- An instruction without mark may also leave the stack at the end of the heap. -/
theorem of_exec_clear (h : ls.Sits ip (⟨i, none⟩ :: code)) (hi : i.isPlacement = false) (hip : ∀ s, P s → s.ip = ip)
    (hx : ∀ s, P s → (∃ e, T.exec ls.unit s.next i = .error e) ∨
      ∃ s', T.exec ls.unit s.next i = .ok s' ∧ (s'.hp < s'.sp → Q s')) : T.Passes ls none P Q := by
  have hpass : T.Passes ls none P fun s => s.hp < s.sp → Q s := of_exec h hi hip hx
  refine hpass.trans fun s hs => ?_
  by_cases hclear : s.hp < s.sp
  · exact .inr ⟨0, s, .refl s, hs hclear⟩
  · exact .inl ⟨0, s, .refl s, .inl (Int.not_lt.1 hclear)⟩

end Target.Passes

namespace Target.Goes

variable {mark : Option Mark} {ip : Nat} {c c' : Snapshot} {i : Instruction} {l : Label} {code : Listing} {n : Nat}

theorem refl (ip : Nat) (c : Snapshot) : T.Goes ls none ip c ip c := Passes.refl _

/-- Ways from address to address are passages, and they follow each other. -/
theorem trans {ip₁ ip₂ : Nat} {c₁ c₂ : Snapshot} (h : T.Goes ls none ip c ip₁ c₁)
    (h' : T.Goes ls mark ip₁ c₁ ip₂ c₂) : T.Goes ls mark ip c ip₂ c₂ := Passes.trans h h'

/-- A single instruction that is not a label is one step, and its mark is shown with the state behind it. -/
theorem of_moves (h : ls.Sits ip (⟨i, mark⟩ :: code)) (hi : i.isPlacement = false)
    (hm : Moves T ls.unit i c c') : T.Goes ls mark ip c (ip + 1) c' := by
  refine Passes.of_exec h hi (fun s hs => hs.ip) fun s hs => ?_
  exact (hm hs.next).imp_left fun hfull => ⟨_, hfull⟩

/-- Branches show nothing. The address they lead to is that of the instruction behind the label. -/
theorem branch (h : ls.Sits ip (⟨.branch l, mark⟩ :: code)) (hl : ls.unit.address? l = some n) :
    T.Goes ls mark ip c n c := by
  refine Passes.of_exec h rfl (fun s hs => hs.ip) fun s hs => .inr ⟨s.next.goto n, ?_, hs.next.goto n⟩
  rw [Target.exec, Target.resolve, hl]
  rfl

/-- Both outcomes of a comparison are covered: the address is that of the label or the next one. -/
theorem branchEqual {a b : Int} {ws : List Int} (h : ls.Sits ip (⟨.branchEqual l, mark⟩ :: code))
    (hl : ls.unit.address? l = some n) :
    T.Goes ls mark ip { c with stack := b :: a :: ws } (if a = b then n else ip + 1) { c with stack := ws } := by
  refine Passes.of_exec h rfl (fun s hs => hs.ip) fun s hs => .inr ?_
  simpa only [Target.exec, beq_iff_eq] using Target.Leads.branchIf (· == ·) hl hs.next

theorem branchLessEqual {a b : Int} {ws : List Int} (h : ls.Sits ip (⟨.branchLessEqual l, mark⟩ :: code))
    (hl : ls.unit.address? l = some n) :
    T.Goes ls mark ip { c with stack := b :: a :: ws } (if a ≤ b then n else ip + 1) { c with stack := ws } := by
  refine Passes.of_exec h rfl (fun s hs => hs.ip) fun s hs => .inr ?_
  simpa only [Target.exec, decide_eq_true_eq] using Target.Leads.branchIf (fun a b => decide (a ≤ b)) hl hs.next

/-- A jump goes to the address on the stack; it must lie in the unit. -/
theorem jump (ws : List Int) (h : ls.Sits ip (⟨.jump, mark⟩ :: code)) (hn : n < ls.size) :
    T.Goes ls mark ip { c with stack := n :: ws } n { c with stack := ws, ra := (ip + 1 : Nat) } := by
  refine Passes.of_exec h rfl (fun s hs => hs.ip) fun s hs => .inr ?_
  obtain ⟨hp, hs₁⟩ := hs.next.pop
  have hip : (s.next.popped.ip : Int) = (ip + 1 : Nat) := by rw [hs₁.ip]
  have hrange : (0 : Int) ≤ n ∧ (n : Int) < ls.unit.executed.length := by
    rw [← Listing.size_eq]
    omega
  refine ⟨{ s.next.popped with ra := s.next.popped.ip, ip := n }, ?_, rfl, hs₁.sp, hs₁.hp, hs₁.fp, hs₁.tm, hip,
    hs₁.out, hs₁.room, hs₁.word, hs₁.heapWord⟩
  rw [Target.exec, hp]
  exact if_pos hrange

/-! ## Choices -/

/-- Behind an instruction that branches to `l` on a condition, one of two words is pushed. -/
theorem choice {l' : Label} {no yes : Int} {p : Prop} [Decidable p] (c₁ : Snapshot)
    (hl : ls.unit.labels.Nodup)
    (hs : ls.Sits ip (plain [i, .push no, .branch l', .place l, .push yes, .place l']))
    (hi : i.isPlacement = false)
    (hbranch : ∀ n, ls.unit.address? l = some n → T.Goes ls none ip c (if p then n else ip + 1) c₁) :
    T.Goes ls none ip c (ip + 4) (c₁.push (if p then yes else no)) := by
  have hno := hs.next hi
  have hend := hno.next rfl
  have hyes := hend.next rfl
  have hafter := (hyes.skip rfl).next rfl
  have hfirst := hbranch _ (hyes.address hl)
  by_cases hp : p
  · rw [if_pos hp] at hfirst ⊢
    exact hfirst.trans (.of_moves (hyes.skip rfl) rfl (Moves.push yes))
  · rw [if_neg hp] at hfirst ⊢
    exact (hfirst.trans (.of_moves hno rfl (Moves.push no))).trans (.branch hend (hafter.address hl))

/-- Whichever of the two branches is taken, it ends behind the selection with one word. -/
theorem select {l' : Label} {no yes a b : Int} {ws : List Int} (hl : ls.unit.labels.Nodup)
    (hs : ls.Sits ip (plain (Code.select l l' no yes))) :
    T.Goes ls none ip { c with stack := b :: a :: ws } (ip + 4)
      { c with stack := (if a = b then yes else no) :: ws } :=
  choice { c with stack := ws } hl hs rfl fun _ hn => .branchEqual hs hn

theorem lessEqual {l' : Label} {a b : Int} {ws : List Int} (hl : ls.unit.labels.Nodup)
    (hs : ls.Sits ip (plain (Code.lessEqual l l'))) :
    T.Goes ls none ip { c with stack := b :: a :: ws } (ip + 4)
      { c with stack := (if a ≤ b then 1 else 0) :: ws } :=
  choice { c with stack := ws } hl hs rfl fun _ hn => .branchLessEqual hs hn

/-- A constant is compared with the top of the stack. -/
theorem test {w : Int} (hs : ls.Sits ip (plain [.push w, .branchEqual l])) (hl : ls.unit.address? l = some n)
    (c : Snapshot) (a : Int) (ws : List Int) :
    T.Goes ls none ip { c with stack := a :: ws } (if a = w then n else ip + 2) { c with stack := ws } :=
  (Target.Goes.of_moves hs rfl (Moves.push w)).trans (.branchEqual (hs.next rfl) hl)

end Target.Goes

/-! ## Straight code -/

namespace Straight

variable {is : Code} {c c' : Snapshot} {ip : Nat}

/-- Code without branches and marks, as the simulation of evaluations uses it. -/
theorem goes (h : Straight T ls.unit is c c') (hs : ls.Sits ip (plain is)) :
    T.Goes ls none ip c (ip + (plain is).size) c' := by
  induction h generalizing ip with
  | nil => exact .refl ip _
  | @cons i is c c₁ _ hi hm _ ih =>
    have hstep : T.Goes ls none ip c (ip + 1) c₁ := .of_moves hs hi hm
    have hrest := ih (hs.next hi)
    rw [plain_cons, Listing.size_executed hi, ← Nat.add_assoc]
    exact hstep.trans hrest

/-- Code with a mark on its last instruction. -/
theorem goes_ending {m : Mark} (h : Straight T ls.unit is c c') (hne : is ≠ [])
    (hs : ls.Sits ip (ending m is)) : T.Goes ls (some m) ip c (ip + (ending m is).size) c' := by
  induction h generalizing ip with
  | nil => exact absurd rfl hne
  | @cons i is c c₁ c₂ hi hm hrest ih =>
    cases is with
    | nil =>
      cases hrest
      have hstep : T.Goes ls (some m) ip c (ip + 1) c₁ := .of_moves hs hi hm
      rwa [ending, Listing.size_executed hi, Listing.size_nil]
    | cons j is =>
      have hstep : T.Goes ls none ip c (ip + 1) c₁ := .of_moves hs hi hm
      have hlast := ih (List.cons_ne_nil j is) (hs.next hi)
      rw [ending, Listing.size_executed hi, ← Nat.add_assoc]
      exact hstep.trans hlast

end Straight

end ObjLet
