import ObjLet.Proofs.Simulation.Snapshot

/-!
# From one place of the code to another

`Target.Leads` says that the machine comes from an address and a snapshot to another address and snapshot, if
its stack does not meet the heap on the way. Such ways are put together (`Target.Leads.trans`) from single
instructions that go on behind themselves, from branches and from jumps. `Straight` follows code without
branches through its snapshots.
-/

namespace ObjLet

variable {T : Target} {ls : Listing}

/-- A machine comes from one address and snapshot to another, if its stack does not meet the heap. -/
def Target.Leads (T : Target) (ls : Listing) (ip : Nat) (c : Snapshot) (ip' : Nat) (c' : Snapshot) :
    Prop :=
  ∀ s : Machine, s.At T ip c → (∃ n, T.run ls.unit n s = .error .stackOverflow) ∨
    ∃ n s', T.run ls.unit n s = .ok s' ∧ s'.At T ip' c'

/-- The addresses of a listing. -/
theorem Listing.Sits.le {code : Listing} {ip : Nat} (h : ls.Sits ip code) : ip + code.size ≤ ls.size := by
  obtain ⟨before, after, rfl, rfl⟩ := h
  simp only [Listing.size_append]
  omega

/-- An instruction that is executed takes an address. -/
theorem Listing.size_executed {l : Line} {code : Listing} (hl : l.instruction.isPlacement = false) :
    Listing.size (l :: code) = 1 + code.size := by
  rw [Listing.size_cons, hl]
  rfl

theorem Listing.size_eq (ls : Listing) : ls.size = ls.unit.executed.length := by
  rw [Listing.executed_unit, List.length_map, Listing.size]

namespace Target.Leads

variable {ip ip₁ ip₂ : Nat} {c c₁ c₂ : Snapshot}

theorem refl (ip : Nat) (c : Snapshot) : T.Leads ls ip c ip c := fun _ h => .inr ⟨0, _, rfl, h⟩

theorem trans (h : T.Leads ls ip c ip₁ c₁) (h' : T.Leads ls ip₁ c₁ ip₂ c₂) : T.Leads ls ip c ip₂ c₂ := by
  intro s hs
  rcases h s hs with hfull | ⟨m, s₁, hm, hs₁⟩
  · exact .inl hfull
  rcases h' s₁ hs₁ with ⟨n, hn⟩ | ⟨n, s₂, hn, hs₂⟩
  · refine .inl ⟨m + n, ?_⟩
    rw [Target.run_add, hm]
    exact hn
  · refine .inr ⟨m + n, s₂, ?_, hs₂⟩
    rw [Target.run_add, hm]
    exact hn

/-! ## Single instructions -/

section Step

variable {i : Instruction} {m : Option Mark} {code : Listing}

/-- Where an instruction sits, it is what the machine executes next. -/
theorem step_eq (h : ls.Sits ip (⟨i, m⟩ :: code)) (hi : i.isPlacement = false) {s : Machine}
    (hs : s.At T ip c) : T.step ls.unit s = T.exec ls.unit s.next i := by
  have hline : ls.unit.executed[s.ip]? = some i := by
    rw [Listing.executed_unit, List.getElem?_map, hs.ip, h.line hi]
    rfl
  rw [Target.step, hline]

/-- One step, to be followed from the state behind the instruction. -/
theorem of_exec (h : ls.Sits ip (⟨i, m⟩ :: code)) (hi : i.isPlacement = false)
    (hx : ∀ {s : Machine}, s.At T (ip + 1) c → T.exec ls.unit s i = .error .stackOverflow ∨
      ∃ s', T.exec ls.unit s i = .ok s' ∧ s'.At T ip₁ c₁) : T.Leads ls ip c ip₁ c₁ := by
  intro s hs
  have hrun : T.run ls.unit 1 s = T.exec ls.unit s.next i := by
    change (T.step ls.unit s).bind (fun s => .ok s) = _
    rw [step_eq h hi hs]
    cases T.exec ls.unit s.next i <;> rfl
  rcases hx hs.next with hfull | ⟨s', hs', hat⟩
  · exact .inl ⟨1, hrun.trans hfull⟩
  · exact .inr ⟨1, s', hrun.trans hs', hat⟩

/-- An instruction that goes from snapshot to snapshot leads on to the next address. -/
theorem of_moves (h : ls.Sits ip (⟨i, m⟩ :: code)) (hi : i.isPlacement = false)
    (hm : Moves T ls.unit i c c₁) : T.Leads ls ip c (ip + 1) c₁ := of_exec h hi hm

/-- A branch leads to its label. -/
theorem branch {l : Label} {n : Nat} (h : ls.Sits ip (⟨.branch l, m⟩ :: code))
    (hl : ls.unit.address? l = some n) : T.Leads ls ip c n c := by
  refine of_exec h rfl fun {s} hs => .inr ⟨s.goto n, ?_, hs.goto n⟩
  rw [Target.exec, Target.resolve, hl]
  rfl

/-- A conditional branch leads to its label or goes on. -/
theorem branchIf (test : Int → Int → Bool) {l : Label} {n : Nat} {a b : Int} {ws : List Int}
    (hl : ls.unit.address? l = some n) {s : Machine} (hs : s.At T ip { c with stack := b :: a :: ws }) :
    ∃ s', T.branchIf ls.unit s test l = .ok s' ∧
      s'.At T (if test a b then n else ip) { c with stack := ws } := by
  obtain ⟨hp, hs₁⟩ := hs.pop
  obtain ⟨hp', hs₂⟩ := hs₁.pop
  have hr : Target.resolve ls.unit l = .ok n := by rw [Target.resolve, hl]
  refine ⟨if test a b then s.popped.popped.goto n else s.popped.popped, ?_, ?_⟩
  · rw [Target.branchIf, hp]
    change (T.pop s.popped).bind _ = _
    rw [hp']
    change (if test a b then (Target.resolve ls.unit l).bind fun n => .ok (s.popped.popped.goto n)
      else .ok s.popped.popped) = _
    rw [hr]
    split <;> rfl
  · split
    · exact hs₂.goto n
    · exact hs₂

theorem branchEqual {l : Label} {n : Nat} {a b : Int} {ws : List Int}
    (h : ls.Sits ip (⟨.branchEqual l, m⟩ :: code)) (hl : ls.unit.address? l = some n) :
    T.Leads ls ip { c with stack := b :: a :: ws } (if a = b then n else ip + 1) { c with stack := ws } := by
  refine of_exec h rfl fun hs => .inr ?_
  simpa only [Target.exec, beq_iff_eq] using branchIf (· == ·) hl hs

theorem branchLessEqual {l : Label} {n : Nat} {a b : Int} {ws : List Int}
    (h : ls.Sits ip (⟨.branchLessEqual l, m⟩ :: code)) (hl : ls.unit.address? l = some n) :
    T.Leads ls ip { c with stack := b :: a :: ws } (if a ≤ b then n else ip + 1) { c with stack := ws } := by
  refine of_exec h rfl fun hs => .inr ?_
  simpa only [Target.exec, decide_eq_true_eq] using branchIf (fun a b => decide (a ≤ b)) hl hs

/-- A jump leads to the address on the stack, and leaves the one behind it in the register. -/
theorem jump {n : Nat} (ws : List Int) (h : ls.Sits ip (⟨.jump, m⟩ :: code)) (hn : n < ls.size) :
    T.Leads ls ip { c with stack := n :: ws } n { c with stack := ws, ra := (ip + 1 : Nat) } := by
  refine of_exec h rfl fun {s} hs => .inr ?_
  obtain ⟨hp, hs₁⟩ := hs.pop
  have hip : (s.popped.ip : Int) = (ip + 1 : Nat) := by rw [hs₁.ip]
  have hrange : (0 : Int) ≤ n ∧ (n : Int) < ls.unit.executed.length := by
    rw [← Listing.size_eq]
    omega
  refine ⟨{ s.popped with ra := s.popped.ip, ip := n }, ?_, rfl, hs₁.sp, hs₁.hp, hs₁.fp, hs₁.tm, hip,
    hs₁.out, hs₁.room, hs₁.word, hs₁.heapWord⟩
  rw [Target.exec, hp]
  exact if_pos hrange

end Step

end Target.Leads

/-! ## Straight code -/

/-- Code without branches leads from a snapshot to a snapshot. -/
inductive Straight (T : Target) (u : CodeUnit) : Code → Snapshot → Snapshot → Prop where
  | nil {c : Snapshot} : Straight T u [] c c
  | cons {i : Instruction} {code : Code} {c c₁ c₂ : Snapshot} (hi : i.isPlacement = false)
    (hm : Moves T u i c c₁) (h : Straight T u code c₁ c₂) : Straight T u (i :: code) c c₂

namespace Straight

variable {u : CodeUnit} {a b : Code} {c c₁ c₂ : Snapshot}

theorem append (h : Straight T u a c c₁) (h' : Straight T u b c₁ c₂) : Straight T u (a ++ b) c c₂ := by
  induction h with
  | nil => exact h'
  | cons hi hm _ ih => exact .cons hi hm (ih h')

theorem single {i : Instruction} (hi : i.isPlacement = false) (hm : Moves T u i c c₁) :
    Straight T u [i] c c₁ := .cons hi hm .nil

/-- Straight code leads from its start to its end, wherever it sits. -/
theorem leads (h : Straight T ls.unit a c c₁) {code : Listing} (hcode : code.map (·.instruction) = a)
    {ip : Nat} (hs : ls.Sits ip code) : T.Leads ls ip c (ip + code.size) c₁ := by
  induction h generalizing code ip with
  | nil =>
    cases List.map_eq_nil_iff.1 hcode
    exact Target.Leads.refl ip _
  | @cons _ _ c c₁ _ hi hm _ ih =>
    obtain ⟨⟨i, m⟩, rest, rfl, rfl, hrest⟩ := List.map_eq_cons_iff.1 hcode
    have hi' : i.isPlacement = false := hi
    have hstep : T.Leads ls ip c (ip + 1) c₁ := .of_moves hs hi' hm
    rw [Listing.size_executed hi', ← Nat.add_assoc]
    exact hstep.trans (ih hrest (hs.next hi'))

/-- Words on top of the stack are dropped. -/
theorem pops (vs : List Int) {ws : List Int} :
    Straight T u (List.replicate vs.length .pop) { c with stack := vs ++ ws } { c with stack := ws } := by
  induction vs with
  | nil => exact .nil
  | cons v vs ih => exact .cons rfl Moves.pop ih

end Straight

end ObjLet
