import ObjLet.Proofs.Machine.Step

/-!
# Stretches of code

Code without labels, branches and jumps takes the machine from one state to another, wherever it stands in a
unit (`Code.Takes`). States count up to the free memory, from an address `low` up to the stack pointer, which
pushes use and nothing reads (`Machine.Agrees`). So a word that is pushed and popped again leaves no trace, and
what a stretch does is put together from one rule for each kind of instruction (`Code.Takes.append`).
-/

namespace ObjLet

/-- Executed instructions stand at an address of a unit. -/
def CodeUnit.Holds (u : CodeUnit) (ip : Nat) (c : Code) : Prop :=
  ∃ before after, u.executed = before ++ c ++ after ∧ before.length = ip

variable {T : Target} {u : CodeUnit} {low : Int} {m m₁ m₂ s : Machine} {i : Instruction} {c c' : Code} {ip : Nat}

namespace CodeUnit.Holds

/-- Code without labels is found at the address that counts the instructions before it. -/
theorem of_code {before after : Code} (h : u.code = before ++ c ++ after)
    (hc : ∀ i ∈ c, i.isPlacement = false) : u.Holds (before.countP (!·.isPlacement)) c := by
  refine ⟨before.filter (!·.isPlacement), after.filter (!·.isPlacement), ?_, ?_⟩
  · have hkeep : c.filter (!·.isPlacement) = c := List.filter_eq_self.2 fun i hi => by simp [hc i hi]
    rw [executed, h, List.filter_append, List.filter_append, hkeep]
  · rw [List.countP_eq_length_filter]

theorem getElem? (h : u.Holds ip (i :: c)) : u.executed[ip]? = some i := by
  obtain ⟨before, after, hu, rfl⟩ := h
  simp [hu]

/-- Code that is in place is in place part by part. -/
theorem left (h : u.Holds ip (c ++ c')) : u.Holds ip c := by
  obtain ⟨before, after, hu, rfl⟩ := h
  exact ⟨before, c' ++ after, by simp [hu], rfl⟩

theorem right (h : u.Holds ip (c ++ c')) : u.Holds (ip + c.length) c' := by
  obtain ⟨before, after, hu, rfl⟩ := h
  exact ⟨before ++ c, after, by simp [hu], by simp⟩

theorem next (h : u.Holds ip (i :: c)) : u.Holds (ip + 1) c := right (c := [i]) h

/-- One step of the machine at an instruction that is in place. -/
theorem step (h : u.Holds m.ip (i :: c)) : T.step u m = T.exec u m.next i := by
  rw [Target.step, h.getElem?]

end CodeUnit.Holds

/-! ## Words on the stack -/

namespace Target

/-- There is room for a word on the stack. -/
def Room (T : Target) (m : Machine) : Prop := 0 ≤ m.hp ∧ m.hp < m.sp ∧ m.sp ≤ T.memory

/-- There is room for a word as long as the stack has not met the heap. -/
theorem push_of_room (h : T.Room m) (w : Int) : T.push m w = .ok (m.pushed w) := by
  obtain ⟨h0, hlt, hle⟩ := h
  rw [push, if_neg (by omega), if_pos ⟨by omega, by omega⟩]

theorem pop_of_inRange (hr : T.InRange m.sp) : T.pop m = .ok (m.top, m.popped) := by
  rw [pop, read, if_pos hr]
  rfl

/-- The lemmas on single instructions say what the machine becomes where the words that are touched exist. They
are stated on the machine before the step, so that they can be chained. -/
theorem exec_pop (hr : T.InRange m.sp) : T.exec u m .pop = .ok m.popped := by
  rw [exec, pop_of_inRange hr]
  rfl

theorem exec_store (r : Register) (hr : T.InRange m.sp) :
    T.exec u m (.store r) = .ok (m.popped.setRegister r m.top) := by
  rw [exec, pop_of_inRange hr]
  rfl

/-- Two words are popped before the sum is pushed, so the room is that of the machine with both of them gone. -/
theorem exec_add (hr : T.InRange m.sp) (hr' : T.InRange (m.sp + 1)) (hroom : T.Room m.popped.popped) :
    T.exec u m (.arith .add) = .ok (m.popped.popped.pushed (T.wrap (m.mem (m.sp + 1) + m.top))) := by
  change (T.pop m).bind (fun r => (T.pop r.2).bind fun r' => T.push r'.2 (T.wrap (r'.1 + r.1))) = _
  rw [pop_of_inRange hr]
  change (T.pop m.popped).bind _ = _
  rw [pop_of_inRange (m := m.popped) hr']
  exact push_of_room hroom _

theorem exec_loadWord (hr : T.InRange m.sp) (ha : T.InRange m.top) (hroom : T.Room m.popped) :
    T.exec u m .loadWord = .ok (m.popped.pushed (m.mem m.top)) := by
  change (T.pop m).bind (fun r => (T.read r.2 r.1).bind fun w => T.push r.2 w) = _
  rw [pop_of_inRange hr]
  change (T.read m.popped m.top).bind _ = _
  rw [read, if_pos ha]
  exact push_of_room hroom _

/-- The address is on top and the word to be stored is below it. -/
theorem exec_storeWord (hr : T.InRange m.sp) (hr' : T.InRange (m.sp + 1)) (ha : T.InRange m.top) :
    T.exec u m .storeWord = .ok (m.popped.popped.write m.top (m.mem (m.sp + 1))) := by
  change (T.pop m).bind (fun r => (T.pop r.2).bind fun r' =>
    if T.InRange r.1 then .ok (r'.2.write r.1 r'.1) else .error .addressOutOfRange) = _
  rw [pop_of_inRange hr]
  change (T.pop m.popped).bind _ = _
  rw [pop_of_inRange (m := m.popped) hr']
  exact if_pos ha

end Target

/-! ## Machines that agree -/

namespace Machine

/-- The state after a number of pops. -/
def dropped (m : Machine) (n : Nat) : Machine := { m with sp := m.sp + n }

theorem top_pushed (m : Machine) (w : Int) : (m.pushed w).top = w := if_pos rfl

theorem mem_pushed {b : Int} (hb : b ≠ m.sp - 1) (w : Int) : (m.pushed w).mem b = m.mem b := if_neg hb

/-- A word that is pushed makes the old top the second one. -/
theorem second_pushed (m : Machine) (w : Int) : (m.pushed w).mem ((m.pushed w).sp + 1) = m.top := by
  have hsp : (m.pushed w).sp + 1 = m.sp := Int.sub_add_cancel ..
  rw [hsp, mem_pushed (by omega), top]

/-- A machine is like another one, up to the address of the next instruction and the free memory from `low` up to
the stack pointer. -/
structure Agrees (low : Int) (m m' : Machine) : Prop where
  sp : m'.sp = m.sp
  fp : m'.fp = m.fp
  hp : m'.hp = m.hp
  ra : m'.ra = m.ra
  tm : m'.tm = m.tm
  out : m'.out = m.out
  mem : ∀ {b}, b < low ∨ m.sp ≤ b → m'.mem b = m.mem b

namespace Agrees

/-- Agreement is used like an equality: it is reflexive and transitive, and every instruction respects it. -/
theorem refl (low : Int) (m : Machine) : m.Agrees low m := ⟨rfl, rfl, rfl, rfl, rfl, rfl, fun _ => rfl⟩

theorem trans (h : m.Agrees low m₁) (h' : m₁.Agrees low m₂) : m.Agrees low m₂ where
  sp := h'.sp.trans h.sp
  fp := h'.fp.trans h.fp
  hp := h'.hp.trans h.hp
  ra := h'.ra.trans h.ra
  tm := h'.tm.trans h.tm
  out := h'.out.trans h.out
  mem hb := (h'.mem (by rwa [h.sp])).trans (h.mem hb)

theorem next (h : m.Agrees low s) : m.Agrees low s.next := ⟨h.sp, h.fp, h.hp, h.ra, h.tm, h.out, h.mem⟩

/-- Pushing the same word on both sides keeps the machines in agreement, since the word goes to the same place. -/
theorem pushed (h : m.Agrees low s) (w : Int) : (m.pushed w).Agrees low (s.pushed w) := by
  refine ⟨congrArg (· - 1) h.sp, h.fp, h.hp, h.ra, h.tm, h.out, fun {b} hb => ?_⟩
  change b < low ∨ m.sp - 1 ≤ b at hb
  change (if b = s.sp - 1 then w else s.mem b) = if b = m.sp - 1 then w else m.mem b
  rw [h.sp]
  split
  · rfl
  · exact h.mem (by omega)

theorem popped (h : m.Agrees low s) : m.popped.Agrees low s.popped := by
  refine ⟨congrArg (· + 1) h.sp, h.fp, h.hp, h.ra, h.tm, h.out, fun {b} hb => h.mem ?_⟩
  change b < low ∨ m.sp + 1 ≤ b at hb
  omega

/-- Writing to the same address on both sides keeps them in agreement, also below the stack. -/
theorem write (h : m.Agrees low s) (a w : Int) : (m.write a w).Agrees low (s.write a w) := by
  refine ⟨h.sp, h.fp, h.hp, h.ra, h.tm, h.out, fun {b} hb => ?_⟩
  change (if b = a then w else s.mem b) = if b = a then w else m.mem b
  rw [h.mem hb]

/-- All registers are compared, so setting one needs no condition on it. -/
theorem setRegister (h : m.Agrees low s) (r : Register) (w : Int) :
    (m.setRegister r w).Agrees low (s.setRegister r w) := by
  cases r
  · exact ⟨h.sp, rfl, h.hp, h.ra, h.tm, h.out, h.mem⟩
  · exact ⟨h.sp, h.fp, h.hp, rfl, h.tm, h.out, h.mem⟩
  · exact ⟨h.sp, h.fp, h.hp, h.ra, rfl, h.out, h.mem⟩
  · exact ⟨h.sp, h.fp, rfl, h.ra, h.tm, h.out, h.mem⟩

/-- Nothing is left of a word that is popped again. -/
theorem popped_pushed (hlow : low < m.sp) (w : Int) : m.Agrees low (m.pushed w).popped := by
  refine ⟨Int.sub_add_cancel .., rfl, rfl, rfl, rfl, rfl, fun {b} hb => ?_⟩
  exact if_neg (by omega)

/-- Machines in agreement have the same registers. -/
theorem register (h : m.Agrees low s) (r : Register) : s.register r = m.register r := by
  cases r
  · exact h.fp
  · exact h.ra
  · exact h.tm
  · exact h.hp

/-- The words from the stack pointer upwards are the same, and so is what an instruction pops. -/
theorem top (h : m.Agrees low s) : s.top = m.top := by
  rw [Machine.top, h.sp, h.mem (.inr (Int.le_refl _)), Machine.top]

theorem second (h : m.Agrees low s) : s.mem (s.sp + 1) = m.mem (m.sp + 1) := by
  rw [h.sp, h.mem (.inr (by omega))]

/-- Whether there is room depends on registers alone. -/
theorem room (h : m.Agrees low s) (hroom : T.Room m) : T.Room s := by
  rw [Target.Room, h.sp, h.hp]
  exact hroom

end Agrees

end Machine

/-! ## What code does -/

/-- Wherever the code stands, it takes the machine from a state like `m` to one like `m'`. -/
def Code.Takes (T : Target) (low : Int) (c : Code) (m m' : Machine) : Prop :=
  ∀ (u : CodeUnit) (s : Machine), u.Holds s.ip c → m.Agrees low s →
    ∃ s', T.run u c.length s = .ok s' ∧ s'.ip = s.ip + c.length ∧ m'.Agrees low s'

namespace Code.Takes

theorem nil : Takes T low [] m m := fun _ _ _ h => ⟨_, rfl, rfl, h⟩

/-- Pieces of code run one after the other. Between them machines are known up to agreement only. -/
theorem append (h : Takes T low c m m₁) (h' : Takes T low c' m₁ m₂) : Takes T low (c ++ c') m m₂ := by
  intro u s hc hs
  obtain ⟨s₁, hrun, hip, hs₁⟩ := h u s hc.left hs
  obtain ⟨s₂, hrun', hip', hs₂⟩ := h' u s₁ (hip ▸ hc.right) hs₁
  refine ⟨s₂, ?_, ?_, hs₂⟩
  · rw [List.length_append, Target.run_add, hrun]
    exact hrun'
  · rw [hip', hip, List.length_append, Nat.add_assoc]

/-- The machine at the end may be described in any way that agrees with it. -/
theorem congr (h : Takes T low c m m₁) (h' : m₂.Agrees low m₁) : Takes T low c m m₂ := by
  intro u s hc hs
  obtain ⟨s₁, hrun, hip, hs₁⟩ := h u s hc hs
  exact ⟨s₁, hrun, hip, h'.trans hs₁⟩

/-- An instruction that changes all machines like `m` in one way. -/
theorem of_exec (f : Machine → Machine)
    (hx : ∀ (u : CodeUnit) {s : Machine}, m.Agrees low s → T.exec u s i = .ok (f s))
    (hf : ∀ {s : Machine}, m.Agrees low s → (f m).Agrees low (f s)) (hip : ∀ s, (f s).ip = s.ip) :
    Takes T low [i] m (f m) := by
  intro u s hc hs
  refine ⟨f s.next, ?_, hip _, hf hs.next⟩
  change (T.step u s).bind (T.run u 0) = _
  rw [CodeUnit.Holds.step hc, hx u hs.next]
  rfl

theorem push (hroom : T.Room m) (w : Int) : Takes T low [.push w] m (m.pushed w) := by
  refine of_exec (·.pushed w) (fun u s hs => ?_) (fun hs => hs.pushed w) fun _ => rfl
  exact Target.push_of_room (hs.room hroom) w

theorem load (hroom : T.Room m) (r : Register) : Takes T low [.load r] m (m.pushed (m.register r)) :=
  of_exec (·.pushed (m.register r))
    (fun u s hs => by rw [← hs.register r]; exact Target.push_of_room (hs.room hroom) _)
    (fun hs => hs.pushed _) fun _ => rfl

theorem pop (hr : T.InRange m.sp) : Takes T low [.pop] m m.popped :=
  of_exec (·.popped) (fun _ _ hs => Target.exec_pop (hs.sp ▸ hr)) (fun hs => hs.popped) fun _ => rfl

theorem store (r : Register) (hr : T.InRange m.sp) :
    Takes T low [.store r] m (m.popped.setRegister r m.top) :=
  of_exec (fun s => s.popped.setRegister r m.top)
    (fun u s hs => by rw [Target.exec_store r (hs.sp ▸ hr), hs.top])
    (fun hs => hs.popped.setRegister r _) fun s => by cases r <;> rfl

/-- A whole frame is dropped word by word. -/
theorem pops (n : Nat) (h0 : 0 ≤ m.sp) (hle : m.sp + n ≤ T.memory) :
    Takes T low (List.replicate n .pop) m (m.dropped n) := by
  induction n generalizing m with
  | zero =>
    refine nil.congr ?_
    exact ⟨(Int.add_zero _).symm, rfl, rfl, rfl, rfl, rfl, fun _ => rfl⟩
  | succ n ih =>
    have hfirst : Takes T low [.pop] m m.popped := pop ⟨h0, by omega⟩
    have hrest : Takes T low (List.replicate n .pop) m.popped (m.popped.dropped n) :=
      ih (show 0 ≤ m.sp + 1 by omega) (show m.sp + 1 + n ≤ T.memory by omega)
    refine (hfirst.append hrest).congr ?_
    refine ⟨?_, rfl, rfl, rfl, rfl, rfl, fun _ => rfl⟩
    change m.sp + 1 + n = m.sp + (n + 1 : Nat)
    omega

/-! Operands are words that have been pushed before. -/

section Operands

variable (h0 : 0 ≤ m.hp) (hle : m.sp ≤ T.memory)
include h0 hle

/-- What was just pushed goes to a register, and the stack is as before. -/
theorem storePushed (r : Register) (w : Int) (hroom : m.hp < m.sp) (hlow : low < m.sp) :
    Takes T low [.store r] (m.pushed w) (m.setRegister r w) := by
  have hstore : Takes T low [.store r] (m.pushed w) ((m.pushed w).popped.setRegister r (m.pushed w).top) :=
    store r ⟨show 0 ≤ m.sp - 1 by omega, show m.sp - 1 < T.memory by omega⟩
  rw [Machine.top_pushed] at hstore
  exact hstore.congr ((Machine.Agrees.popped_pushed hlow w).setRegister r w)

/-- A pushed address is replaced by the word at it. The address is not one of those that are left open, so that
word is known. -/
theorem loadWord {a : Int} (hroom : m.hp < m.sp) (hlow : low < m.sp) (ha : T.InRange a)
    (hfree : a < low ∨ m.sp ≤ a) : Takes T low [.loadWord] (m.pushed a) (m.pushed (m.mem a)) := by
  have hload : Takes T low [.loadWord] (m.pushed a) ((m.pushed a).popped.pushed (m.mem a)) := by
    refine of_exec (·.popped.pushed (m.mem a)) (fun u s hs => ?_) (fun hs => hs.popped.pushed _) fun _ => rfl
    have hsp : s.sp = m.sp - 1 := hs.sp
    have htop : s.top = a := hs.top.trans (m.top_pushed a)
    have hword : s.mem a = m.mem a := by
      rw [hs.mem (hfree.imp_right fun h => show m.sp - 1 ≤ a by omega), Machine.mem_pushed (by omega)]
    have hroom' : T.Room s.popped := by
      have hhp : s.hp = m.hp := hs.hp
      exact ⟨show 0 ≤ s.hp by omega, show s.hp < s.sp + 1 by omega, show s.sp + 1 ≤ T.memory by omega⟩
    rw [Target.exec_loadWord ⟨by omega, by omega⟩ (htop ▸ ha) hroom', htop, hword]
  exact hload.congr ((Machine.Agrees.popped_pushed hlow a).pushed _)

omit hle in
/-- The word below the address is stored there. -/
theorem storeWord {a : Int} (hroom : m.hp < m.sp) (hlow : low < m.sp) (hr : m.sp < T.memory) (ha : T.InRange a) :
    Takes T low [.storeWord] (m.pushed a) (m.popped.write a m.top) := by
  have hstore : Takes T low [.storeWord] (m.pushed a) ((m.pushed a).popped.popped.write a m.top) := by
    refine of_exec (·.popped.popped.write a m.top) (fun u s hs => ?_) (fun hs => hs.popped.popped.write _ _)
      fun _ => rfl
    have hsp : s.sp = m.sp - 1 := hs.sp
    have htop : s.top = a := hs.top.trans (m.top_pushed a)
    have hsecond : s.mem (s.sp + 1) = m.top := hs.second.trans (m.second_pushed a)
    rw [Target.exec_storeWord ⟨by omega, by omega⟩ ⟨by omega, by omega⟩ (htop ▸ ha), htop, hsecond]
  exact hstore.congr ((Machine.Agrees.popped_pushed hlow a).popped.write _ _)

/-- Two pushed words become their sum. The machine may round the sum, so what it becomes is given. -/
theorem add {a b w : Int} (hw : T.wrap (a + b) = w) (hroom : m.hp + 2 ≤ m.sp) (hlow : low + 2 ≤ m.sp) :
    Takes T low [.arith .add] ((m.pushed a).pushed b) (m.pushed w) := by
  have hadd : Takes T low [.arith .add] ((m.pushed a).pushed b)
      (((m.pushed a).pushed b).popped.popped.pushed w) := by
    refine of_exec (·.popped.popped.pushed w) (fun u s hs => ?_) (fun hs => hs.popped.popped.pushed _)
      fun _ => rfl
    have hsp : s.sp = m.sp - 1 - 1 := hs.sp
    have hhp : s.hp = m.hp := hs.hp
    have htop : s.top = b := hs.top.trans ((m.pushed a).top_pushed b)
    have hsecond : s.mem (s.sp + 1) = a :=
      (hs.second.trans ((m.pushed a).second_pushed b)).trans (m.top_pushed a)
    have hroom' : T.Room s.popped.popped :=
      ⟨show 0 ≤ s.hp by omega, show s.hp < s.sp + 1 + 1 by omega, show s.sp + 1 + 1 ≤ T.memory by omega⟩
    rw [Target.exec_add ⟨by omega, by omega⟩ ⟨by omega, by omega⟩ hroom', htop, hsecond, hw]
  have hfirst : m.Agrees low (m.pushed a).popped := .popped_pushed (by omega) a
  have hboth : m.Agrees low ((m.pushed a).pushed b).popped.popped :=
    hfirst.trans (Machine.Agrees.popped_pushed (show low < m.sp - 1 by omega) b).popped
  exact hadd.congr (hboth.pushed w)

/-- The address at an offset from a register is pushed. -/
theorem address (r : Register) {k a : Int} (ha : T.wrap (m.register r + k) = a) (hroom : m.hp + 2 ≤ m.sp)
    (hlow : low + 2 ≤ m.sp) : Takes T low [.load r, .push k, .arith .add] m (m.pushed a) := by
  have hload : Takes T low [.load r] m (m.pushed (m.register r)) := load ⟨h0, by omega, hle⟩ r
  have hpush : Takes T low [.push k] (m.pushed (m.register r)) ((m.pushed (m.register r)).pushed k) :=
    push (m := m.pushed _) ⟨h0, show m.hp < m.sp - 1 by omega, show m.sp - 1 ≤ T.memory by omega⟩ k
  exact hload.append (hpush.append (add h0 hle ha hroom hlow))

end Operands

end Code.Takes

end ObjLet
