import ObjLet.Proofs.Code.Marked

/-!
# The machine as lists of words

A `Snapshot` is what matters of a machine between two instructions: the words on the stack, those on the heap
and the registers. `Machine.At` ties a machine to it. `Moves` says what an instruction does to snapshots;
where the stack meets the heap the machine stops instead. What lies deeper in the stack is not touched by
pushing, since cells of the stack are counted from its bottom (`Target.StackCell`).
-/

namespace ObjLet

/-- The stack, its top first, the heap, its first word first, and the registers. -/
structure Snapshot where
  stack : List Int
  heap : List Int
  fp : Int
  tm : Int
  ra : Int
  out : List Int

namespace Snapshot

/-- A push writes below the stack, or reports that there is no room. -/
def push (c : Snapshot) (w : Int) : Snapshot := { c with stack := w :: c.stack }

def register (c : Snapshot) : Register → Int
  | .fp => c.fp
  | .ra => c.ra
  | .tm => c.tm
  | .hp => c.heap.length

end Snapshot

/-- A machine is at an address and its memory and registers are as in a snapshot. -/
structure Machine.At (T : Target) (s : Machine) (ip : Nat) (c : Snapshot) : Prop where
  ip : s.ip = ip
  sp : s.sp + c.stack.length = T.memory
  hp : s.hp = c.heap.length
  fp : s.fp = c.fp
  tm : s.tm = c.tm
  ra : s.ra = c.ra
  out : s.out = c.out
  room : s.hp ≤ s.sp
  word : ∀ {i : Nat} {x : Int}, c.stack[i]? = some x → s.mem (s.sp + i) = x
  heapWord : ∀ {i : Nat} {x : Int}, c.heap[i]? = some x → s.mem i = x

/-! ## Cells -/

/-- The stack has a word at an address. -/
def Target.StackCell (T : Target) (ws : List Int) (a x : Int) : Prop :=
  ∃ i : Nat, ws[i]? = some x ∧ a + ws.length = T.memory + i

/-- The heap has a word at an address. -/
def HeapCell (hs : List Int) (a x : Int) : Prop := ∃ i : Nat, hs[i]? = some x ∧ a = i

/-- The memory has a word at an address. -/
def Snapshot.Cell (T : Target) (c : Snapshot) (a x : Int) : Prop :=
  T.StackCell c.stack a x ∨ HeapCell c.heap a x

variable {T : Target} {u : CodeUnit}

theorem Target.StackCell.push {ws : List Int} {a x : Int} (h : T.StackCell ws a x) (w : Int) :
    T.StackCell (w :: ws) a x := by
  obtain ⟨i, hi, ha⟩ := h
  refine ⟨i + 1, by simpa using hi, ?_⟩
  simp only [List.length_cons]
  omega

/-- Cells of the stack are counted from its bottom, so pushing leaves them alone. -/
theorem Target.StackCell.append {ws : List Int} {a x : Int} (h : T.StackCell ws a x) (vs : List Int) :
    T.StackCell (vs ++ ws) a x := by
  induction vs with
  | nil => exact h
  | cons v vs ih => exact ih.push v

/-- The words that were pushed last. -/
theorem Target.stackCell_top {vs ws : List Int} {i : Nat} {x : Int} (h : vs[i]? = some x) :
    T.StackCell (vs ++ ws) (T.memory - ws.length - vs.length + i) x := by
  obtain ⟨hlt, -⟩ := List.getElem?_eq_some_iff.1 h
  refine ⟨i, by rw [List.getElem?_append_left hlt, h], ?_⟩
  simp only [List.length_append]
  omega

/-- Cells of the heap stay when it grows. -/
theorem HeapCell.append {hs : List Int} {a x : Int} (h : HeapCell hs a x) (vs : List Int) :
    HeapCell (hs ++ vs) a x := by
  obtain ⟨i, hi, ha⟩ := h
  obtain ⟨hlt, -⟩ := List.getElem?_eq_some_iff.1 hi
  exact ⟨i, by rw [List.getElem?_append_left hlt, hi], ha⟩

namespace Machine.At

variable {s : Machine} {ip : Nat} {c : Snapshot}

theorem next (h : s.At T ip c) : s.next.At T (ip + 1) c :=
  ⟨by rw [Machine.next, h.ip], h.sp, h.hp, h.fp, h.tm, h.ra, h.out, h.room, h.word, h.heapWord⟩

theorem goto (h : s.At T ip c) (n : Nat) : (s.goto n).At T n c :=
  ⟨rfl, h.sp, h.hp, h.fp, h.tm, h.ra, h.out, h.room, h.word, h.heapWord⟩

/-- What a cell has is in memory, at an address that can be accessed. -/
theorem cell (h : s.At T ip c) {a x : Int} (hc : c.Cell T a x) : s.mem a = x ∧ T.InRange a := by
  have hsp := h.sp
  have hhp := h.hp
  have hroom := h.room
  rcases hc with ⟨i, hi, ha⟩ | ⟨i, hi, rfl⟩
  · obtain ⟨hlt, -⟩ := List.getElem?_eq_some_iff.1 hi
    have hw := h.word hi
    have heq : s.sp + i = a := by omega
    rw [heq] at hw
    exact ⟨hw, by omega, by omega⟩
  · obtain ⟨hlt, -⟩ := List.getElem?_eq_some_iff.1 hi
    exact ⟨h.heapWord hi, by omega, by omega⟩

theorem read (h : s.At T ip c) {a x : Int} (hc : c.Cell T a x) : T.read s a = .ok x := by
  obtain ⟨hx, hr⟩ := h.cell hc
  rw [Target.read, if_pos hr, hx]

theorem push (h : s.At T ip c) (w : Int) :
    T.push s w = .error .stackOverflow ∨ ∃ s', T.push s w = .ok s' ∧ s'.At T ip (c.push w) := by
  have hsp := h.sp
  have hhp := h.hp
  have hroom := h.room
  rw [Target.push]
  by_cases hfull : s.sp - 1 < s.hp
  · rw [if_pos hfull]
    exact .inl rfl
  have hrange : T.InRange (s.sp - 1) := ⟨by omega, by omega⟩
  rw [if_neg hfull, if_pos hrange]
  refine .inr ⟨_, rfl, h.ip, ?_, h.hp, h.fp, h.tm, h.ra, h.out, ?_, ?_, ?_⟩
  · change s.sp - 1 + _ = _
    simp only [Snapshot.push, List.length_cons]
    omega
  · change s.hp ≤ s.sp - 1
    omega
  · intro i x hx
    change (if s.sp - 1 + i = s.sp - 1 then w else s.mem (s.sp - 1 + i)) = x
    cases i with
    | zero =>
      rw [if_pos (by omega)]
      simpa [Snapshot.push] using hx
    | succ i =>
      rw [if_neg (by omega), show s.sp - 1 + (i + 1 : Nat) = s.sp + i by omega]
      exact h.word (by simpa [Snapshot.push] using hx)
  · intro i x hx
    obtain ⟨hlt, -⟩ := List.getElem?_eq_some_iff.1 hx
    change (if (i : Int) = s.sp - 1 then w else s.mem i) = x
    have hlt' : i < c.heap.length := hlt
    rw [if_neg (by omega)]
    exact h.heapWord hx

theorem pop {w : Int} {ws : List Int} (h : s.At T ip { c with stack := w :: ws }) :
    T.pop s = .ok (w, s.popped) ∧ s.popped.At T ip { c with stack := ws } := by
  have hsp := h.sp
  have hroom := h.room
  have htop : Snapshot.Cell T { c with stack := w :: ws } s.sp w := by
    refine .inl ⟨0, rfl, ?_⟩
    simp only at hsp ⊢
    omega
  refine ⟨?_, h.ip, ?_, h.hp, h.fp, h.tm, h.ra, h.out, ?_, ?_, h.heapWord⟩
  · rw [Target.pop, h.read htop]
    rfl
  · change s.sp + 1 + _ = _
    simp only [List.length_cons] at hsp ⊢
    omega
  · change s.hp ≤ s.sp + 1
    omega
  · intro i x hx
    have hw := h.word (i := i + 1) (by simpa using hx)
    change s.mem (s.sp + 1 + i) = x
    rwa [show s.sp + 1 + (i : Int) = s.sp + (i + 1 : Nat) by omega]

end Machine.At

/-! ## Instructions -/

/-- An instruction leads from a snapshot to a snapshot, if the stack does not meet the heap. -/
def Moves (T : Target) (u : CodeUnit) (i : Instruction) (c c' : Snapshot) : Prop :=
  ∀ {s : Machine} {ip : Nat}, s.At T ip c →
    T.exec u s i = .error .stackOverflow ∨ ∃ s', T.exec u s i = .ok s' ∧ s'.At T ip c'

namespace Moves

variable {c : Snapshot} {a b w : Int} {ws : List Int}

theorem push (w : Int) : Moves T u (.push w) c (c.push w) := fun h => h.push w

theorem pushLabel {l : Label} {n : Nat} (hl : u.address? l = some n) :
    Moves T u (.pushLabel l) c (c.push n) := by
  intro s ip h
  have hr : Target.resolve u l = .ok n := by rw [Target.resolve, hl]
  change (Target.resolve u l).bind (fun n => T.push s n) = _ ∨
    ∃ s', (Target.resolve u l).bind (fun n => T.push s n) = .ok s' ∧ _
  rw [hr]
  exact h.push n

theorem pop : Moves T u .pop { c with stack := w :: ws } { c with stack := ws } := by
  intro s ip h
  obtain ⟨hp, hs⟩ := h.pop
  refine .inr ⟨_, ?_, hs⟩
  rw [Target.exec, hp]
  rfl

theorem load (r : Register) : Moves T u (.load r) c (c.push (c.register r)) := by
  intro s ip h
  have heq : s.register r = c.register r := by
    cases r
    · exact h.fp
    · exact h.ra
    · exact h.tm
    · exact h.hp
  rw [Target.exec, heq]
  exact h.push _

theorem storeFp : Moves T u (.store .fp) { c with stack := w :: ws } { c with stack := ws, fp := w } := by
  intro s ip h
  obtain ⟨hp, hs⟩ := h.pop
  refine .inr ⟨{ s.popped with fp := w }, ?_, ⟨hs.ip, hs.sp, hs.hp, rfl, hs.tm, hs.ra, hs.out, hs.room,
    hs.word, hs.heapWord⟩⟩
  rw [Target.exec, hp]
  rfl

theorem storeTm : Moves T u (.store .tm) { c with stack := w :: ws } { c with stack := ws, tm := w } := by
  intro s ip h
  obtain ⟨hp, hs⟩ := h.pop
  refine .inr ⟨{ s.popped with tm := w }, ?_, ⟨hs.ip, hs.sp, hs.hp, hs.fp, rfl, hs.ra, hs.out, hs.room,
    hs.word, hs.heapWord⟩⟩
  rw [Target.exec, hp]
  rfl

theorem storeRa : Moves T u (.store .ra) { c with stack := w :: ws } { c with stack := ws, ra := w } := by
  intro s ip h
  obtain ⟨hp, hs⟩ := h.pop
  refine .inr ⟨{ s.popped with ra := w }, ?_, ⟨hs.ip, hs.sp, hs.hp, hs.fp, hs.tm, rfl, hs.out, hs.room,
    hs.word, hs.heapWord⟩⟩
  rw [Target.exec, hp]
  rfl

/-- The new frame starts at the top of the stack. -/
theorem copyFp : Moves T u .copyFp c { c with fp := T.memory - c.stack.length } := by
  intro s ip h
  have hsp := h.sp
  refine .inr ⟨{ s with fp := s.sp }, rfl, ⟨h.ip, h.sp, h.hp, ?_, h.tm, h.ra, h.out, h.room, h.word,
    h.heapWord⟩⟩
  change s.sp = T.memory - c.stack.length
  omega

/-- An address is replaced by the word that the memory has there. -/
theorem loadWord (hc : Snapshot.Cell T { c with stack := ws } a w) :
    Moves T u .loadWord { c with stack := a :: ws } { c with stack := w :: ws } := by
  intro s ip h
  obtain ⟨hp, hs⟩ := h.pop
  rw [Target.exec, hp]
  change (T.read s.popped a).bind (fun w => T.push s.popped w) = _ ∨
    ∃ s', (T.read s.popped a).bind (fun w => T.push s.popped w) = .ok s' ∧ _
  rw [hs.read hc]
  exact hs.push w

/-- Two words are replaced by the result of the instruction. -/
theorem arith {op : ArithOp} (ho : op.apply? T.wrap a b = some w) :
    Moves T u (.arith op) { c with stack := b :: a :: ws } { c with stack := w :: ws } := by
  intro s ip h
  obtain ⟨hp, hs⟩ := h.pop
  obtain ⟨hp', hs'⟩ := hs.pop
  rw [Target.exec, hp]
  simp only [bind, Except.bind, hp', ho]
  exact hs'.push w

/-- Store a word into the stack. -/
theorem storeWord {i : Nat} (hi : i < ws.length) (ha : a + ws.length = T.memory + i) :
    Moves T u .storeWord { c with stack := a :: w :: ws } { c with stack := ws.set i w } := by
  intro s ip h
  obtain ⟨hp, hs⟩ := h.pop
  obtain ⟨hp', hs'⟩ := hs.pop
  have hsp := hs'.sp
  have hhp := hs'.hp
  have hroom := hs'.room
  simp only at hsp hhp
  have hr : T.InRange a := ⟨by omega, by omega⟩
  refine .inr ⟨s.popped.popped.write a w, ?_, ⟨hs'.ip, ?_, hs'.hp, hs'.fp, hs'.tm, hs'.ra, hs'.out,
    hs'.room, ?_, ?_⟩⟩
  · rw [Target.exec, hp]
    change (T.pop s.popped).bind _ = _
    rw [hp']
    exact if_pos hr
  · change s.popped.popped.sp + _ = _
    rw [List.length_set]
    exact hsp
  · intro j x hx
    change (if s.popped.popped.sp + j = a then w else s.popped.popped.mem (s.popped.popped.sp + j)) = x
    -- The write goes to one word of the stack, and not to the heap below it.
    by_cases hij : i = j
    · subst hij
      rw [if_pos (by omega)]
      simpa [hi] using hx
    · rw [if_neg (by omega)]
      exact hs'.word (by simpa [List.getElem?_set_ne hij] using hx)
  · intro j x hx
    obtain ⟨hlt, -⟩ := List.getElem?_eq_some_iff.1 hx
    have hlt' : j < c.heap.length := hlt
    change (if (j : Int) = a then w else s.popped.popped.mem j) = x
    rw [if_neg (by omega)]
    exact hs'.heapWord hx

theorem print : Moves T u .print { c with stack := w :: ws } { c with stack := w :: ws, out := c.out ++ [w] } := by
  intro s ip h
  have hsp := h.sp
  have htop : Snapshot.Cell T { c with stack := w :: ws } s.sp w := by
    refine .inl ⟨0, rfl, ?_⟩
    simp only at hsp ⊢
    omega
  refine .inr ⟨{ s with out := s.out ++ [w] }, ?_, ⟨h.ip, h.sp, h.hp, h.fp, h.tm, h.ra, ?_, h.room, h.word,
    h.heapWord⟩⟩
  · rw [Target.exec, h.read htop]
    rfl
  · rw [show s.out = c.out from h.out]

end Moves

end ObjLet
