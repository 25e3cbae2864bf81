import Mathlib.Data.List.Forall2
import ObjLet.Code.Sequence
import ObjLet.Proofs.Machine.Stretch

/-!
# Writing a dispatch table

`Code.dispatchTable` writes the addresses of its labels to the top of the heap, one word after the other, and
leaves the address of the first one on the stack (`CodeUnit.Holds.run_dispatchTable`). While a word is written the stack
is three words deeper, so stack and heap must be that far apart; if they are not, the words that are pushed
for the heap pointer fall on the word that was stored.
-/

namespace ObjLet

variable {T : Target} {u : CodeUnit} {m m' : Machine}

theorem CodeUnit.exists_address {l : Label} (h : .place l ∈ u.code) : ∃ n, u.address? l = some n := by
  suffices hfrom : ∀ (c : Code) (n : Nat), .place l ∈ c → ∃ a, addressFrom l n c = some a from hfrom _ _ h
  intro c
  induction c with
  | nil => exact fun _ => nofun
  | cons i c ih =>
    intro n hmem
    cases i with
    | place l' =>
      by_cases hl : l' = l
      · rw [addressFrom, if_pos hl]
        cases addressFrom l n c with
        | none => exact ⟨n, rfl⟩
        | some a => exact ⟨a, rfl⟩
      · obtain ⟨a, ha⟩ := ih n (by simpa [Ne.symm hl] using hmem)
        exact ⟨a, by rw [addressFrom, ha, Option.some_or]⟩
    | _ => exact ih (n + 1) (by simpa using hmem)

/-! ## The heap -/

/-- Words have been put on the heap, and besides only the free memory has changed. -/
structure Machine.Stores (m : Machine) (ws : List Int) (m' : Machine) : Prop where
  sp : m'.sp = m.sp
  fp : m'.fp = m.fp
  ra : m'.ra = m.ra
  tm : m'.tm = m.tm
  out : m'.out = m.out
  hp : m'.hp = m.hp + ws.length
  word : ∀ {i : Nat} {w : Int}, ws[i]? = some w → m'.mem (m.hp + i) = w
  rest : ∀ {b : Int}, b < m.hp ∨ m.sp ≤ b → m'.mem b = m.mem b

theorem Machine.Stores.trans {m'' : Machine} {ws ws' : List Int} (h : m.Stores ws m') (h' : m'.Stores ws' m'') :
    m.Stores (ws ++ ws') m'' where
  sp := h'.sp.trans h.sp
  fp := h'.fp.trans h.fp
  ra := h'.ra.trans h.ra
  tm := h'.tm.trans h.tm
  out := h'.out.trans h.out
  hp := by rw [h'.hp, h.hp, List.length_append]; omega
  word := by
    intro i w hw
    have hhp := h.hp
    rcases Nat.lt_or_ge i ws.length with hlt | hge
    · rw [List.getElem?_append_left hlt] at hw
      rw [h'.rest (.inl (by omega)), h.word hw]
    · rw [List.getElem?_append_right hge] at hw
      rw [← h'.word hw, hhp]
      congr 1
      omega
  rest := by
    intro b hb
    have hhp := h.hp
    have hsp := h.sp
    rw [h'.rest (by omega), h.rest hb]

namespace Code

variable {low : Int} (h0 : 0 ≤ m.hp) (hle : m.sp ≤ T.memory)
include h0

include hle in
/-- The heap pointer moves up by one word. -/
theorem takes_heapBump (hroom : m.hp + 2 ≤ m.sp) (hlow : low + 2 ≤ m.sp) :
    Takes T low heapBump m (m.setRegister .hp (m.hp + 1)) := by
  have hwrap : T.wrap (m.register .hp + 1) = m.hp + 1 :=
    T.wrap_address (m.hp + 1) (by omega) (by omega)
  have haddress : Takes T low [.load .hp, .push 1, .arith .add] m (m.pushed (m.hp + 1)) :=
    .address h0 hle .hp hwrap hroom hlow
  exact haddress.append (.storePushed h0 hle .hp _ (by omega) (by omega))

/-- The word on top of the stack becomes the first free word of the heap. -/
theorem takes_heapStore (hlt : m.sp < T.memory) (hroom : m.hp < m.sp) (hlow : low < m.sp) :
    Takes T low heapStore m ((m.popped.write m.hp m.top).setRegister .hp (m.hp + 1)) := by
  have hload : Takes T low [.load .hp] m (m.pushed m.hp) := .load ⟨h0, hroom, by omega⟩ .hp
  have hstore : Takes T low [.storeWord] (m.pushed m.hp) (m.popped.write m.hp m.top) :=
    .storeWord h0 hroom hlow hlt ⟨h0, by omega⟩
  have hbump : Takes T low heapBump (m.popped.write m.hp m.top)
      ((m.popped.write m.hp m.top).setRegister .hp (m.hp + 1)) :=
    takes_heapBump (m := m.popped.write m.hp m.top) h0 (show m.sp + 1 ≤ T.memory by omega)
      (show m.hp + 2 ≤ m.sp + 1 by omega) (show low + 2 ≤ m.sp + 1 by omega)
  exact hload.append (hstore.append hbump)

end Code

/-- `n` words have been moved from the stack to the heap, the top one first, and besides at most one word below the
stack has changed. -/
structure Machine.Unloads (m : Machine) (n : Nat) (m' : Machine) : Prop where
  sp : m'.sp = m.sp + n
  hp : m'.hp = m.hp + n
  fp : m'.fp = m.fp
  ra : m'.ra = m.ra
  tm : m'.tm = m.tm
  out : m'.out = m.out
  word : ∀ i < n, m'.mem (m.hp + i) = m.mem (m.sp + i)
  rest : ∀ {b : Int}, b < m.hp ∨ m.hp + n ≤ b → b + 1 < m.sp ∨ m.sp + n ≤ b → m'.mem b = m.mem b

/-- More words are moved, of which the first ones stay on the heap. -/
theorem Machine.Unloads.trans {m'' : Machine} {n n' : Nat} (h : m.Unloads n m') (h' : m'.Unloads n' m'')
    (hroom : m.hp + 2 ≤ m.sp) : m.Unloads (n + n') m'' := by
  have hsp := h.sp
  have hhp := h.hp
  refine ⟨?_, ?_, h'.fp.trans h.fp, h'.ra.trans h.ra, h'.tm.trans h.tm, h'.out.trans h.out, ?_, ?_⟩
  · have := h'.sp
    omega
  · have := h'.hp
    omega
  · intro i hi
    rcases Nat.lt_or_ge i n with hlt | hge
    · rw [h'.rest (.inl (by omega)) (.inl (by omega)), h.word i hlt]
    · have hword := h'.word (i - n) (by omega)
      rw [show m'.hp + (i - n : Nat) = m.hp + i by omega, show m'.sp + (i - n : Nat) = m.sp + i by omega] at hword
      rw [hword, h.rest (.inr (by omega)) (.inr (by omega))]
  · intro b hheap hstack
    rw [h'.rest (by omega) (by omega), h.rest (by omega) (by omega)]

/-- The word on top of the stack is moved to the heap. -/
theorem CodeUnit.Holds.run_heapStore (h : u.Holds m.ip Code.heapStore) (h0 : 0 ≤ m.hp) (hroom : m.hp + 2 ≤ m.sp)
    (hlt : m.sp < T.memory) :
    ∃ m', T.run u Code.heapStore.length m = .ok m' ∧ m'.ip = m.ip + Code.heapStore.length ∧ m.Unloads 1 m' := by
  have hstore : Code.Takes T (m.sp - 1) Code.heapStore m _ :=
    Code.takes_heapStore h0 hlt (by omega) (by omega)
  obtain ⟨m', hrun, hip, hlike⟩ := hstore u m h (.refl _ _)
  refine ⟨m', hrun, hip, hlike.sp, hlike.hp, hlike.fp, hlike.ra, hlike.tm, hlike.out, ?_, ?_⟩
  · intro i hi
    obtain rfl : i = 0 := by omega
    change m'.mem (m.hp + 0) = m.mem (m.sp + 0)
    rw [Int.add_zero, Int.add_zero, hlike.mem (.inl (by omega))]
    exact if_pos rfl
  · intro b hheap hstack
    rw [hlike.mem (hstack.imp (fun hb => by omega) id)]
    exact if_neg (show b ≠ m.hp by omega)

/-- The address of a label is put on the heap. -/
theorem CodeUnit.Holds.run_store {l : Label} {a : Nat} (h : u.Holds m.ip (.pushLabel l :: Code.heapStore))
    (hl : u.address? l = some a) (h0 : 0 ≤ m.hp) (hroom : m.hp + 2 < m.sp) (hle : m.sp ≤ T.memory) :
    ∃ m', T.run u 7 m = .ok m' ∧ m'.ip = m.ip + 7 ∧ m.Stores [(a : Int)] m' := by
  have hpush : T.step u m = .ok (m.next.pushed a) := by
    rw [h.step]
    change (Target.resolve u l).bind (fun n => T.push m.next n) = _
    rw [Target.resolve, hl]
    exact Target.push_of_room (m := m.next) ⟨h0, show m.hp < m.sp by omega, hle⟩ _
  obtain ⟨m', hrun, hip, hunload⟩ := run_heapStore (T := T) (m := m.next.pushed a) h.next h0
    (show m.hp + 2 ≤ m.sp - 1 by omega) (show m.sp - 1 < T.memory by omega)
  refine ⟨m', ?_, ?_, hunload.sp.trans (Int.sub_add_cancel ..), hunload.fp, hunload.ra, hunload.tm, hunload.out,
    hunload.hp, ?_, ?_⟩
  · change (T.step u m).bind (T.run u 6) = _
    rw [hpush]
    exact hrun
  · rw [hip]
    exact Nat.add_assoc m.ip 1 6
  · -- The only word that is stored is the address.
    intro i w hw
    cases i with
    | zero =>
      cases hw
      have htop : (m.next.pushed a).mem ((m.next.pushed a).sp + (0 : Nat)) = a :=
        (congrArg (m.next.pushed a).mem (Int.add_zero _)).trans (m.next.top_pushed a)
      exact (hunload.word 0 Nat.one_pos).trans htop
    | succ i => cases hw
  · intro b hb
    rw [hunload.rest (hb.imp id fun hb => show m.hp + 1 ≤ b by omega)
      (hb.imp (fun hb => show b + 1 < m.sp - 1 by omega) fun hb => show m.sp - 1 + 1 ≤ b by omega)]
    exact Machine.mem_pushed (m := m.next) (show b ≠ m.sp - 1 by omega) a

theorem Machine.Stores.refl (m : Machine) (ip : Nat) : m.Stores [] { m with ip } :=
  ⟨rfl, rfl, rfl, rfl, rfl, (Int.add_zero _).symm, nofun, fun _ => rfl⟩

/-- The addresses of labels are put on the heap one by one. -/
theorem CodeUnit.Holds.run_stores {ls : List Label} {addresses : List Nat}
    (hls : List.Forall₂ (fun l a => u.address? l = some a) ls addresses) :
    ∀ {m : Machine}, u.Holds m.ip (ls.flatMap fun l => .pushLabel l :: Code.heapStore) → 0 ≤ m.hp →
      m.hp + ls.length + 2 ≤ m.sp → m.sp ≤ T.memory →
      ∃ m', T.run u (7 * ls.length) m = .ok m' ∧ m'.ip = m.ip + 7 * ls.length ∧
        m.Stores (addresses.map Int.ofNat) m' := by
  induction hls with
  | nil => exact fun _ _ _ _ => ⟨_, rfl, rfl, .refl _ _⟩
  -- The second store needs the room that the first one has left.
  | @cons l a ls addresses hl _ ih =>
    intro m h h0 hroom hle
    rw [List.flatMap_cons] at h
    rw [List.length_cons] at hroom ⊢
    obtain ⟨m₁, hrun, hip, hstores⟩ := h.left.run_store (T := T) hl h0 (by omega) hle
    have hhp := hstores.hp
    have hsp := hstores.sp
    rw [List.length_singleton] at hhp
    obtain ⟨m₂, hrun₂, hip₂, hstores₂⟩ := ih (m := m₁) (by rw [hip]; exact h.right) (by omega) (by omega)
      (by omega)
    refine ⟨m₂, ?_, by omega, hstores.trans hstores₂⟩
    rw [Nat.mul_succ, Nat.add_comm, Target.run_add, hrun]
    exact hrun₂

/-- A dispatch table is put on the heap, slot by slot, and the address of its first word on the stack. -/
theorem CodeUnit.Holds.run_dispatchTable {ls : List Label} {addresses : List Nat}
    (h : u.Holds m.ip (Code.dispatchTable ls))
    (hls : List.Forall₂ (fun l a => u.address? l = some a) ls addresses) (h0 : 0 ≤ m.hp)
    (hroom : m.hp + ls.length + 3 ≤ m.sp) (hle : m.sp ≤ T.memory) :
    ∃ m', T.run u (Code.dispatchTable ls).length m = .ok m' ∧
      m'.ip = m.ip + (Code.dispatchTable ls).length ∧ (m.pushed m.hp).Stores (addresses.map Int.ofNat) m' := by
  have hlen : (Code.dispatchTable ls).length = 1 + 7 * ls.length := by
    simp [Code.dispatchTable, Code.heapStore, Code.heapBump, Nat.add_comm, Nat.mul_comm]
  have hload : T.run u 1 m = .ok (m.next.pushed m.hp) := by
    have hstep : T.step u m = .ok (m.next.pushed m.hp) := by
      rw [h.step]
      exact Target.push_of_room (m := m.next) ⟨h0, show m.hp < m.sp by omega, hle⟩ _
    simp only [Target.run, hstep, bind, Except.bind]
  obtain ⟨m', hrun, hip, hstores⟩ := run_stores (T := T) hls (m := m.next.pushed m.hp) h.next h0
    (show m.hp + ls.length + 2 ≤ m.sp - 1 by omega) (show m.sp - 1 ≤ T.memory by omega)
  refine ⟨m', ?_, ?_, ?_⟩
  · rw [hlen, Target.run_add, hload]
    exact hrun
  · rw [hip, hlen, ← Nat.add_assoc]
    rfl
  · exact ⟨hstores.sp, hstores.fp, hstores.ra, hstores.tm, hstores.out, hstores.hp, hstores.word, hstores.rest⟩

end ObjLet
