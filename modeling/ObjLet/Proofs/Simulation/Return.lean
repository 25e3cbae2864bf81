import ObjLet.Code.Sequence
import ObjLet.Proofs.Machine.Stretch

/-!
# Returning from a function

The code at the end of a function (`Code.epilogue`) takes down the frame of the function, whatever the number of its
words, and goes on where the return address says, in the frame of the caller (`CodeUnit.Holds.run_epilogue`). The code
address of a function result travels in a register, as every result of one word does. Its frame word is put where
the control link was, and the control link one word below, which without parameters is the place of the access link.
-/

namespace ObjLet

variable {T : Target} {u : CodeUnit} {low : Int} {m : Machine}

namespace Code

section Frame

variable (h0 : 0 ≤ m.hp) (hle : m.sp ≤ T.memory) (hroom : m.hp + 2 ≤ m.sp) (hlow : low + 2 ≤ m.sp)
  {k a : Int} (ha : m.fp + k = a) (hfree : m.sp ≤ a) (hend : a < T.memory)
include h0 hle hroom hlow ha hfree hend

/-- The address of a word of the frame, from the base. -/
theorem takes_frameAddress : Takes T low [.load .fp, .push k, .arith .add] m (m.pushed a) := by
  subst ha
  exact .address h0 hle .fp (T.wrap_address (m.fp + k) (by omega) (by omega)) hroom hlow

/-- A word of the frame is pushed. -/
theorem takes_frameWord :
    Takes T low [.load .fp, .push k, .arith .add, .loadWord] m (m.pushed (m.mem a)) := by
  have haddress := takes_frameAddress h0 hle hroom hlow ha hfree hend
  exact haddress.append (.loadWord h0 hle (by omega) (by omega) ⟨by omega, hend⟩ (.inr hfree))

/-- The word on top of the stack is stored in the frame. -/
theorem takes_frameStore :
    Takes T low [.load .fp, .push k, .arith .add, .storeWord] m (m.popped.write a m.top) := by
  have haddress := takes_frameAddress h0 hle hroom hlow ha hfree hend
  exact haddress.append (.storeWord h0 (by omega) (by omega) (by omega) ⟨by omega, hend⟩)

end Frame

/-- The control link moves down by a word, and the word on top of the stack takes its place. -/
theorem takes_returnFrameWord (p : Nat) (h0 : 0 ≤ m.hp) (hroom : m.hp + 3 ≤ m.sp) (hlow : low + 3 ≤ m.sp)
    (hfp : m.sp < m.fp) (hend : m.fp + p + 1 < T.memory) :
    Takes T low (returnFrameWord p) m
      ((m.write (m.fp + p) (m.mem (m.fp + p + 1))).popped.write (m.fp + p + 1) m.top) := by
  have hload : Takes T low [.load .fp, .push ((p : Int) + 1), .arith .add, .loadWord] m
      (m.pushed (m.mem (m.fp + p + 1))) :=
    takes_frameWord h0 (by omega) (by omega) (by omega) (by omega) (by omega) hend
  have hdown : Takes T low [.load .fp, .push ((p : Int) + 1 - 1), .arith .add, .storeWord]
      (m.pushed (m.mem (m.fp + p + 1))) ((m.pushed (m.mem (m.fp + p + 1))).popped.write (m.fp + p)
        (m.pushed (m.mem (m.fp + p + 1))).top) :=
    takes_frameStore (m := m.pushed _) h0 (show m.sp - 1 ≤ T.memory by omega) (show m.hp + 2 ≤ m.sp - 1 by omega)
      (show low + 2 ≤ m.sp - 1 by omega) (show m.fp + _ = _ by omega) (show m.sp - 1 ≤ m.fp + p by omega)
      (by omega)
  rw [Machine.top_pushed] at hdown
  have hmoved := hdown.congr ((Machine.Agrees.popped_pushed (by omega) _).write _ _)
  have hword : Takes T low [.load .fp, .push ((p : Int) + 1), .arith .add, .storeWord]
      (m.write (m.fp + p) (m.mem (m.fp + p + 1))) ((m.write (m.fp + p) (m.mem (m.fp + p + 1))).popped.write
        (m.fp + p + 1) (m.write (m.fp + p) (m.mem (m.fp + p + 1))).top) :=
    takes_frameStore (m := m.write _ _) h0 (show m.sp ≤ T.memory by omega) (show m.hp + 2 ≤ m.sp by omega)
      (show low + 2 ≤ m.sp by omega) (show m.fp + _ = _ by omega) (show m.sp ≤ m.fp + p + 1 by omega) hend
  -- The frame word is not where the control link goes.
  have htop : (m.write (m.fp + p) (m.mem (m.fp + p + 1))).top = m.top := if_neg (show m.sp ≠ m.fp + p by omega)
  rw [htop] at hword
  exact (hload.append hmoved).append hword

/-- What is left to do once the result is out of the way. -/
def leave (l k : Nat) : Code :=
  List.replicate l .pop ++ [.store .ra] ++ List.replicate k .pop ++ [.store .fp, .load .tm, .load .ra]

/-- The end of a function with a result of one word: the control link is popped like a parameter. -/
theorem epilogue_word (p l : Nat) : epilogue p l false = [.store .tm] ++ leave l (p + 1) ++ [.jump] := by
  simp [epilogue, leave]

/-- The end of a function that returns a function: the frame word is put away first. -/
theorem epilogue_function (p l : Nat) :
    epilogue p l true = [.store .tm] ++ returnFrameWord p ++ leave l p ++ [.jump] := by
  simp [epilogue, leave]

end Code

namespace Machine

/-- The machine with all words popped up to the control link, which is `k` words above the return address. -/
def left (m : Machine) (l k : Nat) : Machine :=
  { m with sp := m.sp + l + 1 + k + 1, ra := m.mem (m.sp + l), fp := m.mem (m.sp + l + 1 + k) }

/-- The machine with the code address of a function result in `tm` and its frame word in place of the control link,
which is one word further down. -/
def handedOver (m : Machine) (p : Nat) : Machine :=
  { (m.write (m.fp + p) (m.mem (m.fp + p + 1))).write (m.fp + p + 1) (m.mem (m.sp + 1)) with
    sp := m.sp + 2, tm := m.top }

end Machine

/-- Only the words of the two links change. -/
theorem Machine.mem_handedOver {p : Nat} {b : Int} (hdown : b ≠ m.fp + p) (hlink : b ≠ m.fp + p + 1) :
    (m.handedOver p).mem b = m.mem b := (if_neg hlink).trans (if_neg hdown)

/-- The control link is one word further down. -/
theorem Machine.link_handedOver {p : Nat} : (m.handedOver p).mem (m.fp + p) = m.mem (m.fp + p + 1) :=
  (if_neg (by omega)).trans (if_pos rfl)

/-- A function result is put where the caller finds it. -/
theorem Code.takes_handOver (p : Nat) (h0 : 0 ≤ m.hp) (hroom : m.hp + 2 ≤ m.sp) (hfp : m.sp + 1 < m.fp)
    (hend : m.fp + p + 1 < T.memory) :
    Takes T (m.sp - 2) ([.store .tm] ++ returnFrameWord p) m (m.handedOver p) := by
  have haddress : Takes T (m.sp - 2) [.store .tm] m (m.popped.setRegister .tm m.top) :=
    .store .tm ⟨by omega, by omega⟩
  have hframe : Takes T (m.sp - 2) (returnFrameWord p) (m.popped.setRegister .tm m.top) _ :=
    takes_returnFrameWord (m := m.popped.setRegister .tm m.top) p h0 (show m.hp + 3 ≤ m.sp + 1 by omega)
      (show m.sp - 2 + 3 ≤ m.sp + 1 by omega) hfp hend
  exact (haddress.append hframe).congr ⟨Int.add_assoc m.sp 1 1, rfl, rfl, rfl, rfl, rfl, fun _ => rfl⟩

/-- The frame is popped, and the result and the return address are pushed. -/
theorem Code.takes_leave (l k : Nat) (h0 : 0 ≤ m.hp) (hroom : m.hp ≤ m.sp) (hend : m.sp + l + 1 + k < T.memory) :
    Takes T low (leave l k) m (((m.left l k).pushed m.tm).pushed (m.mem (m.sp + l))) := by
  -- The words that are popped lie above the control link, so the links are not touched.
  have hlocals : Takes T low (List.replicate l .pop) m (m.dropped l) := .pops l (by omega) (by omega)
  have hra : Takes T low [.store .ra] (m.dropped l) { m with sp := m.sp + l + 1, ra := m.mem (m.sp + l) } :=
    .store .ra ⟨show 0 ≤ m.sp + l by omega, show m.sp + l < T.memory by omega⟩
  have hparams : Takes T low (List.replicate k .pop) { m with sp := m.sp + l + 1, ra := m.mem (m.sp + l) }
      { m with sp := m.sp + l + 1 + k, ra := m.mem (m.sp + l) } :=
    .pops k (show 0 ≤ m.sp + l + 1 by omega) (show m.sp + l + 1 + k ≤ T.memory by omega)
  have hfp : Takes T low [.store .fp] { m with sp := m.sp + l + 1 + k, ra := m.mem (m.sp + l) } (m.left l k) :=
    .store .fp ⟨show 0 ≤ m.sp + l + 1 + k by omega, hend⟩
  have htm : Takes T low [.load .tm] (m.left l k) ((m.left l k).pushed m.tm) :=
    .load (m := m.left l k) ⟨h0, show m.hp < m.sp + l + 1 + k + 1 by omega,
      show m.sp + l + 1 + k + 1 ≤ T.memory by omega⟩ .tm
  have hback : Takes T low [.load .ra] ((m.left l k).pushed m.tm)
      (((m.left l k).pushed m.tm).pushed (m.mem (m.sp + l))) :=
    .load (m := (m.left l k).pushed m.tm) ⟨h0, show m.hp < m.sp + l + 1 + k + 1 - 1 by omega,
      show m.sp + l + 1 + k + 1 - 1 ≤ T.memory by omega⟩ .ra
  exact ((hlocals.append hra).append hparams).append (hfp.append (htm.append hback))

/-! ## The jump back -/

/-- Code that ends with a jump to the address it leaves on the stack. -/
theorem CodeUnit.Holds.run_jump {c : Code} {m₁ : Machine} {n : Nat} (h : u.Holds m.ip (c ++ [.jump]))
    (hc : c.Takes T low m (m₁.pushed n)) (hn : n < u.executed.length) (hr : T.InRange (m₁.sp - 1))
    (hlow : low < m₁.sp) :
    ∃ m', T.run u (c ++ [Instruction.jump]).length m = .ok m' ∧ m'.ip = n ∧
      { m₁ with ra := (m.ip + c.length + 1 : Nat) }.Agrees low m' := by
  obtain ⟨s, hrun, hip, hs⟩ := hc u m h.left (.refl _ _)
  have hsp : s.sp = m₁.sp - 1 := hs.sp
  have htop : s.next.top = n := hs.top.trans (m₁.top_pushed n)
  -- The return address has been loaded by the epilogue, so it is the word that is jumped to.
  have hjump : T.step u s = .ok { s.popped with ra := (s.ip + 1 : Nat), ip := n } := by
    rw [step (m := s) (hip ▸ h.right)]
    change (T.pop s.next).bind _ = _
    rw [Target.pop_of_inRange (m := s.next) (show T.InRange s.sp from hsp ▸ hr)]
    change ite (0 ≤ s.next.top ∧ s.next.top < u.executed.length) _ _ = _
    rw [htop, if_pos ⟨by omega, by omega⟩]
    rfl
  have hpopped : m₁.Agrees low s.popped := (Machine.Agrees.popped_pushed hlow n).trans hs.popped
  refine ⟨{ s.popped with ra := (s.ip + 1 : Nat), ip := n }, ?_, rfl, ?_⟩
  · rw [List.length_append, Target.run_add, hrun]
    change (T.step u s).bind (T.run u 0) = _
    rw [hjump]
    rfl
  · rw [hip]
    exact ⟨hpopped.sp, hpopped.fp, hpopped.hp, rfl, hpopped.tm, hpopped.out, hpopped.mem⟩

/-! ## Frames -/

/-- Words of a result. -/
def resultWords (returnsFunction : Bool) : Nat := if returnsFunction then 2 else 1

/-- Words that are pushed below a result while a frame is left. -/
def returnRoom (returnsFunction : Bool) : Nat := if returnsFunction then 2 else 0

/-- The machine is back in the frame of the caller, where the result has taken the place of all that was pushed for the
call. -/
structure Machine.Returns (m : Machine) (p : Nat) (returnsFunction : Bool) (m' : Machine) : Prop where
  fp : m'.fp = m.mem (m.fp + p + 1)
  sp : m'.sp = m.fp + p + 2 - resultWords returnsFunction
  hp : m'.hp = m.hp
  out : m'.out = m.out
  result : ∀ i < resultWords returnsFunction, m'.mem (m'.sp + i) = m.mem (m.sp + i)
  rest : ∀ {b : Int}, m.fp + p + 2 ≤ b ∨ b < m.sp - returnRoom returnsFunction → m'.mem b = m.mem b

namespace CodeUnit.Holds

section Leave

variable {c : Code} {m₁ : Machine} {l k ret : Nat} {link : Int}
  (h : u.Holds m.ip (c ++ Code.leave l k ++ [.jump])) (hc : c.Takes T low m m₁)
  (hra : m₁.mem (m₁.sp + l) = ret) (hret : ret < u.executed.length) (h0 : 0 ≤ m₁.hp) (hroom : m₁.hp ≤ m₁.sp)
  (hlow : low ≤ m₁.sp) (hlink : m₁.sp + l + 1 + k = link) (hend : link < T.memory)
include h hc hra hret h0 hroom hlow hlink hend

/-- A frame is left once the code before has put the result away. -/
theorem run_leave :
    ∃ m', T.run u (c ++ Code.leave l k ++ [Instruction.jump]).length m = .ok m' ∧ m'.ip = ret ∧
      m'.fp = m₁.mem link ∧ m'.sp = link ∧ m'.hp = m₁.hp ∧ m'.out = m₁.out ∧ m'.mem link = m₁.tm ∧
      ∀ b, b < low ∨ link < b → m'.mem b = m₁.mem b := by
  subst hlink
  have hleave : Code.Takes T low (Code.leave l k) m₁ (((m₁.left l k).pushed m₁.tm).pushed (m₁.mem (m₁.sp + l))) :=
    Code.takes_leave l k h0 hroom hend
  rw [hra] at hleave
  have hsp : ((m₁.left l k).pushed m₁.tm).sp = m₁.sp + l + 1 + k := Int.add_sub_cancel ..
  obtain ⟨m', hrun, hip, hlike⟩ := h.run_jump (hc.append hleave) hret ⟨by omega, by omega⟩ (by omega)
  refine ⟨m', hrun, hip, hlike.fp, hlike.sp.trans hsp, hlike.hp, hlike.out, ?_, fun b hb => ?_⟩
  · rw [hlike.mem (.inr (Int.le_of_eq hsp))]
    exact if_pos hsp.symm
  · rw [hlike.mem (hb.imp_right fun hb => le_of_eq_of_le hsp (Int.le_of_lt hb))]
    exact if_neg (fun heq => absurd (heq.trans hsp) (by omega))

end Leave

section Epilogue

variable {p l ret : Nat} (hra : m.mem (m.fp - 1) = ret) (hret : ret < u.executed.length) (h0 : 0 ≤ m.hp)
  (hend : m.fp + p + 1 < T.memory)
include hra hret h0 hend

theorem run_epilogue_word (h : u.Holds m.ip (Code.epilogue p l false)) (hframe : m.sp + 1 + l = m.fp - 1)
    (hroom : m.hp ≤ m.sp) :
    ∃ m', T.run u (Code.epilogue p l false).length m = .ok m' ∧ m'.ip = ret ∧ m.Returns p false m' := by
  rw [Code.epilogue_word] at h ⊢
  have hresult : Code.Takes T m.sp [.store .tm] m (m.popped.setRegister .tm m.top) :=
    .store .tm ⟨by omega, by omega⟩
  obtain ⟨m', hrun, hip, hfp, hsp, hhp, hout, htop, hrest⟩ :=
    h.run_leave hresult (show m.mem (m.sp + 1 + l) = ret by rw [hframe, hra]) hret h0
      (show m.hp ≤ m.sp + 1 by omega) (show m.sp ≤ m.sp + 1 by omega)
      (show m.sp + 1 + l + 1 + (p + 1 : Nat) = m.fp + p + 1 by omega) hend
  refine ⟨m', hrun, hip, hfp, ?_, hhp, hout, ?_, ?_⟩
  · change m'.sp = m.fp + p + 2 - (1 : Nat)
    omega
  · intro i (hi : i < 1)
    obtain rfl : i = 0 := by omega
    rw [hsp]
    exact (congrArg m'.mem (Int.add_zero _)).trans (htop.trans (congrArg m.mem (Int.add_zero _).symm))
  · intro b (hb : m.fp + p + 2 ≤ b ∨ b < m.sp - (0 : Nat))
    exact hrest b (by omega)

theorem run_epilogue_function (h : u.Holds m.ip (Code.epilogue p l true)) (hframe : m.sp + 2 + l = m.fp - 1)
    (hroom : m.hp + 2 ≤ m.sp) :
    ∃ m', T.run u (Code.epilogue p l true).length m = .ok m' ∧ m'.ip = ret ∧ m.Returns p true m' := by
  rw [Code.epilogue_function] at h ⊢
  have hresult := Code.takes_handOver (T := T) p h0 hroom (show m.sp + 1 < m.fp by omega) hend
  -- The return address lies below the frame base, where nothing has been handed over.
  have haddress : (m.handedOver p).mem (m.sp + 2 + l) = ret := by
    rw [Machine.mem_handedOver (by omega) (by omega), hframe, hra]
  obtain ⟨m', hrun, hip, hfp, hsp, hhp, hout, htop, hrest⟩ :=
    h.run_leave hresult haddress hret h0 (show m.hp ≤ m.sp + 2 by omega)
      (show m.sp - 2 ≤ m.sp + 2 by omega) (show m.sp + 2 + l + 1 + p = m.fp + p by omega) (by omega)
  refine ⟨m', hrun, hip, hfp.trans Machine.link_handedOver, ?_, hhp, hout, ?_, ?_⟩
  · change m'.sp = m.fp + p + 2 - (2 : Nat)
    omega
  · intro i (hi : i < 2)
    rw [hsp]
    obtain rfl | rfl : i = 0 ∨ i = 1 := by omega
    · exact (congrArg m'.mem (Int.add_zero _)).trans (htop.trans (congrArg m.mem (Int.add_zero _).symm))
    · exact (hrest _ (.inr (by omega))).trans (if_pos rfl)
  · intro b (hb : m.fp + p + 2 ≤ b ∨ b < m.sp - (2 : Nat))
    rw [hrest b (by omega), Machine.mem_handedOver (by omega) (by omega)]

end Epilogue

/-- A function returns: the machine goes on at the return address, in the frame of the caller and with the result on
the stack, and neither the heap nor the stack of the caller has changed. -/
theorem run_epilogue {p l ret : Nat} {returnsFunction : Bool}
    (h : u.Holds m.ip (Code.epilogue p l returnsFunction))
    (hframe : m.sp + resultWords returnsFunction + l = m.fp - 1) (hra : m.mem (m.fp - 1) = ret)
    (hret : ret < u.executed.length) (h0 : 0 ≤ m.hp) (hroom : m.hp + returnRoom returnsFunction ≤ m.sp)
    (hend : m.fp + p + 1 < T.memory) :
    ∃ m', T.run u (Code.epilogue p l returnsFunction).length m = .ok m' ∧ m'.ip = ret ∧
      m.Returns p returnsFunction m' := by
  cases returnsFunction with
  | false => exact run_epilogue_word hra hret h0 hend h hframe (Int.add_zero m.hp ▸ hroom)
  | true => exact run_epilogue_function hra hret h0 hend h hframe hroom

end CodeUnit.Holds

/-- The end of a function without parameters that has a local of one word and returns a function. -/
def CodeUnit.leaving : CodeUnit := ⟨Code.epilogue 0 1 true ++ [.halt]⟩

/-- In its frame at 90, with the frame word 96 and the code address 7 of the result. -/
def Machine.inFrame : Machine where
  ip := 0
  sp := 86
  fp := 90
  hp := 3
  ra := 0
  tm := 0
  mem b := if b = 86 then 7 else if b = 87 then 96 else if b = 89 then 19 else if b = 91 then 95 else 0
  out := []

/-- Both words of the result end up where the access link and the control link were. -/
theorem CodeUnit.Holds.run_epilogue_overlap :
    ∃ m', (Target.unbounded 100).run CodeUnit.leaving 19 Machine.inFrame = .ok m' ∧ m'.ip = 19 ∧ m'.fp = 95 ∧
      m'.sp = 90 ∧ m'.hp = 3 ∧ m'.mem 90 = 7 ∧ m'.mem 91 = 96 := by
  have h : CodeUnit.leaving.Holds Machine.inFrame.ip (Code.epilogue 0 1 true) := ⟨[], [.halt], rfl, rfl⟩
  obtain ⟨m', hrun, hip, hback⟩ := h.run_epilogue (T := Target.unbounded 100) (by decide)
    (show Machine.inFrame.mem 89 = (19 : Nat) by decide) (by decide) (by decide) (by decide) (by decide)
  have hsp : m'.sp = 90 := hback.sp
  have hcode := hback.result 0 (by decide)
  have hframe := hback.result 1 (by decide)
  rw [hsp] at hcode hframe
  exact ⟨m', hrun, hip, hback.fp, hsp, hback.hp, hcode, hframe⟩

end ObjLet
