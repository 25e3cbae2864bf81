import ObjLet.Code.Sequence
import ObjLet.Proofs.Balance.Flow

/-!
# Heights in code sequences

The sequences that generated code is made of bring the stack from one height to another (`Code.Leads`). Code
of one flow is settled by computing; choices put labels, and the code between them may have labels of its own.
-/

namespace ObjLet

namespace Code

/-- Code that brings the stack from one height to another, both above a base that may be any height. Its
labels have heights above the base as well. -/
structure Leads (c : Code) (jumps : List Effect) (a b : Nat) : Prop where
  flows : ∃ heights : List (Label × Nat), heights.map Prod.fst = c.filterMap Instruction.placed? ∧
    ∀ (L : Label → Nat) (base : Nat), (∀ p ∈ heights, L p.1 = base + p.2) →
      Flows L (base + a) c jumps (base + b)
  passable : c.Passable

/-- Where no label is put twice, heights can be given to the labels once and for all. -/
theorem Leads.acts {c : Code} {jumps : List Effect} {a b : Nat} (h : c.Leads jumps a b)
    (hl : (c.filterMap Instruction.placed?).Nodup) : c.Acts jumps ⟨a, b⟩ := by
  obtain ⟨heights, hlabels, hflow⟩ := h.flows
  rw [← hlabels] at hl
  have hlookup : ∀ p ∈ heights, ((heights.lookup p.1).getD 0) = 0 + p.2 := by
    intro p hp
    have hsome : heights.lookup p.1 = some p.2 := by
      obtain ⟨before, after, hsplit⟩ := List.append_of_mem hp
      rw [List.lookup_eq_some_iff]
      refine ⟨before, after, hsplit, fun q hq => ?_⟩
      rw [hsplit, List.map_append, List.map_cons, List.nodup_append] at hl
      have hne := hl.2.2 q.1 (List.mem_map_of_mem hq) p.1 List.mem_cons_self
      simpa using Ne.symm hne
    rw [hsome, Option.getD_some, Nat.zero_add]
  have hall := hflow (fun l => (heights.lookup l).getD 0) 0 hlookup
  rw [Nat.zero_add, Nat.zero_add] at hall
  exact hall.acts h.passable

namespace Leads

variable {c c' : Code} {jumps jumps' : List Effect} {a b a' b' k : Nat}

theorem nil : Leads [] [] a a := ⟨⟨[], rfl, fun _ _ _ => .nil⟩, passable_nil⟩

/-- The pieces have different labels, each with its own heights, so both sets of heights can be used at once. -/
theorem append (h : c.Leads jumps a b) (h' : c'.Leads jumps' b k) :
    (c ++ c').Leads (jumps ++ jumps') a k := by
  obtain ⟨hs, hlabels, hflow⟩ := h.flows
  obtain ⟨hs', hlabels', hflow'⟩ := h'.flows
  refine ⟨⟨hs ++ hs', by rw [List.map_append, hlabels, hlabels', List.filterMap_append], ?_⟩,
    h.passable.append h'.passable⟩
  intro L base hL
  obtain ⟨hL, hL'⟩ := List.forall_mem_append.1 hL
  exact (hflow L base hL).append (hflow' L base hL')

/-- Code leaves alone what lies below. -/
theorem lift (h : c.Leads jumps a b) (n : Nat) : c.Leads jumps (n + a) (n + b) := by
  obtain ⟨hs, hlabels, hflow⟩ := h.flows
  refine ⟨⟨hs.map fun p => (p.1, n + p.2), by rw [← hlabels, List.map_map]; rfl, ?_⟩, h.passable⟩
  intro L base hL
  rw [← Nat.add_assoc, ← Nat.add_assoc]
  refine hflow L (base + n) fun p hp => ?_
  rw [Nat.add_assoc]
  exact hL _ (List.mem_map_of_mem hp)

/-- One piece of code behind another. -/
theorem seq (h : c.Leads jumps a b) (h' : c'.Leads jumps' a' b') (n : Nat) (hb : b = n + a')
    (hk : k = n + b') : (c ++ c').Leads (jumps ++ jumps') a k := by
  subst hb hk
  exact h.append (h'.lift n)

/-- The same where the second piece has no calls. -/
theorem seqPlain (h : c.Leads jumps a b) (h' : c'.Leads [] a' b') (n : Nat) (hb : b = n + a')
    (hk : k = n + b') : (c ++ c').Leads jumps a k := by
  have hall := h.seq h' n hb hk
  rwa [List.append_nil] at hall

end Leads

/-! ## Code of one flow -/

/-- The height behind code without labels, branches and jumps, if it is high enough in front. -/
def heightBehind? : Code → Nat → Option Nat
  | [], h => some h
  | ins :: c, h =>
    if ins.falls = true ∧ ins.branch? = none ∧ ins.placed? = none ∧ ins ≠ .jump ∧ ins.effect.pops ≤ h then
      heightBehind? c (h - ins.effect.pops + ins.effect.pushes)
    else none

namespace Leads

variable {c c' : Code} {jumps : List Effect} {a b k : Nat}

/-- Straight code needs no flow of heights: its height behind can be computed. -/
theorem of_heightBehind? : ∀ {c : Code} {a : Nat}, c.heightBehind? a = some b → c.Leads [] a b
  | [], a, h => by
    cases h
    exact .nil
  | ins :: c, a, h => by
    rw [heightBehind?] at h
    split at h
    case isFalse => cases h
    case isTrue hins =>
    obtain ⟨hf, hb, hl, hj, hp⟩ := hins
    have hrest := of_heightBehind? h
    have hfirst : Leads [ins] [] a (a - ins.effect.pops + ins.effect.pushes) := by
      refine ⟨⟨[], by simp [hl], fun L base _ => ?_⟩, passable_singleton ins hf⟩
      have heff : effect? [ins] [] 0 = some ins.effect := by rw [effect?_cons_zero, if_neg hj]
      have hend : base + a - ins.effect.pops + ins.effect.pushes =
          base + (a - ins.effect.pops + ins.effect.pushes) := by omega
      refine .next hf heff (by omega) (fun l h => by rw [hb] at h; cases h) (fun l h => ?_) ?_
      · subst h
        cases hl
      · rw [hend, List.drop_nil]
        exact .nil
    exact hfirst.append hrest

theorem behind (h : c.heightBehind? a = some b) (h' : c'.Leads jumps b k) :
    (c ++ c').Leads jumps a k :=
  (of_heightBehind? h).append h'

/-- The instruction that a call ends with. -/
theorem jump (e : Effect) : Leads [.jump] [e] e.pops e.pushes := by
  refine ⟨⟨[], rfl, fun L base _ => ?_⟩, passable_singleton _ rfl⟩
  refine .next (e := e) rfl rfl (Nat.le_add_left _ _) nofun nofun ?_
  rw [show base + e.pops - e.pops + e.pushes = base + e.pushes by omega]
  exact .nil

/-- Code that is repeated while the stack shrinks. -/
theorem replicate (h : c.Leads [] 1 0) (n : Nat) : Leads (List.replicate n c).flatten [] n 0 := by
  induction n with
  | zero => exact .nil
  | succ n ih => exact (h.lift n).append ih

/-- A frame is popped word by word. -/
theorem pops (n : Nat) : Leads (List.replicate n .pop) [] n 0 := by
  induction n with
  | zero => exact .nil
  | succ n ih => exact Leads.behind (c := [.pop]) (b := n) rfl ih

end Leads

/-! ## Values -/

/-- Following a link replaces an address by an address. -/
theorem leads_frame (hops : Nat) : Leads (frame hops) [] 0 1 := by
  refine Leads.behind (c := [.load .fp]) (b := 1) rfl ?_
  induction hops with
  | zero => exact .nil
  | succ hops ih => exact Leads.behind (c := [.loadWord]) (b := 1) rfl ih

theorem leads_loadAt (offset : Int) : Leads (loadAt offset) [] 1 1 := .of_heightBehind? rfl

/-- A value of two words is read in two goes. -/
theorem leads_loadValue (hops : Nat) (offset : Int) (ty : Ty) :
    Leads (loadValue hops offset ty.words) [] 0 ty.words := by
  have hword : ∀ offset, Leads (frame hops ++ loadAt offset) [] 0 1 := fun offset =>
    (leads_frame hops).append (leads_loadAt offset)
  cases ty with
  | arrow ps r => exact (hword offset).seq (hword (offset - 1)) 1 rfl rfl
  | _ =>
    have h := (hword offset).append .nil
    exact h

/-! ## Objects -/

/-- The words of the fields go to the heap and one address comes back. -/
theorem leads_newObject (fieldWords : Nat) (tableAddress : Int) :
    Leads (newObject fieldWords tableAddress) [] fieldWords 1 := by
  have hstores : Leads (List.replicate fieldWords heapStore).flatten [] fieldWords 0 :=
    .replicate (.of_heightBehind? rfl) fieldWords
  have haddress : Leads ([.push tableAddress, .loadWord, .load .hp, .storeWord, .load .hp] ++ heapBump) []
      0 1 := .of_heightBehind? rfl
  rw [newObject, List.append_assoc]
  exact hstores.append haddress

/-- The entries go to the heap as they are pushed, so only the address stays. -/
theorem leads_dispatchTable (entries : List Label) : Leads (dispatchTable entries) [] 0 1 := by
  refine Leads.behind (c := [.load .hp]) (b := 1) rfl ?_
  induction entries with
  | nil => exact .nil
  | cons entry entries ih =>
    exact Leads.behind (c := .pushLabel entry :: heapStore) (b := 1) rfl ih

/-! ## Calls -/

/-- The object is popped and pushed again as access link, and the code address is popped by the jump. The callee
takes the arguments with both links and leaves its result. -/
theorem leads_dispatchCall (slot : Int) (callee : Signature) :
    Leads (dispatchCall slot) [callee.callEffect] (callee.paramWords + 2) callee.ret.words := by
  have hcode : Leads ([.store .tm, .load .tm, .load .tm, .loadWord] ++ loadAt slot) [] 1 2 :=
    .of_heightBehind? rfl
  rw [dispatchCall]
  refine ((hcode.lift (callee.paramWords + 1)).seq (.jump callee.callEffect) 0 ?_ ?_)
  · simp only [Signature.callEffect]
    omega
  · simp [Signature.callEffect]

/-- Like a method call, with the frame of the function value as access link. -/
theorem leads_valueCall (offset : Int) (callee : Signature) :
    Leads (valueCall offset) [callee.callEffect] (callee.paramWords + 2) callee.ret.words := by
  have hcode : Leads ([.store .tm, .load .tm] ++ loadAt offset ++ [.load .tm] ++ loadAt (offset - 1)) [] 1 2 :=
    .of_heightBehind? rfl
  rw [valueCall]
  refine ((hcode.lift (callee.paramWords + 1)).seq (.jump callee.callEffect) 0 ?_ ?_)
  · simp only [Signature.callEffect]
    omega
  · simp [Signature.callEffect]

/-- The end of a function behind the moves of its result, which lies over the locals. -/
theorem leads_leave {move : Code} {frameWords localWords n : Nat} (ret : Ty)
    (hmove : Leads move [] ret.words 0) (hn : n + ret.words = frameWords) :
    Leads (move ++ List.replicate localWords .pop ++ [.store .ra] ++ List.replicate n .pop ++
      [.store .fp, .load .tm, .load .ra, .jump]) [Instruction.jump.effect]
      (frameWords + 1 + localWords + ret.words) ret.words := by
  have hpos := ret.words_pos
  have hlocals := (hmove.lift (frameWords + 1 + localWords)).seqPlain (.pops localWords)
    (frameWords + 1) rfl rfl
  have hra := hlocals.seqPlain (.of_heightBehind? (c := [.store .ra]) (a := 1) (b := 0) rfl)
    frameWords rfl rfl
  have hparams := hra.seqPlain (.pops n) ret.words (by omega) rfl
  have hregisters := hparams.seqPlain
    (.of_heightBehind? (c := [.store .fp, .load .tm, .load .ra]) (a := 1) (b := 2) rfl) (ret.words - 1)
    (by omega) rfl
  have hjump := hregisters.seq (.jump Instruction.jump.effect) ret.words
    (by simp only [Instruction.effect]; omega) rfl
  rwa [List.append_assoc] at hjump

/-- A function leaves nothing of its frame but the result. -/
theorem leads_epilogue (paramWords localWords : Nat) (ret : Ty) :
    Leads (epilogue paramWords localWords ret.isArrow) [Instruction.jump.effect]
      (paramWords + 2 + 1 + localWords + ret.words) ret.words := by
  cases ret with
  | arrow ps r => exact leads_leave (.arrow ps r) (.of_heightBehind? rfl) rfl
  | _ => exact leads_leave _ (.of_heightBehind? rfl) rfl

/-! ## Choices -/

/-- Two ways through code: `first`, or `second` at a label. Both end at one height, where they meet. -/
theorem leads_choice {first second : Code} {jumps jumps' : List Effect} {words : Nat}
    {branch : Instruction} (other endLabel : Label)
    (hbranch : branch = .branchEqual other ∨ branch = .branchLessEqual other)
    (h : first.Leads jumps 0 words) (h' : second.Leads jumps' 0 words) :
    Leads (branch :: first ++ [.branch endLabel, .place other] ++ second ++ [.place endLabel])
      (jumps ++ jumps') 2 words := by
  obtain ⟨hs, hlabels, hflow⟩ := h.flows
  obtain ⟨hs', hlabels', hflow'⟩ := h'.flows
  refine ⟨⟨hs ++ (other, 0) :: hs' ++ [(endLabel, words)], ?_, fun L base hL => ?_⟩, ?_⟩
  · obtain rfl | rfl := hbranch <;> simp [hlabels, hlabels', List.filterMap_cons, Instruction.placed?]
  · simp only [List.forall_mem_append, List.forall_mem_cons, Nat.add_zero] at hL
    obtain ⟨⟨hL, hother, hL'⟩, hend, -⟩ := hL
    have hsecond := (hflow' L base hL').append (.place hend .nil)
    have htail : Flows L (base + words)
        (.branch endLabel :: .place other :: (second ++ [.place endLabel])) jumps' (base + words) := by
      rw [List.append_nil] at hsecond
      exact .branch hend (.place hother hsecond)
    have hall := (hflow L base hL).append htail
    simp only [List.cons_append, List.append_assoc, List.nil_append]
    exact .branchIf hbranch hother hall
  · have hfirst : Passable (branch :: first) := by
      refine (passable_singleton branch ?_).append h.passable
      obtain rfl | rfl := hbranch <;> rfl
    have hall := hfirst.append (passable_skip endLabel (.place other :: second))
    simpa using hall

/-- Both ways through a selection leave one word. -/
theorem leads_select (equalLabel endLabel : Label) (different equal : Int) :
    Leads (select equalLabel endLabel different equal) [] 2 1 :=
  leads_choice _ _ (.inl rfl) (.of_heightBehind? (c := [.push different]) rfl)
    (.of_heightBehind? (c := [.push equal]) rfl)

theorem leads_lessEqual (trueLabel endLabel : Label) :
    Leads (Code.lessEqual trueLabel endLabel) [] 2 1 :=
  leads_choice _ _ (.inr rfl) (.of_heightBehind? (c := [.push 0]) rfl)
    (.of_heightBehind? (c := [.push 1]) rfl)

/-- Only one branch is executed, so they need not have the same effects inside, but they must leave the same
number of words. -/
theorem leads_cond {condition thenCode elseCode : Code} {jumps jumps' jumps'' : List Effect}
    {words : Nat} (thenLabel endLabel : Label) (h : condition.Leads jumps 0 1)
    (h' : elseCode.Leads jumps' 0 words) (h'' : thenCode.Leads jumps'' 0 words) :
    Leads (cond thenLabel endLabel condition thenCode elseCode) (jumps ++ (jumps' ++ jumps'')) 0 words := by
  have hchoice := leads_choice thenLabel endLabel (.inl rfl) h' h''
  have hall := (h.seqPlain (.of_heightBehind? (c := [.push 1]) (a := 0) (b := 1) rfl) 1 rfl rfl).append
    hchoice
  simpa [cond] using hall

/-- The right operand is evaluated only if the left one does not decide. -/
theorem leads_shortCircuit {left right : Code} {jumps jumps' : List Effect} (decided endLabel : Label)
    (decisive : Int) (h : left.Leads jumps 0 1) (h' : right.Leads jumps' 0 1) :
    Leads (shortCircuit decided endLabel decisive left right) (jumps ++ jumps') 0 1 := by
  obtain ⟨hs, hlabels, hflow⟩ := h.flows
  obtain ⟨hs', hlabels', hflow'⟩ := h'.flows
  refine ⟨⟨hs ++ hs' ++ [(decided, 0), (endLabel, 1)], ?_, fun L base hL => ?_⟩, ?_⟩
  · simp [shortCircuit, hlabels, hlabels', List.filterMap_cons, Instruction.placed?]
  · simp only [List.forall_mem_append, List.forall_mem_cons, Nat.add_zero] at hL
    obtain ⟨⟨hL, hL'⟩, hdecided, hend, -⟩ := hL
    have htail : Flows L (base + 1) [.push decisive, .branchEqual decided, .push (1 - decisive),
        .branch endLabel, .place decided, .push decisive, .place endLabel] [] (base + 1) :=
      .push (.branchIf (.inl rfl) hdecided
        (.push (.branch hend (.place hdecided (.push (.place hend .nil))))))
    have hright := (hflow' L base hL').append htail
    have hall := (hflow L base hL).append
      (.push (v := decisive) (.branchIf (.inl rfl) hdecided hright))
    simpa [shortCircuit] using hall
  · have htest : Passable [.push decisive, .branchEqual decided] :=
      (passable_singleton (.push decisive) rfl).append (passable_singleton _ rfl)
    have hall := ((((h.passable.append htest).append h'.passable).append htest).append
      (passable_singleton (.push (1 - decisive)) rfl)).append
      (passable_skip endLabel [.place decided, .push decisive])
    simpa [shortCircuit] using hall

end Code

end ObjLet
