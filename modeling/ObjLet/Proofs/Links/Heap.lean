import ObjLet.Proofs.Links.Passage
import ObjLet.Proofs.Machine.Stretch

/-!
# Growing the heap

A word is stored behind the heap before the heap pointer moves up (`Code.heapStore`). In between it is lost if the
stack comes down to it; a machine that is not blocked still has it (`Machine.Holds`). So words go to the heap one
by one (`Target.Goes.heapStores`), and with them dispatch tables (`Target.Goes.dispatchTable`) and objects
(`Target.Goes.newObject`).
-/

namespace ObjLet

open Code

variable {T : Target} {ls : Listing} {mark : Option Mark} {ip : Nat} {c : Snapshot} {code : Listing} {w : Int}
  {ws : List Int} {s : Machine}

/-- A machine is at an address with a snapshot, and a word is stored behind the heap. -/
structure Machine.Holds (T : Target) (w : Int) (s : Machine) (ip : Nat) (c : Snapshot) : Prop where
  at_ : s.At T ip c
  clear : s.hp < s.sp
  word : s.mem s.hp = w

/-- Only the last instruction of a sequence is marked, so a mark belongs to its last part. -/
theorem Code.ending_append (m : Mark) (a : Code) {b : Code} (hb : b ≠ []) :
    ending m (a ++ b) = plain a ++ ending m b := by
  induction a with
  | nil => rfl
  | cons i a ih =>
    obtain ⟨j, rest, hrest⟩ := List.exists_cons_of_ne_nil (List.append_ne_nil_of_right_ne_nil a hb)
    rw [List.cons_append, hrest, ending, ← hrest, ih, plain_cons, List.cons_append]

/-- Six instructions store a word, none of them a label. -/
theorem Code.size_heapStores (n : Nat) : (plain (List.replicate n heapStore).flatten).size = 6 * n := by
  induction n with
  | zero => rfl
  | succ n ih =>
    rw [List.replicate_succ, List.flatten_cons, plain_append, Listing.size_append, ih]
    change 6 + 6 * n = _
    omega

theorem Code.size_dispatchTable (labels : List Label) :
    (plain (dispatchTable labels)).size = 1 + 7 * labels.length := by
  rw [dispatchTable, plain_cons, Listing.size_executed rfl]
  congr 1
  induction labels with
  | nil => rfl
  | cons l labels ih =>
    rw [List.flatMap_cons, plain_append, Listing.size_append, ih, List.length_cons]
    change 7 + 7 * labels.length = _
    omega

namespace Target.Passes

/-- The word on top of the stack is stored at the end of the heap. -/
theorem store (c : Snapshot) (w : Int) (ws : List Int) (hs : ls.Sits ip (plain [.load .hp, .storeWord])) :
    T.Passes ls none (·.At T ip { c with stack := w :: ws })
      (Machine.Holds T w · (ip + 2) { c with stack := ws }) := by
  have hload : T.Goes ls none ip { c with stack := w :: ws } (ip + 1)
      { c with stack := c.heap.length :: w :: ws } :=
    .of_moves hs rfl (Moves.load (c := { c with stack := w :: ws }) .hp)
  refine Passes.trans hload (.of_exec (hs.next rfl) rfl (fun s hs => hs.ip) fun s hs => .inr ?_)
  obtain ⟨hp, hs₁⟩ := hs.next.pop
  obtain ⟨hp', hs₂⟩ := hs₁.pop
  have hsp := hs₂.sp
  have hhp := hs₂.hp
  have hroom := hs₁.room
  have hroom' : s.next.popped.hp ≤ s.next.popped.popped.sp - 1 := by
    change s.next.popped.hp ≤ s.next.popped.sp + 1 - 1
    omega
  have hhp' : s.next.popped.hp = c.heap.length := hs₁.hp
  simp only at hsp hhp
  -- There is room between heap and stack, so the address is one of the memory.
  have hr : T.InRange (c.heap.length : Int) := ⟨by omega, by omega⟩
  refine ⟨s.next.popped.popped.write c.heap.length w, ?_, ⟨hs₂.ip, hs₂.sp, hs₂.hp, hs₂.fp, hs₂.tm, hs₂.ra,
    hs₂.out, hs₂.room, ?_, ?_⟩, ?_, ?_⟩
  · rw [Target.exec, hp]
    change (T.pop s.next.popped).bind _ = _
    rw [hp']
    exact if_pos hr
  · intro j x hx
    refine (if_neg ?_).trans (hs₂.word hx)
    change s.next.popped.popped.sp + j ≠ c.heap.length
    omega
  · intro j x hx
    obtain ⟨hlt, -⟩ := List.getElem?_eq_some_iff.1 hx
    have hlt' : j < c.heap.length := hlt
    exact (if_neg (by omega)).trans (hs₂.heapWord hx)
  · change s.next.popped.popped.hp < s.next.popped.popped.sp
    omega
  · exact if_pos hhp

/-- What is pushed while a word is stored does not touch it. -/
theorem pushHeld {i : Instruction} {v : Int} (hs : ls.Sits ip (⟨i, none⟩ :: code)) (hi : i.isPlacement = false)
    (hx : ∀ s : Machine, s.At T (ip + 1) c → T.exec ls.unit s i = T.push s v) :
    T.Passes ls none (Machine.Holds T w · ip c) (Machine.Holds T w · (ip + 1) (c.push v)) := by
  refine .of_exec_clear hs hi (fun s hs => hs.at_.ip) fun s hs => ?_
  rw [hx s.next hs.at_.next]
  refine (hs.at_.next.push v).imp (fun h => ⟨_, h⟩) ?_
  rintro ⟨s', hpush, hat⟩
  refine ⟨s', hpush, fun hclear => ⟨hat, hclear, ?_⟩⟩
  unfold Target.push at hpush
  split at hpush
  · cases hpush
  split at hpush
  · cases hpush
    have hlt : s.hp < s.sp - 1 := hclear
    exact (if_neg (show s.hp ≠ s.sp - 1 by omega)).trans hs.word
  · cases hpush

/-- The heap pointer moves up behind a stored word. -/
theorem heapBump (hs : ls.Sits ip (plain [.load .hp, .push 1, .arith .add] ++ [⟨.store .hp, mark⟩])) :
    T.Passes ls mark (Machine.Holds T w · ip c) (·.At T (ip + 4) { c with heap := c.heap ++ [w] }) := by
  have hadd := (hs.next rfl).next rfl
  have hload : T.Passes ls none (Machine.Holds T w · ip c)
      (Machine.Holds T w · (ip + 1) (c.push c.heap.length)) :=
    pushHeld hs rfl fun s hat => by rw [Target.exec, Machine.register, hat.hp]
  have hpush : T.Passes ls none (Machine.Holds T w · (ip + 1) (c.push c.heap.length))
      (Machine.Holds T w · (ip + 1 + 1) ((c.push c.heap.length).push 1)) :=
    pushHeld (hs.next rfl) rfl fun _ _ => rfl
  -- The new heap pointer does not wrap around, since it is an address below the stack.
  have hsum : T.Passes ls none (Machine.Holds T w · (ip + 1 + 1) ((c.push c.heap.length).push 1))
      (Machine.Holds T w · (ip + 1 + 1 + 1) (c.push (c.heap.length + 1))) := by
    refine .of_exec hadd rfl (fun s hs => hs.at_.ip) fun s hs => .inr ?_
    obtain ⟨hp, hs₁⟩ := hs.at_.next.pop
    obtain ⟨hp', hs₂⟩ := hs₁.pop
    have hsp := hs₂.sp
    have hhp := hs₂.hp
    have hclear : s.hp < s.sp := hs.clear
    have hsp' : s.next.popped.popped.sp = s.sp + 1 + 1 := rfl
    have hhp' : s.next.popped.popped.hp = s.hp := rfl
    simp only [Snapshot.push] at hsp hhp
    have hroom : T.Room s.next.popped.popped := ⟨by omega, by omega, by omega⟩
    have hpush := Target.push_of_room hroom (c.heap.length + 1)
    have hwrap : T.wrap (c.heap.length + 1) = c.heap.length + 1 := T.wrap_address _ (by omega) (by omega)
    obtain h | ⟨s', h, hat⟩ := hs₂.push (c.heap.length + 1)
    · cases h.symm.trans hpush
    cases h.symm.trans hpush
    refine ⟨_, ?_, hat, ?_, ?_⟩
    · rw [Target.exec, hp]
      simp only [bind, Except.bind, hp', ArithOp.apply?, hwrap]
      exact hpush
    · change s.hp < s.sp + 1 + 1 - 1
      omega
    · exact (if_neg (show s.hp ≠ s.sp + 1 + 1 - 1 by omega)).trans hs.word
  refine ((hload.trans hpush).trans hsum).trans (.of_exec (hadd.next rfl) rfl (fun s hs => hs.at_.ip) fun s hs => ?_)
  obtain ⟨hp, hs₁⟩ := hs.at_.next.pop
  have hhp : s.hp = c.heap.length := hs.at_.hp
  have hclear : s.hp < s.sp := hs.clear
  refine .inr ⟨{ s.next.popped with hp := c.heap.length + 1 }, ?_, hs₁.ip, hs₁.sp, ?_, hs₁.fp, hs₁.tm, hs₁.ra,
    hs₁.out, ?_, hs₁.word, ?_⟩
  · rw [Target.exec, hp]
    rfl
  · rw [List.length_append, List.length_singleton, Int.natCast_add]
    rfl
  · change (c.heap.length : Int) + 1 ≤ s.sp + 1
    omega
  · intro i x hx
    -- The heap is one word longer; the word was stored there before the pointer was moved.
    rcases Nat.lt_or_ge i c.heap.length with hlt | hge
    · rw [List.getElem?_append_left hlt] at hx
      exact hs₁.heapWord hx
    · have hword : s.mem s.hp = w := hs.word
      rw [List.getElem?_append_right hge, List.getElem?_singleton] at hx
      split at hx
      · cases hx
        rw [show (i : Int) = s.hp by omega]
        exact hword
      · cases hx

end Target.Passes

namespace Target.Goes

/-- A word goes from the stack to the heap. -/
theorem heapStore (c : Snapshot) (w : Int) (ws : List Int) (hs : ls.Sits ip (plain Code.heapStore)) :
    T.Goes ls none ip { c with stack := w :: ws } (ip + 6) { c with stack := ws, heap := c.heap ++ [w] } := by
  have hstore : ls.Sits ip (plain [.load .hp, .storeWord] ++ plain Code.heapBump) := hs
  have hend : T.Passes ls none (Machine.Holds T w · (ip + 2) { c with stack := ws })
      (·.At T (ip + 6) { c with stack := ws, heap := c.heap ++ [w] }) := Passes.heapBump hstore.right
  exact (Passes.store c w ws hstore.left).trans hend

/-- Words go from the stack to the heap one by one, the top one first, so they come to lie in reverse. -/
theorem heapStores (ws vs : List Int) :
    ∀ {ip : Nat} {c : Snapshot}, ls.Sits ip (plain (List.replicate vs.length Code.heapStore).flatten) →
      T.Goes ls none ip { c with stack := vs ++ ws } (ip + 6 * vs.length)
        { c with stack := ws, heap := c.heap ++ vs } := by
  induction vs with
  | nil =>
    intro ip c _
    rw [List.append_nil]
    exact .refl ip _
  | cons v vs ih =>
    intro ip c hs
    rw [List.length_cons, List.replicate_succ, List.flatten_cons, plain_append] at hs
    have hfirst := heapStore (T := T) c v (vs ++ ws) hs.left
    have hrest := ih (c := { c with heap := c.heap ++ [v] }) hs.right
    have hsize : Listing.size (plain Code.heapStore) = 6 := rfl
    rw [hsize] at hrest
    have hheap : c.heap ++ v :: vs = (c.heap ++ [v]) ++ vs := by simp
    rw [List.length_cons, show ip + 6 * (vs.length + 1) = ip + 6 + 6 * vs.length by omega, hheap]
    exact hfirst.trans hrest

/-- A dispatch table goes to the heap, and its address to the stack. -/
theorem dispatchTable {labels : List Label} {addresses : List Nat}
    (hls : List.Forall₂ (fun l a => ls.unit.address? l = some a) labels addresses)
    (hs : ls.Sits ip (plain (Code.dispatchTable labels))) :
    T.Goes ls none ip c (ip + (plain (Code.dispatchTable labels)).size)
      { c with stack := c.heap.length :: c.stack, heap := c.heap ++ addresses.map Int.ofNat } := by
  have hentries : ∀ {ip : Nat} {c : Snapshot},
      ls.Sits ip (plain (labels.flatMap fun l => .pushLabel l :: Code.heapStore)) →
      T.Goes ls none ip c (ip + 7 * labels.length) { c with heap := c.heap ++ addresses.map Int.ofNat } := by
    clear hs
    induction hls with
    | nil =>
      intro ip c _
      rw [List.map_nil, List.append_nil]
      exact .refl ip _
    | @cons l a labels addresses hl _ ih =>
      intro ip c hs
      rw [List.flatMap_cons, plain_append] at hs
      have hpush : T.Goes ls none ip c (ip + 1) (c.push a) := .of_moves hs.left rfl (Moves.pushLabel hl)
      have hstore := heapStore (T := T) c a c.stack (hs.left.next rfl)
      have hrest := ih (c := { c with heap := c.heap ++ [(a : Int)] }) hs.right
      have hsize : Listing.size (plain (.pushLabel l :: Code.heapStore)) = 7 := rfl
      rw [hsize] at hrest
      have hheap : c.heap ++ (a :: addresses).map Int.ofNat = c.heap ++ [(a : Int)] ++ addresses.map Int.ofNat := by
        simp
      rw [List.length_cons, show ip + 7 * (labels.length + 1) = ip + 7 + 7 * labels.length by omega, hheap]
      exact (hpush.trans hstore).trans hrest
  have hload : T.Goes ls none ip c (ip + 1) (c.push c.heap.length) := .of_moves hs rfl (Moves.load .hp)
  rw [size_dispatchTable, ← Nat.add_assoc]
  exact hload.trans (hentries (c := c.push c.heap.length) (hs.next rfl))

/-- An object is built from words on the stack and the word at `a`, the address of its dispatch table. -/
theorem newObject {vs : List Int} {a d : Int} {site : NodeId} (ha : T.StackCell ws a d)
    (hs : ls.Sits ip (ending (.created site) (Code.newObject vs.length a))) :
    T.Goes ls (some (.created site)) ip { c with stack := vs ++ ws }
      (ip + (ending (.created site) (Code.newObject vs.length a)).size)
      { c with stack := ((c.heap.length + vs.length : Nat) : Int) :: ws, heap := c.heap ++ (vs ++ [d]) } := by
  let c₁ : Snapshot := { c with stack := ws, heap := c.heap ++ vs }
  let tail : Code := [.push a, .loadWord, .load .hp, .storeWord, .load .hp] ++ Code.heapBump
  have hcode : ending (.created site) (Code.newObject vs.length a) =
      plain (List.replicate vs.length Code.heapStore).flatten ++ ending (.created site) tail := by
    have hne : tail ≠ [] := List.cons_ne_nil _ _
    rw [Code.newObject, List.append_assoc, ending_append _ _ hne]
  rw [hcode] at hs ⊢
  have hfields := heapStores (T := T) (c := c) ws vs hs.left
  have htable : ls.Sits _ (plain [.push a, .loadWord] ++ (plain [.load .hp, .storeWord] ++
    (⟨.load .hp, none⟩ :: (plain [.load .hp, .push 1, .arith .add] ++
      [⟨.store .hp, some (.created site)⟩])))) := hs.right
  rw [size_heapStores] at htable
  have hread : Straight T ls.unit [.push a, .loadWord] c₁ (c₁.push d) :=
    .cons rfl (Moves.push a) (.single rfl (Moves.loadWord (c := c₁) (.inl ha)))
  have hstore := Passes.store (T := T) c₁ d ws htable.right.left
  have haddress := Passes.pushHeld (T := T) (c := c₁) (w := d) (v := c₁.heap.length) htable.right.right rfl
    fun s hat => by rw [Target.exec, Machine.register, hat.hp]
  have hbump := Passes.heapBump (T := T) (c := c₁.push c₁.heap.length) (w := d) (htable.right.right.next rfl)
  have hheap : c.heap ++ (vs ++ [d]) = c₁.heap ++ [d] := (List.append_assoc ..).symm
  have hlen : ((c.heap.length + vs.length : Nat) : Int) = c₁.heap.length :=
    congrArg Int.ofNat List.length_append.symm
  rw [Listing.size_append, size_heapStores, hheap, hlen]
  exact hfields.trans ((hread.goes htable.left).trans ((hstore.trans haddress).trans hbump))

end Target.Goes

end ObjLet
