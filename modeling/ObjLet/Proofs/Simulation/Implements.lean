import ObjLet.Proofs.Simulation.Represent

/-!
# Code that implements an evaluation

`Image.Implements` says that the machine, from an address and a snapshot, does what an evaluation does: where
the evaluation has a value, the machine comes to another address with a snapshot that goes with the value, and
has printed the words of what was printed. It has one rule for each way in which evaluations are put together.

The second part follows the sequences of which generated code is made.
-/

namespace ObjLet

namespace Eval

variable {α β : Type}

theorem bind_eq_value {x : Eval α} {f : α → Eval β} {h h' : History} {b : β} {es : List Event}
    (heq : (x >>= f) h = (.value b, h', es)) :
    ∃ a mid es₁ es₂, x h = (.value a, mid, es₁) ∧ f a mid = (.value b, h', es₂) := by
  change andThen x f h = _ at heq
  unfold andThen at heq
  split at heq
  · next a mid es₁ hx =>
    cases hf : f a mid with
    | mk o rest =>
      obtain ⟨h'', es₂⟩ := rest
      rw [hf] at heq
      cases heq
      exact ⟨a, mid, es₁, es₂, hx, hf⟩
  all_goals cases heq

end Eval

namespace Image

variable {I : Image}

/-- The cells that a stack fills. -/
def cells (I : Image) (c : Snapshot) : Int → Int → Prop := I.target.StackCell c.stack

/-- The machine does what an evaluation does, and its last snapshot goes with the value. -/
def Implements {α : Type} (I : Image) (ip : Nat) (c : Snapshot) (x : Eval α) (ip' : Nat)
    (Q : α → Snapshot → Prop) : Prop :=
  ∀ (h h' : History) (a : α) (es : List Event),
    List.Forall₂ (Value.ShownAs I.listing) h.output c.out → x h = (.value a, h', es) →
    ∃ c', I.target.Leads I.listing ip c ip' c' ∧
      List.Forall₂ (Value.ShownAs I.listing) h'.output c'.out ∧ Q a c'

namespace Implements

variable {α β : Type} {ip ip₁ ip' : Nat} {c c₁ : Snapshot} {x : Eval α} {f : α → Eval β}
  {P : α → Snapshot → Prop} {Q : β → Snapshot → Prop}

/-- Without a step, what holds of the snapshot holds at the end. -/
theorem pure {a : α} (h : P a c) : I.Implements ip c (Pure.pure a) ip P := by
  intro h₀ h' b es hout heq
  cases heq
  exact ⟨c, .refl ip c, hout, h⟩

/-- One after the other: the machine goes on where the first part has led it. -/
theorem bind (hx : I.Implements ip c x ip₁ P) (hf : ∀ a c₁, P a c₁ → I.Implements ip₁ c₁ (f a) ip' Q) :
    I.Implements ip c (x >>= f) ip' Q := by
  intro h h' b es hout heq
  obtain ⟨a, mid, es₁, es₂, hxa, hfb⟩ := Eval.bind_eq_value heq
  obtain ⟨c₁, hl₁, hout₁, hp⟩ := hx h mid a es₁ hout hxa
  obtain ⟨c₂, hl₂, hout₂, hq⟩ := hf a c₁ hp mid h' b es₂ hout₁ hfb
  exact ⟨c₂, hl₁.trans hl₂, hout₂, hq⟩

/-- The machine goes first where nothing is evaluated. -/
theorem lead (hl : I.target.Leads I.listing ip c ip₁ c₁) (hout : c₁.out = c.out)
    (hx : I.Implements ip₁ c₁ x ip' P) : I.Implements ip c x ip' P := by
  intro h h' a es ho heq
  rw [← hout] at ho
  obtain ⟨c₂, hl₂, hout₂, hp⟩ := hx h h' a es ho heq
  exact ⟨c₂, hl.trans hl₂, hout₂, hp⟩

/-- The machine goes on when all is evaluated. -/
theorem follow {R : α → Snapshot → Prop} (hx : I.Implements ip c x ip₁ P)
    (h : ∀ a c₁, P a c₁ → ∃ c₂, I.target.Leads I.listing ip₁ c₁ ip' c₂ ∧ c₂.out = c₁.out ∧ R a c₂) :
    I.Implements ip c x ip' R := by
  intro h₀ h' a es ho heq
  obtain ⟨c₁, hl₁, hout₁, hp⟩ := hx h₀ h' a es ho heq
  obtain ⟨c₂, hl₂, hout₂, hr⟩ := h a c₁ hp
  refine ⟨c₂, hl₁.trans hl₂, ?_, hr⟩
  rwa [hout₂]

/-- Less may be said of the last snapshot. -/
theorem mono {R : α → Snapshot → Prop} (hx : I.Implements ip c x ip' P)
    (h : ∀ a c', P a c' → R a c') : I.Implements ip c x ip' R :=
  hx.follow fun a c₁ hp => ⟨c₁, .refl _ _, rfl, h a c₁ hp⟩

/-- What is known of the values of an evaluation holds of those that are computed. -/
theorem and_sound {R : α → Prop} (hx : I.Implements ip c x ip' P) (hs : Eval.Sound x R) :
    I.Implements ip c x ip' fun a c' => R a ∧ P a c' := by
  intro h h' a es ho heq
  obtain ⟨c', hl, hout, hp⟩ := hx h h' a es ho heq
  refine ⟨c', hl, hout, ?_, hp⟩
  have hr := hs h
  rw [heq] at hr
  exact hr

/-- An evaluation that ends without a value promises nothing about the machine. -/
theorem done {o : Outcome α} (ho : ∀ a, o ≠ .value a) : I.Implements ip c (Eval.done o) ip' P := by
  intro h h' a es _ heq
  cases heq
  exact absurd rfl (ho a)

/-- Nothing is to be shown where evaluation does not come to a value. -/
theorem fails (hf : ∀ a h b rest, f a h ≠ (.value b, rest)) : I.Implements ip c (x >>= f) ip' Q := by
  intro h h' b es _ heq
  obtain ⟨a, mid, -, es₂, -, hfb⟩ := Eval.bind_eq_value heq
  exact absurd hfb (hf a mid b (h', es₂))

/-- The value that is there is passed on. -/
theorem orStuck {a? : Option α} (h : ∀ a, a? = some a → P a c) :
    I.Implements ip c (Eval.orStuck a?) ip P := by
  cases a? with
  | some a => exact .pure (h a rfl)
  | none => exact .done nofun

/-- What leaves the output as it is can be passed over. -/
theorem skip (hx : ∀ h, ∃ (a : α) (h' : History) (es : List Event), x h = (.value a, h', es) ∧
    h'.output = h.output) (hf : ∀ a, I.Implements ip c (f a) ip' Q) : I.Implements ip c (x >>= f) ip' Q := by
  have hstay : I.Implements ip c x ip fun _ c' => c' = c := by
    intro h h' a es ho heq
    obtain ⟨a', mid, es', hx, hout⟩ := hx h
    cases hx.symm.trans heq
    exact ⟨c, .refl ip c, by rwa [hout], rfl⟩
  exact hstay.bind fun a c₁ hc => hc ▸ hf a

/-- What is only recorded of a use is no step of the machine. -/
theorem reach {site : NodeId} {env : List Frame} {i : Nat} {v : Value} {f : Unit → Eval β}
    (hf : I.Implements ip c (f ()) ip' Q) : I.Implements ip c (Eval.reach site env i v >>= f) ip' Q := by
  unfold Eval.reach
  split
  · exact skip (fun h => ⟨_, _, _, rfl, rfl⟩) fun _ => hf
  · have hstuck : I.Implements ip c (Eval.done .stuck) ip fun (_ : Unit) c' => c' = c := done nofun
    exact hstuck.bind fun _ _ hc => hc ▸ hf

theorem useClosure {site : NodeId} {env : List Frame} {f : Unit → Eval β}
    (hf : I.Implements ip c (f ()) ip' Q) : I.Implements ip c (Eval.useClosure site env >>= f) ip' Q := by
  refine skip (fun h => ?_) fun _ => hf
  unfold Eval.useClosure
  split
  · split <;> exact ⟨_, _, _, rfl, rfl⟩
  · exact ⟨_, _, _, rfl, rfl⟩

/-- The word on top of the stack shows the value that is printed. -/
theorem print {v : Value} {w : Int} {ws : List Int} {m : Option Mark} {code : Listing} {f : Unit → Eval β}
    (hs : I.listing.Sits ip (⟨.print, m⟩ :: code)) (hw : v.ShownAs I.listing w)
    (hf : I.Implements (ip + 1) { c with stack := w :: ws, out := c.out ++ [w] } (f ()) ip' Q) :
    I.Implements ip { c with stack := w :: ws } (Eval.print v >>= f) ip' Q := by
  refine bind (P := fun _ c' => c' = { c with stack := w :: ws, out := c.out ++ [w] }) ?_
    fun _ _ hc => hc ▸ hf
  intro h h' _ es hout heq
  cases heq
  exact ⟨_, .of_moves hs rfl Moves.print, List.rel_append hout (.cons hw .nil), rfl⟩

/-- Code without branches runs first. -/
theorem straight {code : Listing} {is : Code} (h : Straight I.target I.listing.unit is c c₁)
    (hcode : code.map (·.instruction) = is) (hs : I.listing.Sits ip code) (hout : c₁.out = c.out)
    (hx : I.Implements (ip + code.size) c₁ x ip' P) : I.Implements ip c x ip' P :=
  lead (h.leads hcode hs) hout hx

end Implements

end Image

/-! ## Sequences -/

/-- What a function without function result does last, up to the jump. -/
def Code.leaveFrame (paramWords localWords : Nat) : Code :=
  .store .tm :: List.replicate localWords .pop ++ [.store .ra] ++ List.replicate (paramWords + 1) .pop ++
    [.store .fp, .load .tm, .load .ra]

theorem Code.epilogue_eq (paramWords localWords : Nat) :
    epilogue paramWords localWords false = leaveFrame paramWords localWords ++ [.jump] := by
  simp [epilogue, leaveFrame]

theorem Snapshot.Cell.push {T : Target} {c : Snapshot} {ws : List Int} {a x : Int}
    (h : Snapshot.Cell T { c with stack := ws } a x) (w : Int) : Snapshot.Cell T { c with stack := w :: ws } a x :=
  h.imp_left (·.push w)

/-- An address in memory is computed without overflow. -/
theorem Moves.address {T : Target} {u : CodeUnit} {c : Snapshot} {a b x : Int} {ws : List Int}
    (hc : Snapshot.Cell T { c with stack := ws } (a + b) x) :
    Moves T u (.arith .add) { c with stack := b :: a :: ws } { c with stack := (a + b) :: ws } := by
  intro s ip h
  obtain ⟨-, hlo, hhi⟩ := h.cell ((hc.push a).push b)
  exact Moves.arith (by rw [ ArithOp.apply?, T.wrap_address _ hlo (Int.le_of_lt hhi)]) h

namespace Straight

variable {T : Target} {u : CodeUnit} {c : Snapshot} {ws : List Int} {a b x : Int}

/-- As many loads as there are links lead to the frame at their end. -/
theorem links {n : Nat} (h : Image.Linked (T.StackCell ws) n a b) :
    Straight T u (List.replicate n .loadWord) { c with stack := a :: ws } { c with stack := b :: ws } := by
  induction h with
  | zero => exact .nil
  | succ hc _ ih => exact .cons rfl (Moves.loadWord (.inl hc)) ih

/-- The base of a frame outside, from the base of the innermost one. -/
theorem frame {n : Nat} (h : Image.Linked (T.StackCell c.stack) n c.fp b) :
    Straight T u (Code.frame n) c (c.push b) :=
  .cons rfl (Moves.load .fp) (links (c := c) h)

theorem loadAt {offset : Int} (h : Snapshot.Cell T { c with stack := ws } (a + offset) x) :
    Straight T u (Code.loadAt offset) { c with stack := a :: ws } { c with stack := x :: ws } :=
  .cons rfl (Moves.push offset) (.cons rfl (Moves.address h) (.cons rfl (Moves.loadWord h) .nil))

/-- A word or the two words of a function value are pushed. -/
theorem loadValue {n : Nat} {offset : Int} {vs : List Int} (hn : vs.length = 1 ∨ vs.length = 2)
    (h : Image.Linked (T.StackCell c.stack) n c.fp b)
    (hw : WordsAt (c.Cell T) (b + offset + 1 - vs.length) vs) :
    Straight T u (Code.loadValue n offset vs.length) c { c with stack := vs ++ c.stack } := by
  match vs, hn with
  | [x], _ =>
    have hx := hw 0 x rfl
    rw [show b + offset + 1 - ([x].length : Nat) + (0 : Nat) = b + offset by simp] at hx
    exact ((frame h).append (loadAt (c := c) hx)).append .nil
  | [x, y], _ =>
    have hx := hw 0 x rfl
    have hy := hw 1 y rfl
    rw [show b + offset + 1 - ([x, y].length : Nat) + (0 : Nat) = b + (offset - 1) by simp; omega] at hx
    rw [show b + offset + 1 - ([x, y].length : Nat) + (1 : Nat) = b + offset by simp; omega] at hy
    have hagain : Image.Linked (T.StackCell (c.push y).stack) n (c.push y).fp b :=
      h.mono fun _ _ hc => hc.push y
    exact ((frame h).append (loadAt (c := c) hy)).append
      ((frame hagain).append (loadAt (c := c) (hx.push y)))

/-- With a frame on the stack, the two words of a function value in it are pushed, the frame first. -/
theorem callee {offset link : Int}
    (hw : WordsAt (Snapshot.Cell T { c with stack := ws }) (b + offset - 1) [a, link]) :
    Straight T u ([.store .tm, .load .tm] ++ Code.loadAt offset ++ [.load .tm] ++ Code.loadAt (offset - 1))
      { c with stack := b :: ws } { c with stack := a :: link :: ws, tm := b } := by
  have ha := hw 0 a rfl
  have hlink := hw 1 link rfl
  rw [show b + offset - 1 + (0 : Nat) = b + (offset - 1) by omega] at ha
  rw [show b + offset - 1 + (1 : Nat) = b + offset by omega] at hlink
  have hframe : Straight T u [.store .tm, .load .tm] { c with stack := b :: ws }
      { c with stack := b :: ws, tm := b } :=
    .cons rfl Moves.storeTm (.single rfl (Moves.load (c := { c with stack := ws, tm := b }) .tm))
  have hagain : Straight T u [.load .tm] { c with stack := link :: ws, tm := b }
      { c with stack := b :: link :: ws, tm := b } :=
    .single rfl (Moves.load (c := { c with stack := link :: ws, tm := b }) .tm)
  exact ((hframe.append (loadAt (c := { c with tm := b }) hlink)).append hagain).append
    (loadAt (c := { c with tm := b }) (ha.push link))

/-- A function leaves its frame with its result on the stack, and the return address above it. -/
theorem leaveFrame (c : Snapshot) (w ra link ctl : Int) (locals args ws : List Int) :
    Straight T u (Code.leaveFrame args.length locals.length)
      { c with stack := w :: (locals ++ ra :: link :: (args ++ ctl :: ws)) }
      { c with stack := ra :: w :: ws, fp := ctl, tm := w, ra := ra } := by
  have hlocals : Straight T u (.store .tm :: List.replicate locals.length .pop)
      { c with stack := w :: (locals ++ ra :: link :: (args ++ ctl :: ws)) }
      { c with stack := ra :: link :: (args ++ ctl :: ws), tm := w } :=
    .cons rfl Moves.storeTm (pops (c := { c with tm := w }) locals)
  have hra : Straight T u [.store .ra] { c with stack := ra :: link :: (args ++ ctl :: ws), tm := w }
      { c with stack := link :: (args ++ ctl :: ws), tm := w, ra := ra } :=
    .single rfl (Moves.storeRa (c := { c with tm := w }))
  have hargs : Straight T u (List.replicate (args.length + 1) .pop)
      { c with stack := link :: (args ++ ctl :: ws), tm := w, ra := ra }
      { c with stack := ctl :: ws, tm := w, ra := ra } :=
    pops (c := { c with tm := w, ra := ra }) (link :: args)
  have hend : Straight T u [.store .fp, .load .tm, .load .ra] { c with stack := ctl :: ws, tm := w, ra := ra }
      { c with stack := ra :: w :: ws, fp := ctl, tm := w, ra := ra } :=
    .cons rfl (Moves.storeFp (c := { c with tm := w, ra := ra })) (.cons rfl
      (Moves.load (c := { c with stack := ws, fp := ctl, tm := w, ra := ra }) .tm) (.single rfl
      (Moves.load (c := { c with stack := w :: ws, fp := ctl, tm := w, ra := ra }) .ra)))
  exact ((hlocals.append hra).append hargs).append hend

end Straight

/-! ## Choices -/

namespace Target.Leads

variable {T : Target} {ls : Listing} {ip : Nat} {c : Snapshot}

/-- Behind an instruction that branches to `l` on a condition, one of two words is pushed. -/
theorem choice {i : Instruction} {l l' : Label} {no yes : Int} {p : Prop} [Decidable p] (c₁ : Snapshot)
    (hl : ls.unit.labels.Nodup)
    (hs : ls.Sits ip (Code.plain [i, .push no, .branch l', .place l, .push yes, .place l']))
    (hi : i.isPlacement = false)
    (hbranch : ∀ n, ls.unit.address? l = some n → T.Leads ls ip c (if p then n else ip + 1) c₁) :
    T.Leads ls ip c (ip + 4) (c₁.push (if p then yes else no)) := by
  have hno := hs.next hi
  have hend := hno.next rfl
  have hyes := hend.next rfl
  have hafter := (hyes.skip rfl).next rfl
  have hfirst := hbranch _ (hyes.address hl)
  by_cases hp : p
  · rw [if_pos hp] at hfirst ⊢
    exact hfirst.trans (.of_moves (hyes.skip rfl) rfl (Moves.push yes))
  · rw [if_neg hp] at hfirst ⊢
    exact (hfirst.trans (.of_moves hno rfl (Moves.push no))).trans (.branch hend (hafter.address hl))

/-- One of two constants is chosen by comparing two words. -/
theorem select {l l' : Label} {no yes a b : Int} {ws : List Int} (hl : ls.unit.labels.Nodup)
    (hs : ls.Sits ip (Code.plain (Code.select l l' no yes))) :
    T.Leads ls ip { c with stack := b :: a :: ws } (ip + 4)
      { c with stack := (if a = b then yes else no) :: ws } :=
  choice { c with stack := ws } hl hs rfl fun _ hn => .branchEqual hs hn

theorem lessEqual {l l' : Label} {a b : Int} {ws : List Int} (hl : ls.unit.labels.Nodup)
    (hs : ls.Sits ip (Code.plain (Code.lessEqual l l'))) :
    T.Leads ls ip { c with stack := b :: a :: ws } (ip + 4)
      { c with stack := (if a ≤ b then 1 else 0) :: ws } :=
  choice { c with stack := ws } hl hs rfl fun _ hn => .branchLessEqual hs hn

/-- A function value is called through the frame that holds it. -/
theorem callValue {site : NodeId} {hops a : Nat} {base link : Int} {e : Entry} (hk : e.kind ≠ .method)
    (hs : ls.Sits ip (Code.walk site hops ++ Code.plain (Code.callEntry e)))
    (hlinked : Image.Linked (T.StackCell c.stack) hops c.fp base)
    (hw : WordsAt (T.StackCell c.stack) (base + e.offset - 1) [↑a, link]) (ha : a < ls.size) :
    T.Leads ls ip c a { c with
      stack := link :: c.stack
      tm := base
      ra := (ip + Listing.size (Code.walk site hops ++ Code.plain (Code.callEntry e)) : Nat) } := by
  have hcode : Code.callEntry e = ([.store .tm, .load .tm] ++ Code.loadAt e.offset ++ [.load .tm] ++
      Code.loadAt (e.offset - 1)) ++ [.jump] := by
    rw [Code.callEntry, if_neg hk]
    rfl
  rw [hcode, Code.plain_append] at hs ⊢
  have hwalk := (Straight.frame (u := ls.unit) hlinked).leads (Code.code_ending _ _) hs.left
  have hcallee := (Straight.callee (u := ls.unit) (c := c) (hw.mono fun _ _ => .inl)).leads (Code.code_plain _)
    hs.right.left
  have hjump := Target.Leads.jump (T := T) (c := { c with tm := base }) (link :: c.stack)
    hs.right.right ha
  rw [Listing.size_append, Listing.size_append, ← Nat.add_assoc, ← Nat.add_assoc]
  exact (hwalk.trans hcallee).trans hjump

end Target.Leads

end ObjLet
