import ObjLet.Proofs.Links.Decl
import ObjLet.Proofs.Simulation.Return

/-!
# Frames of activations

A function sets up its frame at the word on top of the stack, which is the base of the place around it; the arguments
are below (`Loaded.Tracks.enterFrame`). At the end the frame goes and the words of the result stay
(`Loaded.Tracks.leaveFrame`). The two words of a function value take one step more, since the control link is in the
place of one of them.
-/

namespace ObjLet

open Code Loaded

/-! ## Code at the end of a function -/

namespace Straight

variable {T : Target} {u : CodeUnit}

/-- The frame is popped, with the result in `tm`. -/
theorem leave (c : Snapshot) (ra ctl : Int) (locals args ws : List Int) :
    Straight T u (Code.leave locals.length args.length) { c with stack := locals ++ ra :: (args ++ ctl :: ws) }
      { c with stack := ra :: c.tm :: ws, fp := ctl, ra := ra } := by
  have hra : Straight T u [.store .ra] { c with stack := ra :: (args ++ ctl :: ws) }
      { c with stack := args ++ ctl :: ws, ra := ra } := .single rfl Moves.storeRa
  have hargs : Straight T u (List.replicate args.length .pop) { c with stack := args ++ ctl :: ws, ra := ra }
      { c with stack := ctl :: ws, ra := ra } := pops (c := { c with ra := ra }) args
  have hend : Straight T u [.store .fp, .load .tm, .load .ra] { c with stack := ctl :: ws, ra := ra }
      { c with stack := ra :: c.tm :: ws, fp := ctl, ra := ra } :=
    .cons rfl (Moves.storeFp (c := { c with ra := ra })) (.cons rfl
      (Moves.load (c := { c with stack := ws, fp := ctl, ra := ra }) .tm) (.single rfl
      (Moves.load (c := { c with stack := c.tm :: ws, fp := ctl, ra := ra }) .ra)))
  exact (((pops (c := c) locals).append hra).append hargs).append hend

/-- The word on top of the stack is stored above the frame register. -/
theorem storeAt {c : Snapshot} {w x k : Int} {vs ws : List Int}
    (ha : c.fp + k + ((ws.length : Nat) + 1) = T.memory) :
    Straight T u [.load .fp, .push k, .arith .add, .storeWord] { c with stack := w :: (vs ++ x :: ws) }
      { c with stack := vs ++ w :: ws } := by
  have hx : T.StackCell (x :: ws) (c.fp + k) x := ⟨0, rfl, by rw [List.length_cons]; omega⟩
  have hcell : Snapshot.Cell T { c with stack := w :: (vs ++ x :: ws) } (c.fp + k) x := .inl ((hx.append vs).push w)
  have haddress : Straight T u [.load .fp, .push k, .arith .add] { c with stack := w :: (vs ++ x :: ws) }
      { c with stack := (c.fp + k) :: w :: (vs ++ x :: ws) } :=
    .cons rfl (Moves.load (c := { c with stack := w :: (vs ++ x :: ws) }) .fp) (.cons rfl
      (Moves.push (c := { c with stack := c.fp :: w :: (vs ++ x :: ws) }) k) (.single rfl (Moves.address hcell)))
  have hstore : Moves T u .storeWord { c with stack := (c.fp + k) :: w :: (vs ++ x :: ws) }
      { c with stack := (vs ++ x :: ws).set vs.length w } := by
    refine Moves.storeWord (by simp) ?_
    rw [List.length_append, List.length_cons]
    omega
  rw [List.set_append_right _ _ (Nat.le_refl _), Nat.sub_self, List.set_cons_zero] at hstore
  exact haddress.append (.single rfl hstore)

/-- The upper word of a function value takes the place of the control link, which moves down by a word. -/
theorem returnFrameWord {c : Snapshot} {p : Nat} {b x ctl : Int} {vs ws : List Int}
    (hfp : c.fp + p + (ws.length + 2 : Nat) = T.memory) :
    Straight T u (Code.returnFrameWord p) { c with stack := b :: (vs ++ x :: ctl :: ws) }
      { c with stack := vs ++ ctl :: b :: ws } := by
  have hctl : T.StackCell (ctl :: ws) (c.fp + (p + 1)) ctl := ⟨0, rfl, by rw [List.length_cons]; omega⟩
  have hcell : Snapshot.Cell T { c with stack := b :: (vs ++ x :: ctl :: ws) } (c.fp + (p + 1)) ctl :=
    .inl (((hctl.push x).append vs).push b)
  have hload : Straight T u (.load .fp :: Code.loadAt (p + 1)) { c with stack := b :: (vs ++ x :: ctl :: ws) }
      { c with stack := ctl :: b :: (vs ++ x :: ctl :: ws) } :=
    .cons rfl (Moves.load (c := { c with stack := b :: (vs ++ x :: ctl :: ws) }) .fp) (loadAt (c := c) hcell)
  have hdown : Straight T u [.load .fp, .push ((p : Int) + 1 - 1), .arith .add, .storeWord]
      { c with stack := ctl :: ((b :: vs) ++ x :: ctl :: ws) } { c with stack := (b :: vs) ++ ctl :: ctl :: ws } :=
    storeAt (c := c) (by rw [List.length_cons]; omega)
  have hup : Straight T u [.load .fp, .push ((p : Int) + 1), .arith .add, .storeWord]
      { c with stack := b :: ((vs ++ [ctl]) ++ ctl :: ws) } { c with stack := (vs ++ [ctl]) ++ b :: ws } :=
    storeAt (c := c) (by omega)
  rw [List.append_assoc, List.append_assoc] at hup
  exact (hload.append hdown).append hup

/-- A function leaves the words of its result in place of its frame, and above them the return address. -/
theorem epilogue (c : Snapshot) (ra link ctl : Int) (vs locals args ws : List Int)
    (hfp : c.fp + (args.length + ws.length + 2 : Nat) = T.memory) (hvs : vs.length = 1 ∨ vs.length = 2) :
    ∃ code tm, Code.epilogue args.length locals.length (decide (vs.length = 2)) = code ++ [.jump] ∧
      Straight T u code { c with stack := vs ++ (locals ++ ra :: link :: (args ++ ctl :: ws)) }
        { c with stack := ra :: (vs ++ ws), fp := ctl, tm := tm, ra := ra } := by
  match vs, hvs with
  | [w], _ =>
    refine ⟨_, w, epilogue_word _ _, ?_⟩
    have hout : Straight T u [.store .tm] { c with stack := w :: (locals ++ ra :: link :: (args ++ ctl :: ws)) }
        { c with stack := locals ++ ra :: link :: (args ++ ctl :: ws), tm := w } := .single rfl Moves.storeTm
    exact hout.append (leave { c with tm := w } ra ctl locals (link :: args) ws)
  | [a, b], _ =>
    refine ⟨_, a, epilogue_function _ _, ?_⟩
    -- The link and the arguments without the last one are popped; the last one makes room for the control link.
    obtain ⟨front, last, hargs⟩ : ∃ front last, link :: args = front ++ [last] :=
      ⟨_, _, (List.dropLast_append_getLast (List.cons_ne_nil link args)).symm⟩
    have hlen : front.length = args.length := by
      have := congrArg List.length hargs
      simpa using this.symm
    have hframe : link :: (args ++ ctl :: ws) = front ++ last :: ctl :: ws := by
      rw [← List.cons_append, hargs, List.append_assoc]
      rfl
    rw [hframe, ← hlen]
    have hout : Straight T u [.store .tm]
        { c with stack := a :: b :: (locals ++ ra :: (front ++ last :: ctl :: ws)) }
        { c with stack := b :: (locals ++ ra :: (front ++ last :: ctl :: ws)), tm := a } := .single rfl Moves.storeTm
    have hword : Straight T u (Code.returnFrameWord front.length)
        { c with stack := b :: ((locals ++ ra :: front) ++ last :: ctl :: ws), tm := a }
        { c with stack := (locals ++ ra :: front) ++ ctl :: b :: ws, tm := a } :=
      returnFrameWord (c := { c with tm := a }) (by dsimp only; omega)
    rw [List.append_assoc, List.append_assoc] at hword
    exact (hout.append hword).append (leave { c with tm := a } ra ctl locals front (b :: ws))

end Straight

/-! ## Activations -/

/-- A ledger with a new activation, which has words from its base up. -/
def Ledger.enter (W : Ledger) (n : Nat) (b : Int) (ps : List Place) (ws : List Int) : Ledger where
  base p := if p = .activation n then some b else W.base p
  around m := if m = n then some ps else W.around m
  word m k x := W.word m k x ∨ m = n ∧ ∃ i : Nat, ws[i]? = some x ∧ k = i
  heap := W.heap

/-- The history when an activation has started. -/
def History.entered (h : History) : History :=
  { h with activations := h.activations + 1, live := h.activations :: h.live }

namespace Ledger

variable {W : Ledger} {n : Nat} {b : Int} {ps : List Place} {ws : List Int}

/-- A new activation lies where its frame is set up. -/
theorem base_enter_self : (W.enter n b ps ws).base (.activation n) = some b := if_pos rfl

theorem base_enter_of_ne {p : Place} (h : p ≠ .activation n) : (W.enter n b ps ws).base p = W.base p := if_neg h

theorem base_enter_object {id : Nat} : (W.enter n b ps ws).base (.object id) = W.base (.object id) :=
  base_enter_of_ne fun h => nomatch h

/-- An activation that was not known before may be added to a ledger. -/
theorem le_enter (hb : W.base (.activation n) = none) (ha : W.around n = none) : W.Le (W.enter n b ps ws) where
  base {p} {b'} hp := by
    rw [base_enter_of_ne ?_, hp]
    rintro rfl
    rw [hb] at hp
    cases hp
  around {m} {qs} hm := by
    refine (if_neg ?_).trans hm
    rintro rfl
    rw [ha] at hm
    cases hm
  word := .inl
  heap := List.prefix_rfl

end Ledger

variable {L : Loaded} {fuel : Nat} {p q r : Stage}

/-- A later stage, in an activation that has started since. -/
structure Stage.Inside (p q : Stage) : Prop where
  ledger : p.ledger.Le q.ledger
  live : q.history.live = p.history.activations :: p.history.live
  word : ∀ n ∈ p.history.live, ∀ {o x : Int}, q.ledger.word n o x → p.ledger.word n o x

/-- What goes on with the live activations unchanged stays inside the same call. -/
theorem Stage.Inside.follows (h : p.Inside q) {kept : List Nat} (hf : q.Follows kept r)
    (hk : p.history.live ⊆ kept) : p.Inside r :=
  ⟨h.ledger.trans hf.ledger, hf.live.trans h.live, fun n hn _ _ hw => h.word n hn (hf.word n (hk hn) hw)⟩

namespace Loaded

/-- Activations are numbered as they are entered, so the next one is new to the ledger. -/
theorem Stands.le_enter (h : L.Stands p) {b : Int} {ps : List Place} {ws : List Int} :
    p.ledger.Le (p.ledger.enter p.history.activations b ps ws) :=
  Ledger.le_enter (h.new (Nat.le_refl _)).1 (h.new (Nat.le_refl _)).2.1

/-- A new activation stands on top of the stack. -/
theorem Stands.enter (h : L.Stands p) {ps : List Place} (hps : ∀ m, .activation m ∈ ps → m ∈ p.history.live) {b : Int}
    {ws rest : List Int} {ip : Nat} {c : Snapshot} (hws : p.snapshot.stack = ws ++ rest)
    (hb : b + p.snapshot.stack.length = L.target.memory) (hs : c.stack = p.snapshot.stack)
    (hh : c.heap = p.snapshot.heap) :
    L.Stands ⟨p.ledger.enter p.history.activations b ps ws, p.history.entered, ip, c⟩ := by
  have hne : ∀ {m : Nat}, m ∈ p.history.live → m ≠ p.history.activations := fun hm => Nat.ne_of_lt (h.old _ hm)
  -- Other activations keep their bases, as the new one has a number of its own.
  have hbase : ∀ {m : Nat}, m ∈ p.history.live →
      (p.ledger.enter p.history.activations b ps ws).base (.activation m) = p.ledger.base (.activation m) :=
    fun hm => Ledger.base_enter_of_ne fun heq => hne hm (Place.activation.inj heq)
  refine ⟨hh.trans h.heap, fun m hm k x hw => ?_, fun m hm => ?_, fun m hm => ?_, fun {m} hm => ?_,
    fun {id b'} hb' => ?_, fun {id id' b'} hb₁ hb₂ => ?_, (hbase h.outermost.2).trans h.outermost.1,
    List.mem_cons_of_mem _ h.outermost.2⟩
  · change ∃ b', (p.ledger.enter _ b ps ws).base _ = some b' ∧ L.target.StackCell c.stack _ x
    rw [hs]
    rcases hw with hw | ⟨rfl, i, hx, rfl⟩
    · rcases List.mem_cons.1 hm with rfl | hm
      · exact absurd hw ((h.new (Nat.le_refl _)).2.2 k x)
      · rw [hbase hm]
        exact h.cell m hm hw
    · refine ⟨b, Ledger.base_enter_self, i, ?_, by omega⟩
      rw [hws, List.getElem?_append_left (List.getElem?_eq_some_iff.1 hx).1, hx]
  · rcases List.mem_cons.1 hm with rfl | hm
    · exact ⟨ps, if_pos rfl, fun m hm => List.mem_cons_of_mem _ (hps m hm)⟩
    · obtain ⟨qs, hqs, hlive⟩ := h.around m hm
      exact ⟨qs, (if_neg (hne hm)).trans hqs, fun m' hm' => List.mem_cons_of_mem _ (hlive m' hm')⟩
  · rcases List.mem_cons.1 hm with rfl | hm
    · exact Nat.lt_succ_self _
    · exact Nat.lt_succ_of_lt (h.old m hm)
  · have hlt : p.history.activations < m := hm
    obtain ⟨hnone, haround, hword⟩ := h.new (Nat.le_of_lt hlt)
    have hne' : m ≠ p.history.activations := Nat.ne_of_gt hlt
    refine ⟨(Ledger.base_enter_of_ne fun heq => hne' (Place.activation.inj heq)).trans hnone,
      (if_neg hne').trans haround, fun k x hw => ?_⟩
    rcases hw with hw | ⟨heq, -⟩
    · exact hword k x hw
    · exact hne' heq
  · exact h.object (Ledger.base_enter_object.symm.trans hb')
  · exact h.distinct (Ledger.base_enter_object.symm.trans hb₁) (Ledger.base_enter_object.symm.trans hb₂)

/-- When an activation ends, the words of the others are in what was below it. -/
theorem Stands.leave {ws : List Int} (hp : L.Stands (p.under ws)) (hq : L.Stands q) (h : p.Inside q) {ip : Nat}
    {c : Snapshot} (vs : List Int) (hs : c.stack = vs ++ ws) (hh : c.heap = q.snapshot.heap) :
    L.Stands ⟨q.ledger, { q.history with live := q.history.live.tail }, ip, c⟩ := by
  have htail : q.history.live.tail = p.history.live := by rw [h.live, List.tail_cons]
  rw [htail]
  refine ⟨hh.trans hq.heap, fun m hm k x hw => ?_, fun m hm => ?_, fun m hm => hq.old m ?_, hq.new, hq.object,
    hq.distinct, hq.outermost.1, hp.outermost.2⟩
  · obtain ⟨b, hb, hc⟩ := hp.cell m hm (h.word m hm hw)
    refine ⟨b, h.ledger.base hb, ?_⟩
    change L.target.StackCell c.stack _ x
    rw [hs]
    exact hc.append vs
  · obtain ⟨ps, hps, hps'⟩ := hp.around m hm
    exact ⟨ps, h.ledger.around hps, hps'⟩
  · rw [h.live]
    exact List.mem_cons_of_mem _ hm

/-- When a function has set up its frame, its parameters lie above the link to the place around it. -/
theorem Scoped.enter {f : FunDecl} {Γ : Env} {sig : Signature} (hf : f.Checked L.tables Γ sig) {outer : List Frame}
    {args : List Value} {words : List (List Int)} {link : Int} (hframed : L.Framed Γ.scopes.scopes outer p link)
    (htypes : List.Forall₂ (Value.HasType L.tables) args sig.params)
    (hreps : List.Forall₂ (L.Rep p.ledger) args words) (hp : L.Stands p) (ip : Nat) (c : Snapshot) :
    L.Scoped (f.inner Γ sig.params)
      (⟨.activation p.history.activations,
        ((f.params.map (·.name.text)).zip (args.map Binding.value)).reverse⟩ :: outer)
      ⟨p.ledger.enter p.history.activations c.fp (outer.map (·.place)) (link :: words.flatten), p.history.entered, ip,
        c⟩ := by
  let n := p.history.activations
  let W : Ledger := p.ledger.enter n c.fp (outer.map (·.place)) (link :: words.flatten)
  have hle : p.ledger.Le W := hp.le_enter
  obtain ⟨hrec, hdecls, -⟩ := hf.body L.lineal
  obtain ⟨hsnd, hfst⟩ := FunDecl.zip_params hf.length
  rw [← hsnd] at htypes
  have hempty : Frame.AllFit L.tables (⟨.activation n, []⟩ :: outer) Γ.enterFrame.scopes.scopes := by
    refine .cons (fun n => ?_) (fun n e b he _ => ?_) hframed.typed
    · simp [Frame.lookup?]
    · simp at he
  -- The access link is the base of the frame around the callee; it was pushed on top of the arguments.
  have hlinks : W.Links (.activation n) outer := by
    rintro m ⟨⟩
    obtain ⟨g, hg, hbase⟩ := hframed.head
    refine ⟨if_pos rfl, fun g' hg' => ⟨link, ?_, .inr ⟨rfl, 0, rfl, rfl⟩⟩⟩
    cases hg.symm.trans hg'
    exact hle.base hbase
  have hempty' : L.Lies W (⟨.activation n, []⟩ :: outer) Γ.enterFrame.scopes.scopes := by
    refine .cons Ledger.base_enter_self (fun n e b he _ => ?_) hlinks (hframed.lies.mono hle)
    simp at he
  -- Parameters count up from the word above the link.
  have hwords : WordsAt (W.Word (.activation n)) Env.firstParam words.flatten := by
    intro i x hx
    exact .inr ⟨rfl, i + 1, hx, by rw [Env.firstParam]; omega⟩
  have htyped := Frame.AllFit.declareParams htypes hrec hempty
  have hlies := Lies.declareParams htypes (hreps.imp fun _ _ h => h.mono hle) hwords hrec hempty'
  rw [hfst, List.append_nil] at htyped hlies
  refine ⟨hdecls.fits, ⟨htyped, hlies, fun g hg m hm => ?_, _, rfl, Ledger.base_enter_self⟩, _, _, _, rfl⟩
  rcases List.mem_cons.1 hg with rfl | hg
  · cases hm
    exact List.mem_cons_self
  · exact List.mem_cons_of_mem _ (hframed.stays g hg m hm)

/-! ## Ends of a call -/

/-- A function has set up its frame. -/
structure Entered (L : Loaded) (p : Stage) (Γ : Env) (env : List Frame) (q : Stage) : Prop where
  ip : q.ip = p.ip + 2
  fp : q.snapshot.fp + p.snapshot.stack.length = L.target.memory
  stack : q.snapshot.stack = p.snapshot.ra :: p.snapshot.stack
  inside : p.Inside q
  stands : L.Stands q
  scope : L.Scoped Γ env q
  slot : L.NextSlot Γ q.snapshot

/-- A function sets up its frame: the event of the call. -/
theorem Tracks.enterFrame {f : FunDecl} {Γ : Env} {sig : Signature} (hf : f.Checked L.tables Γ sig)
    {outer : List Frame} {args : List Value} {words : List (List Int)} {link : Int} {rest : List Int}
    (hframed : L.Framed Γ.scopes.scopes outer p link) (htypes : List.Forall₂ (Value.HasType L.tables) args sig.params)
    (hreps : List.Forall₂ (L.Rep p.ledger) args words) (hp : L.Stands p)
    (hstack : p.snapshot.stack = link :: (words.flatten ++ rest)) {code : Listing}
    (hs : L.listing.Sits p.ip (⟨.copyFp, some (.entered f.id)⟩ :: ⟨.load .ra, none⟩ :: code)) {β : Type}
    {Q : β → Stage → Prop} {k : Nat → Eval β}
    (hk : ∀ q, L.Entered p (f.inner Γ sig.params)
      (⟨.activation p.history.activations,
        ((f.params.map (·.name.text)).zip (args.map Binding.value)).reverse⟩ :: outer) q →
      L.Tracks fuel q (k p.history.activations) Q) :
    L.Tracks (fuel + 1) p (Eval.enter f.id >>= k) Q := by
  let n := p.history.activations
  let c : Snapshot := { p.snapshot with fp := L.target.memory - p.snapshot.stack.length }
  let W : Ledger := p.ledger.enter n c.fp (outer.map (·.place)) (link :: words.flatten)
  have hfp : c.fp + p.snapshot.stack.length = L.target.memory := Int.sub_add_cancel _ _
  have hle : p.ledger.Le W := hp.le_enter
  have hps : ∀ m, .activation m ∈ outer.map (·.place) → m ∈ p.history.live := by
    intro m hm
    obtain ⟨g, hg, hplace⟩ := List.mem_map.1 hm
    exact hframed.stays g hg m hplace
  -- The new words belong to the new activation.
  have hword : ∀ m ∈ p.history.live, ∀ {o x : Int}, W.word m o x → p.ledger.word m o x := by
    intro m hm o x hw
    refine hw.resolve_right ?_
    rintro ⟨rfl, -⟩
    exact Nat.lt_irrefl _ (hp.old n hm)
  -- Entering is an event of its own, shown by the instruction that sets the frame up.
  refine .event (W := W) (c := c) rfl hle (.of_moves hs rfl Moves.copyFp)
    (fun s hat W' hW => .entered (hat.fp.trans (Ledger.origin_eq (hW.base Ledger.base_enter_self)).symm)) ?_
  refine .pass (.of_moves (hs.next rfl) rfl (Moves.load .ra)) (hk _ ?_)
  have hentered : L.Stands ⟨W, p.history.entered, p.ip + 1, c⟩ := hp.enter hps hstack hfp rfl rfl
  refine ⟨rfl, hfp, rfl, ⟨hle, rfl, hword⟩, hentered.above [c.ra] rfl rfl,
    .enter hf hframed htypes hreps hp (p.ip + 1 + 1) (c.push c.ra), ?_⟩
  rw [NextSlot, FunDecl.inner, Env.nextLocal_declareParams]
  change c.fp + Env.firstLocal + ((p.snapshot.stack.length + 1 : Nat) : Int) + 1 = _
  rw [Env.firstLocal]
  omega

/-- A function leaves the words of its result in place of its frame. -/
theorem Tracks.leaveFrame {v : Value} {vs locals args ws : List Int} {link ctl : Int} {a : Nat}
    (hp : L.Stands (p.under ws)) (h : p.Inside q) (hq : L.Stands q) (hrep : L.Rep q.ledger v vs)
    (hstack : q.snapshot.stack = vs ++ (locals ++ (a : Int) :: link :: (args ++ ctl :: ws)))
    (hfp : q.snapshot.fp + (args.length + ws.length + 2 : Nat) = L.target.memory) (ha : a < L.listing.size)
    (hs : L.listing.Sits q.ip (plain (Code.epilogue args.length locals.length (decide (vs.length = 2))))) :
    L.Tracks fuel q (Eval.leave >>= fun _ => Pure.pure v) fun v => L.Pushes p a ctl ws (L.Rep · v) := by
  obtain ⟨tail, tm, hcode, hleave⟩ := Straight.epilogue (u := L.listing.unit) q.snapshot a link ctl vs locals args ws
    hfp hrep.words_cases
  rw [hcode, plain_append] at hs
  have hjump := Target.Goes.jump (T := L.target) (c := { q.snapshot with fp := ctl, tm := tm, ra := a }) (vs ++ ws)
    hs.right ha
  have hlive : q.history.live.tail = p.history.live := by rw [h.live, List.tail_cons]
  refine .skip rfl (.refl _) (.pass (.of_stack hstack ((hleave.goes hs.left).trans hjump)) (.pure ?_))
  exact ⟨rfl, rfl, hp.leave hq h vs rfl rfl, ⟨h.ledger, hlive, h.word⟩, vs, hrep, rfl⟩

end Loaded

end ObjLet
