import ObjLet.Proofs.Links.Members
import ObjLet.Proofs.Links.Scoped
import ObjLet.Proofs.Simulation.Expr

/-!
# Calls

What calls count on (`Loaded.Serves`): with the address of a frame or object and the arguments on the stack, the
machine keeps track of the body of a function, and its result takes their place. A function value is called through
the place that holds it, a method through the dispatch table of the object.
-/

namespace ObjLet

open Code

/-- The words of the stack may be given by an equation, which is how they come out of an evaluation. -/
theorem Target.Goes.of_stack {T : Target} {ls : Listing} {mark : Option Mark} {ip ip' : Nat} {c c' : Snapshot}
    {ws : List Int} (hs : c.stack = ws) (h : T.Goes ls mark ip { c with stack := ws } ip' c') :
    T.Goes ls mark ip c ip' c' := by
  rwa [Snapshot.eta_stack hs] at h

/-- With an object on the stack, the address in a slot of its dispatch table is pushed. -/
theorem Straight.dispatch {T : Target} {u : CodeUnit} {c : Snapshot} {ws : List Int} {base table a slot : Int}
    (htable : Snapshot.Cell T { c with stack := ws } base table)
    (ha : Snapshot.Cell T { c with stack := ws } (table + slot) a) :
    Straight T u ([.store .tm, .load .tm, .load .tm, .loadWord] ++ Code.loadAt slot) { c with stack := base :: ws }
      { c with stack := a :: base :: ws, tm := base } := by
  have hobject : Straight T u [.store .tm, .load .tm, .load .tm] { c with stack := base :: ws }
      { c with stack := base :: base :: ws, tm := base } :=
    .cons rfl Moves.storeTm (.cons rfl (Moves.load (c := { c with stack := ws, tm := base }) .tm)
      (.single rfl (Moves.load (c := { c with stack := base :: ws, tm := base }) .tm)))
  have hload : Straight T u [.loadWord] { c with stack := base :: base :: ws, tm := base }
      { c with stack := table :: base :: ws, tm := base } :=
    .single rfl (Moves.loadWord (c := { c with tm := base }) (htable.push base))
  exact (hobject.append hload).append (Straight.loadAt (c := { c with tm := base }) (ha.push base))

namespace Loaded

variable {L : Loaded} {fuel : Nat} {call : Caller} {p q r : Stage}

/-- Words have been put on a stack. -/
structure Pushes (L : Loaded) (p : Stage) (ip : Nat) (fp : Int) (ws : List Int) (R : Ledger → List Int → Prop)
    (q : Stage) : Prop where
  ip : q.ip = ip
  fp : q.snapshot.fp = fp
  stands : L.Stands q
  follows : p.Follows p.history.live q
  words : ∃ vs, R q.ledger vs ∧ q.snapshot.stack = vs ++ ws

namespace Pushes

variable {ip : Nat} {fp : Int} {ws : List Int} {R : Ledger → List Int → Prop}

/-- What has been pushed for arguments lies above the frame, so names are found as before. -/
theorem scope {Γ : Env} {env : List Frame} (h : L.Pushes p ip p.snapshot.fp ws R q) (hΓ : L.Scoped Γ env p) :
    L.Scoped Γ env q := hΓ.follows h.follows h.fp

/-- The one word that has been pushed. -/
theorem stack {w : Int} (h : L.Pushes p ip fp ws (fun _ vs => vs = [w]) q) : q.snapshot.stack = w :: ws := by
  obtain ⟨vs, rfl, hs⟩ := h.words
  exact hs

/-- Arguments are pushed behind what was done before them. -/
theorem after (h : L.Pushes q ip fp ws R r) (hf : p.Follows p.history.live q) : L.Pushes p ip fp ws R r :=
  ⟨h.ip, h.fp, h.stands, hf.next h.follows, h.words⟩

/-- Words are put where those of a later stage have been taken away. -/
theorem of_stack (hp : L.Stands p) (hq : L.Stands q) (hf : p.Follows p.history.live q) (vs : List Int) {c : Snapshot}
    (hr : R q.ledger vs) (hs : c.stack = vs ++ p.snapshot.stack) (hh : c.heap = q.snapshot.heap) (hfp : c.fp = fp) :
    L.Pushes p ip fp p.snapshot.stack R { q with ip, snapshot := c } :=
  ⟨rfl, hfp, hp.restack hq hf vs hs hh, ⟨hf.ledger, hf.live, hf.word⟩, vs, hr, hs⟩

end Pushes

/-- Calls run the code of functions: with the base of the place around the function and the arguments on the stack,
above a word that the frame register gets when the result takes their place. Live activations have their words
below. -/
def Serves (L : Loaded) (fuel : Nat) (call : Caller) : Prop :=
  ∀ {f : FunDecl} {Γ : Env} {sig : Signature} {a : Nat} {outer : List Frame} {args : List Value}
    {words : List (List Int)} {p : Stage} {r : Nat} {link ctl : Int} {ws : List Int},
    L.Routine f Γ sig a → L.Framed Γ.scopes.scopes outer p link →
    List.Forall₂ (Value.HasType L.tables) args sig.params → List.Forall₂ (L.Rep p.ledger) args words →
    L.Stands (p.under ws) → p.ip = a → p.snapshot.stack = link :: (words.flatten ++ ctl :: ws) → p.snapshot.ra = r →
    r < L.listing.size → L.Tracks fuel p (call f outer args) fun v => L.Pushes p r ctl ws (L.Rep · v)

/-! ## Function values -/

/-- The frame of a function value is an activation, since functions are declared in blocks only. -/
theorem Rep.inside {W : Ledger} {f : FunDecl} {outer : List Frame} {ws : List Int}
    (h : L.Rep W (.closure f outer) ws) : ∃ n bindings env, outer = ⟨.activation n, bindings⟩ :: env := by
  cases h with
  | @closure _ n bindings env => exact ⟨n, bindings, env, rfl⟩

/-- The frames around a function value, where its activation is live, with the function itself declared in them. -/
theorem Rep.framed {f : FunDecl} {n : Nat} {bindings : List (String × Binding)} {env : List Frame} {ws : List Int}
    (hp : L.Stands p) (h : L.Rep p.ledger (.closure f (⟨.activation n, bindings⟩ :: env)) ws)
    (hn : n ∈ p.history.live) :
    ∃ (Γ Γ' : Env) (a : Nat) (link : Int), ws = [↑a, link] ∧
      Γ.Declares L.tables.resolutions Γ' f.id f.name.text .func (f.signature Γ.classes).ty ∧
      L.Routine f Γ' (f.signature Γ.classes) a ∧
      L.Framed Γ'.scopes.scopes (Frame.bind f.name.text (.value (.closure f (⟨.activation n, bindings⟩ :: env)))
        (⟨.activation n, bindings⟩ :: env)) p link := by
  have hself := h
  cases h with
  | @closure _ _ _ _ Γ Γ' a base hd hf hfit hlies hb hslot =>
  have hty : Value.HasType L.tables (.closure f (⟨.activation n, bindings⟩ :: env)) (f.signature Γ.classes).ty :=
    .closure hd hf.checked hfit (ClassTable.isSubtype_refl _ _)
  have hbinds : L.Binds p.ledger (.activation n) (.value (.closure f (⟨.activation n, bindings⟩ :: env)))
      ⟨.func, Γ.level, Γ.nextLocal, (f.signature Γ.classes).ty⟩ := by
    refine .value hself ?_
    rwa [show Γ.nextLocal + 1 - ([(a : Int), base].length : Nat) = Γ.nextLocal - 1 by
      rw [List.length_cons, List.length_singleton]; omega]
  have hlinks : p.ledger.Links (.activation n) env := by
    generalize Γ.scopes.scopes = scopes at hlies
    cases hlies with
    | cons _ _ hl _ => exact hl
  refine ⟨Γ, Γ', a, base, rfl, hd, hf, hfit.declare hd (.value rfl hty), hlies.declare hd hbinds, ?_, _, rfl, hb⟩
  -- What lies around a live activation is live.
  obtain ⟨haround, -⟩ := hlinks n rfl
  obtain ⟨ps, hps, hlive⟩ := hp.around n hn
  cases haround.symm.trans hps
  intro g hg m hm
  rcases List.mem_cons.1 hg with rfl | hg
  · cases hm
    exact hn
  · exact hlive m (List.mem_map.2 ⟨g, hg, hm⟩)

/-- A function value that stands for a function type has a subtype of it. -/
theorem isSubtype_of_declares {f : FunDecl} {env : List Frame} {Γ Γ' : Env} {sig sig' : Signature}
    (hd : Γ.Declares L.tables.resolutions Γ' f.id f.name.text .func sig.ty)
    (ht : Value.HasType L.tables (.closure f env) sig'.ty) : L.tables.classes.isSubtype sig.ty sig'.ty := by
  cases ht with
  | closure hd' _ _ hs =>
    have hty := congrArg Entry.ty (Option.some.inj (hd.entry.symm.trans hd'.entry))
    rwa [show sig.ty = _ from hty]

/-- After the activation around a function value has ended, nothing is to be shown of a call. -/
theorem Tracks.useClosure {β : Type} {site : NodeId} {n : Nat} {bindings : List (String × Binding)}
    {env : List Frame} {k : Unit → Eval β} {Q : β → Stage → Prop}
    (hk : n ∈ p.history.live → L.Tracks fuel p (k ()) Q) :
    L.Tracks fuel p (Eval.useClosure site (⟨.activation n, bindings⟩ :: env) >>= k) Q := by
  by_cases hn : n ∈ p.history.live
  · exact .skip (by rw [Eval.useClosure, if_pos hn]) (.refl _) (hk hn)
  · have hfirst : (Eval.useClosure site (⟨.activation n, bindings⟩ :: env) p.history).2.2 = [.outlived site] := by
      rw [Eval.useClosure, if_neg hn]
      rfl
    obtain ⟨es, hes⟩ := Eval.exists_events_bind (Eval.useClosure site (⟨.activation n, bindings⟩ :: env)) k p.history
    rw [hfirst] at hes
    exact .stray hes (.outlived site)

/-- A function value is called through the place that holds it. -/
theorem Tracks.callValue (hcall : L.Serves fuel call) {env : List Frame} {e : Entry} {i : Nat} {f : FunDecl}
    {outer : List Frame} {g : Frame} {base : Int} (hk : e.kind ≠ .method) {sig : Signature}
    (hty : Value.HasType L.tables (.closure f outer) sig.ty)
    (hfound : L.Found env p e i (.value (.closure f outer)) g base) {args : List Value} {words : List (List Int)}
    (htypes : List.Forall₂ (Value.HasType L.tables) args sig.params)
    (hreps : List.Forall₂ (L.Rep p.ledger) args words) {ctl : Int} {ws : List Int} (hclear : L.Stands (p.under ws))
    (hs : p.snapshot.stack = words.flatten ++ ctl :: ws) {ip : Nat}
    (hsits : L.listing.Sits ip (plain (callEntry e))) (hlt : ip + (plain (callEntry e)).size < L.listing.size)
    (site : NodeId) :
    L.Tracks fuel { p with ip, snapshot := p.snapshot.push base }
      (Eval.useClosure site outer >>= fun _ => call f (Frame.bind f.name.text (.value (.closure f outer)) outer) args)
      fun v => L.Pushes p (ip + (plain (callEntry e)).size) ctl ws (L.Rep · v) := by
  have hp : L.Stands p := hclear.of_under (words.flatten ++ [ctl]) (by rw [hs, List.append_assoc]; rfl)
  obtain ⟨vs, hv, hw⟩ := hfound.cells hp
  obtain ⟨n, bindings, around, rfl⟩ := hv.inside
  refine .useClosure fun hn => ?_
  obtain ⟨Γ, Γ', a, link, rfl, hd, hf, hframed⟩ := hv.framed hp hn
  rw [show base + e.offset + 1 - ([(a : Int), link].length : Nat) = base + e.offset - 1 by
    rw [List.length_cons, List.length_singleton]; omega] at hw
  have hcode : callEntry e = ([.store .tm, .load .tm] ++ loadAt e.offset ++ [.load .tm] ++ loadAt (e.offset - 1)) ++
      [.jump] := by
    rw [callEntry, if_neg hk]
    rfl
  rw [hcode, plain_append] at hsits hlt ⊢
  rw [Listing.size_append, ← Nat.add_assoc] at hlt ⊢
  -- The frame of the function value is read first and lies below the new frame as its access link, then its code.
  have hcallee := (Straight.callee (u := L.listing.unit) (c := p.snapshot) hw).goes hsits.left
  have hjump := Target.Goes.jump (T := L.target) (c := { p.snapshot with tm := base }) (link :: p.snapshot.stack)
    hsits.right hf.lt_size
  obtain ⟨-, hparams⟩ := ClassTable.isSubtype_signature.1 (isSubtype_of_declares hd hty)
  refine .pass (hcallee.trans hjump) ?_
  refine (hcall (p := { p with ip := a, snapshot := { p.snapshot with
    stack := link :: p.snapshot.stack, tm := base, ra := _ } }) hf (hframed.mono (.refl _) rfl)
    (hasTypeAll_sub L.lineal htypes hparams) hreps (hclear.under_moved rfl) rfl (by rw [hs]) rfl hlt).mono ?_
  exact fun v q _ hq => hq.after (.moved ..)

/-! ## Methods -/

/-- The frames around a method that an object has: that of the object lies inside the outermost one. -/
theorem Inherits.framed {id : Nat} {lineage : List ClassValue} {fields : List (String × Value)} {c : ClassId}
    {cls : Class} {e : Entry} {cv : ClassValue} {ancestors : List ClassValue} {m : FunDecl} {Γ : Env} {sig : Signature}
    {a : Nat} (h : L.Inherits p.ledger c cls e cv ancestors m Γ sig a) (hlive : 0 ∈ p.history.live)
    (ho : Value.ObjectFits L.tables lineage fields c) (hc : L.tables.classes.class? c = some cls)
    (hpre : ClassValue.fieldNames (cv :: ancestors) <+: ClassValue.fieldNames lineage) {base : Int}
    (hself : L.Rep p.ledger (.object id lineage fields) [base]) (hb : p.ledger.base (.object id) = some base)
    (hf : ∀ (name : String) (e : Entry) (v : Value), cls.members[name]? = some e → e.kind = .field →
      fields.lookup name = some v → L.Binds p.ledger (.object id) (.value v) e) :
    L.Framed Γ.scopes.scopes
      (ClassValue.scope id (.object id lineage fields) fields m.name.text (cv :: ancestors) ::
        Frame.bind cv.decl.name.text (.cls (cv :: ancestors)) cv.env) p base := by
  obtain ⟨c', cls', members, around, hscopes, hmethod, href, -⟩ := h.scopes
  refine ⟨hmethod.fits_scope L.lineal ho hc href hpre id, h.lies_scope hself hb hf, fun g hg n hn => ?_, _, rfl, hb⟩
  obtain ⟨bindings, henv⟩ := h.places
  rw [henv] at hg
  rcases List.mem_cons.1 hg with rfl | hg
  · cases hn
  · cases List.mem_singleton.1 hg
    cases hn
    exact hlive

/-- A method of an object is called through its dispatch table. -/
theorem Tracks.callMethod (hcall : L.Serves fuel call) {id : Nat} {lineage : List ClassValue}
    {fields : List (String × Value)} {d : ClassId} {cls : Class} {name : String} {e : Entry} {sig : Signature}
    {base slot : Int} (ho : Value.ObjectFits L.tables lineage fields d) (hd : L.tables.classes.class? d = some cls)
    (he : cls.members[name]? = some e) (hk : e.kind = .method) (hsub : L.tables.classes.isSubtype e.ty sig.ty)
    (hoff : e.offset = slot) (hself : L.Rep p.ledger (.object id lineage fields) [base]) {args : List Value}
    {words : List (List Int)} (htypes : List.Forall₂ (Value.HasType L.tables) args sig.params)
    (hreps : List.Forall₂ (L.Rep p.ledger) args words) {ctl : Int} {ws : List Int} (hclear : L.Stands (p.under ws))
    (hs : p.snapshot.stack = words.flatten ++ ctl :: ws) {ip : Nat}
    (hsits : L.listing.Sits ip (plain (dispatchCall slot)))
    (hlt : ip + (plain (dispatchCall slot)).size < L.listing.size) :
    L.Tracks fuel { p with ip, snapshot := p.snapshot.push base }
      (Value.callMethod call (.object id lineage fields) name args)
      fun v => L.Pushes p (ip + (plain (dispatchCall slot)).size) ctl ws (L.Rep · v) := by
  have hself' := hself
  cases hself with
  | @object _ _ _ c cls' _ table hb hl hc htable hentries hf =>
  have hlineage : ClassValue.LineageFits L.tables lineage d := by
    cases ho with
    | mk hl _ _ _ => exact hl
  -- What lies on the heap is an object of the class that the value is of.
  obtain rfl := hl.fits.unique hlineage
  cases hc.symm.trans hd
  obtain ⟨cv, ancestors, m, Γ, sig', a, hfm, rfl, hpre, hi⟩ := hl.findMethod? hd he hk
  obtain ⟨l, ⟨labels, hlabels, j, hj, hlj⟩, ha⟩ := hi.slot
  obtain ⟨a', ha', hcell⟩ := hentries labels hlabels j l hlj
  cases ha.symm.trans ha'
  have hheap : p.snapshot.heap = p.ledger.heap := hclear.heap
  rw [← hheap] at htable hcell
  -- The slot in the dispatch table is the offset of the entry, in every subclass.
  rw [← hj, hoff] at hcell
  have hframed := hi.framed hclear.outermost.2 ho hd hpre hself' hb hf
  rw [hi.ty] at hsub
  obtain ⟨-, hparams⟩ := ClassTable.isSubtype_signature.1 hsub
  have hcode : dispatchCall slot = ([.store .tm, .load .tm, .load .tm, .loadWord] ++ loadAt slot) ++ [.jump] := rfl
  rw [hcode, plain_append] at hsits hlt ⊢
  rw [Listing.size_append, ← Nat.add_assoc] at hlt ⊢
  have hdispatch := Straight.dispatch (T := L.target) (u := L.listing.unit) (c := p.snapshot) (.inr htable) (.inr hcell)
  have hway := hdispatch.goes hsits.left
  have hjump := Target.Goes.jump (T := L.target) (c := { p.snapshot with tm := base }) (base :: p.snapshot.stack)
    hsits.right hi.routine.lt_size
  rw [Value.callMethod, hfm]
  refine .pass (hway.trans hjump) ?_
  refine (hcall (p := { p with ip := a, snapshot := { p.snapshot with
    stack := base :: p.snapshot.stack, tm := base, ra := _ } }) hi.routine (hframed.mono (.refl _) rfl)
    (hasTypeAll_sub L.lineal htypes hparams) hreps (hclear.under_moved rfl) rfl (by rw [hs]) rfl hlt).mono ?_
  exact fun v q _ hq => hq.after (.moved ..)

/-- A method call on null ends the run. -/
theorem Tracks.callNull {α : Type} {x : Eval α} {P : α → Stage → Prop} {ws : List Int} {slot : Int}
    (hs : p.snapshot.stack = -1 :: ws) (hsits : L.listing.Sits p.ip (plain (dispatchCall slot))) :
    L.Tracks fuel p x P := by
  have hcode : dispatchCall slot = [.store .tm, .load .tm, .load .tm] ++ .loadWord :: (loadAt slot ++ [.jump]) := rfl
  rw [hcode, plain_append] at hsits
  have hobject : Straight L.target L.listing.unit [.store .tm, .load .tm, .load .tm]
      { p.snapshot with stack := -1 :: ws } { p.snapshot with stack := -1 :: -1 :: ws, tm := -1 } :=
    .cons rfl Moves.storeTm (.cons rfl (Moves.load (c := { p.snapshot with stack := ws, tm := -1 }) .tm)
      (.single rfl (Moves.load (c := { p.snapshot with stack := -1 :: ws, tm := -1 }) .tm)))
  have hway := hobject.goes hsits.left
  rw [Snapshot.eta_stack hs] at hway
  refine .blocked (Target.Passes.trans hway (.of_exec hsits.right rfl (fun s hs => hs.ip) fun s hs => .inl ?_))
  obtain ⟨hpop, -⟩ := Machine.At.pop (c := { p.snapshot with tm := -1 }) hs.next
  refine ⟨.addressOutOfRange, ?_⟩
  have hout : ¬L.target.InRange (-1) := fun h => absurd h.1 (by decide)
  rw [Target.exec, hpop]
  change (L.target.read s.next.popped (-1)).bind (fun w => L.target.push s.next.popped w) = _
  rw [Target.read, if_neg hout]
  rfl

end Loaded

end ObjLet
