import ObjLet.Proofs.Simulation.Expr

/-!
# Declarations and calls run as they are evaluated

Declarations lay out the frame that their entries describe (`Decl.implements_evalAll`). A call sets up a frame,
runs the body of a function in it and leaves it again. So calls with one more unit of fuel run the code of
functions if those with less do, and in the end all calls do (`Image.serves_call`).
-/

namespace ObjLet

open Code Image

variable {I : Image} {call : Caller} {Γ : Env} {env : List Frame}

/-! ## Declarations -/

/-- The next word that is pushed comes to the next free offset of the frame. -/
def Image.NextSlot (I : Image) (Γ : Env) (c : Snapshot) : Prop :=
  c.fp + Γ.nextLocal + c.stack.length + 1 = I.target.memory

/-- Classes stand in the outermost block only. -/
theorem Decl.CheckedAll.cls_notMem {t : Tables} (ht : t.classes.Lineal) {ds : List Decl} :
    ∀ {Γ : Env}, Decl.CheckedAll t Γ ds → Γ.level ≠ 0 → ∀ c, .cls c ∉ ds := by
  induction ds with
  | nil => exact fun _ _ _ => List.not_mem_nil
  | cons d ds ih =>
    intro Γ h hl c hc
    obtain ⟨hd, hds⟩ := h.cons ht
    rcases List.mem_cons.1 hc with rfl | hc
    · obtain ⟨s, final, hcls⟩ := hd.cls ht
      exact hl hcls.level
    · exact ih hds (by rwa [Decl.level_bind]) c hc

/-- A function in a function of the program is one of the program. -/
theorem Program.HasFunction.inner {p : Program} {f g : FunDecl} (h : p.HasFunction f) (hg : .func g ∈ f.decls) :
    p.HasFunction g := by
  cases h with
  | func hb hf =>
    obtain ⟨before, after, heq⟩ := List.append_of_mem hf
    exact .func (.func hb heq) hg
  | method hb hc hm =>
    obtain ⟨before, after, heq⟩ := List.append_of_mem hc
    obtain ⟨pre, post, heq'⟩ := List.append_of_mem hm
    exact .func (.method hb heq heq') hg

/-- The words of a declared value have been pushed to its slot. -/
theorem Image.Scoped.declare {c c' : Snapshot} (h : I.Scoped Γ env c) (hn : I.NextSlot Γ c) {Γ' : Env}
    (hfits : Γ'.Fits I.tables) {id : NodeId} {name : String} {kind : EntryKind} {ty : Ty} {v : Value}
    {ws : List Int} (hk : kind.isValue = true) (hd : Γ.Declares I.tables.resolutions Γ' id name kind ty)
    (ht : v.HasType I.tables ty) (hv : I.Rep (I.cells c') v ws) (hs : c'.stack = ws ++ c.stack)
    (hf : c'.fp = c.fp) :
    I.Scoped Γ' (Frame.bind name (.value v) env) c' ∧ I.NextSlot Γ' c' := by
  have hlen : (ws.length : Int) = ty.words := by rw [hv.length, ht.words_eq]
  have hat := Target.StackCell.wordsAt (T := I.target) ws c.stack
  rw [← hs] at hat
  unfold NextSlot at hn ⊢
  refine ⟨⟨hfits, h.typed.declare hd (.value hk ht), ?_⟩, ?_⟩
  · refine (h.above ws hs hf).lies.declare hd (.value hv ?_)
    rwa [hf, show c.fp + (Entry.mk kind Γ.level Γ.nextLocal ty).offset + 1 - ws.length =
      I.target.memory - c.stack.length - ws.length by dsimp only; omega]
  · rw [hs, hf, hd.nextLocal, List.length_append]
    omega

theorem Tables.frameWords_cons {t : Tables} {d : Decl} {e : Entry} (h : t.resolutions.declaration? d.id = some e)
    (ds : List Decl) : t.frameWords (d :: ds) = e.ty.words + t.frameWords ds := by
  simp [Tables.frameWords, h]

/-- The code of declarations without classes builds the frame that their evaluation builds: each takes the next
offset, and the name is bound to the words that were pushed there. -/
theorem Decl.implements_evalAll (ht : call.Sound I.tables) (hcall : I.Serves call) (ds : List Decl) :
    ∀ {Γ : Env} {env : List Frame} {code : Listing} {ip : Nat} {c : Snapshot},
      Decl.CheckedAll I.tables Γ ds → (∀ f, .func f ∈ ds → I.program.HasFunction f) →
      (∀ cls, .cls cls ∉ ds) → Decl.CodedAll I.tables I.target.memory I.At I.dispatch ds code →
      I.listing.Sits ip code → ip + code.size < I.listing.size → I.Scoped Γ env c →
      (ds ≠ [] → I.NextSlot Γ c) →
      I.Implements ip c (Decl.evalAll I.target.wrap call env ds) (ip + code.size) fun env' c' =>
        I.Scoped (Decl.bindAll Γ ds).1 env' c' ∧ c'.fp = c.fp ∧
          ∃ locals, locals.length = I.tables.frameWords ds ∧ c'.stack = locals ++ c.stack := by
  induction ds with
  | nil =>
    intro Γ env code ip c _ _ _ hc _ _ hΓ _
    cases hc
    exact .pure ⟨hΓ, rfl, [], rfl, rfl⟩
  | cons d ds ih =>
    intro Γ env code ip c h hfun hcls hc hs hlt hΓ hslot
    -- What is pushed next lands at the offset that the walk counted, so the entry of this declaration is where
    -- the value is.
    have hn := hslot (List.cons_ne_nil d ds)
    obtain ⟨hd, hds⟩ := h.cons I.lineal
    have hfun' : ∀ f, .func f ∈ ds → I.program.HasFunction f := fun f hf => hfun f (List.mem_cons_of_mem _ hf)
    have hcls' : ∀ cls, .cls cls ∉ ds := fun cls hm => hcls cls (List.mem_cons_of_mem _ hm)
    cases hc with
    | @cons _ _ ls lss hcd hcds =>
    rw [Listing.size_append, ← Nat.add_assoc] at hlt ⊢
    cases d with
    | var id name type init span =>
      obtain ⟨hinit, hfit, hdecl, -⟩ := hd.var
      obtain ⟨ty, hty⟩ := hinit.exists_type hΓ.fits
      cases hcd with
      | var hci =>
      refine ((Expr.implemented ht hcall hinit hci hs.left (by omega) hΓ).and_sound
        (Expr.sound I.lineal ht hΓ.fits hΓ.typed hinit ty hty)).bind ?_
      rintro v c₁ ⟨htyped, ws, hrep, hstack, hfp⟩
      have htyped' := htyped.sub I.lineal (hfit ty hty)
      obtain ⟨hΓ', hn'⟩ := hΓ.declare hn hds.fits rfl hdecl htyped' hrep hstack hfp
      refine (ih hds hfun' hcls' hcds hs.right hlt hΓ' fun _ => hn').mono ?_
      rintro env' c' ⟨hΓ'', hfp', locals, hlen, hstack'⟩
      refine ⟨hΓ'', hfp'.trans hfp, locals ++ ws, ?_, by rw [hstack', hstack, List.append_assoc]⟩
      rw [Tables.frameWords_cons hdecl.entry, List.length_append, hlen, hrep.length, htyped'.words_eq,
        Nat.add_comm]
    | func f =>
      obtain ⟨hdecl, -, hf⟩ := hd.func
      cases hcd with
      | func hat hcf =>
      obtain ⟨a, ha, hsits⟩ := I.placed hat
      have hfunction : I.Function f Γ _ a := ⟨hfun f List.mem_cons_self, hdecl, hf, _, hcf, hsits⟩
      have htyped : Value.HasType I.tables (.closure f env) (f.signature Γ.classes).ty :=
        .closure hdecl hf hΓ.typed (ClassTable.isSubtype_refl _ _)
      let c₁ : Snapshot := { c with stack := a :: c.fp :: c.stack }
      have hpush : Straight I.target I.listing.unit [.load .fp, .pushLabel _] c c₁ :=
        .cons rfl (Moves.load .fp) (.single rfl (Moves.pushLabel ha))
      -- The two words of a function value are its code and the frame around it, which is the frame at hand.
      have hrep : I.Rep (I.cells c₁) (.closure f env) [↑a, c.fp] := by
        have habove : I.Scoped Γ env c₁ := hΓ.above [↑a, c.fp] rfl rfl
        refine .closure hfunction hΓ.typed habove.lies ?_
        have hat := Target.StackCell.wordsAt (T := I.target) [↑a, c.fp] c.stack
        unfold NextSlot at hn
        rwa [show (I.target.memory : Int) - c.stack.length - ([(a : Int), c.fp].length : Nat) =
          c.fp + Γ.nextLocal - 1 by rw [List.length_cons, List.length_singleton]; omega] at hat
      obtain ⟨hΓ', hn'⟩ := hΓ.declare hn hds.fits rfl hdecl htyped hrep rfl rfl
      refine .straight hpush (code_plain _) hs.left rfl
        ((ih hds hfun' hcls' hcds hs.right hlt hΓ' fun _ => hn').mono ?_)
      rintro env' c' ⟨hΓ'', hfp', locals, hlen, hstack'⟩
      refine ⟨hΓ'', hfp', locals ++ [↑a, c.fp], ?_, by rw [hstack', List.append_assoc]; rfl⟩
      rw [Tables.frameWords_cons hdecl.entry, List.length_append, hlen, Nat.add_comm]
      rfl
    | cls cls => exact absurd List.mem_cons_self (hcls cls)

/-! ## Calls -/

theorem FunDecl.zip_params {f : FunDecl} {types : List Ty} (h : f.params.length = types.length) :
    (f.params.zip types).map Prod.snd = types ∧
      (f.params.zip types).map (·.1.name.text) = f.params.map (·.name.text) := by
  refine ⟨List.map_snd_zip (Nat.le_of_eq h.symm), ?_⟩
  rw [show (fun p : Param × Ty => p.1.name.text) = (·.name.text) ∘ Prod.fst from rfl, ← List.map_map,
    List.map_fst_zip (Nat.le_of_eq h)]

/-- When a function has set up its frame, its parameters lie above the link to the frame around it and the
next slot is that of its first local declaration. -/
theorem Image.Scoped.enter {f : FunDecl} {Γ Γ' : Env} {a : Nat} (hf : I.Function f Γ Γ' a)
    {outer : List Frame} {args : List Value} {words : List (List Int)} {c : Snapshot} {link : Int}
    {ws : List Int} (htyped : Frame.AllFit I.tables outer Γ'.scopes.scopes)
    (hlies : I.Lies (I.cells c) outer Γ'.scopes.scopes link)
    (hargs : List.Forall₂ (Value.HasType I.tables) args (f.signature Γ.classes).params)
    (hreps : List.Forall₂ (I.Rep (I.cells c)) args words) (hs : c.stack = link :: (words.flatten ++ ws))
    {c₁ : Snapshot} {ra : Int} (hs₁ : c₁.stack = ra :: c.stack)
    (hf₁ : c₁.fp = I.target.memory - c.stack.length) (n : Nat) :
    I.Scoped (f.inner Γ' (f.signature Γ.classes).params)
        (⟨.activation n, ((f.params.map (·.name.text)).zip (args.map Binding.value)).reverse⟩ :: outer) c₁ ∧
      I.NextSlot (f.inner Γ' (f.signature Γ.classes).params) c₁ := by
  obtain ⟨hrec, hdecls, -⟩ := hf.checked.body I.lineal
  obtain ⟨hsnd, hfst⟩ := FunDecl.zip_params hf.checked.length
  have hargs' := hargs
  rw [← hsnd] at hargs'
  have hpush : ∀ x y, I.cells c x y → I.cells c₁ x y := by
    intro x y h
    rw [cells, hs₁]
    exact h.push ra
  have hempty : Frame.AllFit I.tables (⟨.activation n, []⟩ :: outer) Γ'.enterFrame.scopes.scopes := by
    refine .cons (fun n => ?_) (fun n e b he _ => ?_) htyped
    · simp [Frame.lookup?]
    · simp at he
  -- The word at the base of the new frame is the link, the return address comes below it and the arguments
  -- above.
  have hlink : I.cells c₁ c₁.fp link := by
    refine ⟨1, by rw [hs₁, hs]; rfl, ?_⟩
    rw [hf₁, hs₁, List.length_cons]
    omega
  have hempty' : I.Lies (I.cells c₁) (⟨.activation n, []⟩ :: outer) Γ'.enterFrame.scopes.scopes c₁.fp := by
    refine .cons (fun n e b he _ => ?_) (fun _ => hlink) (hlies.mono hpush)
    simp at he
  have hwords : WordsAt (I.cells c₁) (c₁.fp + Env.firstParam) words.flatten := by
    have hat := Target.StackCell.wordsAt (T := I.target) ([ra, link] ++ words.flatten) ws
    have hsplit : c₁.stack = ([ra, link] ++ words.flatten) ++ ws := by rw [hs₁, hs]; simp
    rw [← hsplit] at hat
    have hright := hat.right
    rwa [show I.target.memory - ws.length - ([ra, link] ++ words.flatten).length + ([ra, link].length : Nat) =
      c₁.fp + Env.firstParam by rw [hf₁, hs, Env.firstParam]; simp; omega] at hright
  have htyped₁ := Frame.AllFit.declareParams hargs' hrec hempty
  have hlies₁ := Lies.declareParams hargs' (hreps.imp fun _ _ h => h.mono hpush) hwords hrec hempty'
  rw [hfst, List.append_nil] at htyped₁ hlies₁
  refine ⟨⟨hdecls.fits, htyped₁, hlies₁⟩, ?_⟩
  rw [NextSlot, FunDecl.inner, Env.nextLocal_declareParams, hf₁, hs₁, List.length_cons]
  change (_ : Int) + Env.firstLocal + _ + 1 = _
  rw [Env.firstLocal]
  omega

/-- Arguments take as many words as the types of the parameters say. -/
theorem Image.length_words {args : List Value} {words : List (List Int)} {types : List Ty}
    {M : Int → Int → Prop} (hreps : List.Forall₂ (I.Rep M) args words)
    (hargs : List.Forall₂ (Value.HasType I.tables) args types) :
    words.flatten.length = TyOf.totalWords types := by
  induction hreps generalizing types with
  | nil =>
    cases hargs
    rfl
  | cons hrep _ ih =>
    cases hargs with
    | cons hty htys =>
      rw [List.flatten_cons, List.length_append, ih htys, hrep.length, hty.words_eq, TyOf.totalWords]

theorem Signature.ty_inj {a b : Signature} (h : a.ty = b.ty) : a = b := by
  have h := congrArg Ty.signature? h
  rwa [Ty.signature?_ty, Ty.signature?_ty, Option.some.injEq] at h

/-- A function whose calls are served serves its callers. -/
theorem Image.serves_invoke (ht : call.Sound I.tables) (hcall : I.Serves call) :
    I.Serves (FunDecl.invoke I.target.wrap call) := by
  intro f Γ Γ' a r outer args words c link ctl ws hf htyped hlies hargs hreps hstack hra hr
  obtain ⟨-, hdecls, hfits, hbody, hret⟩ := hf.checked.body I.lineal
  obtain ⟨ty, hty⟩ := hbody.exists_type hfits
  obtain ⟨code, hcode, hs⟩ := hf.code
  cases hcode with
  | @mk _ e sig ds bs he hsig hds hbs =>
  have hsame : f.signature Γ.classes = sig :=
    Signature.ty_inj ((congrArg Entry.ty (Option.some.inj (hf.declares.entry.symm.trans he))).trans hsig)
  subst hsame
  have hhead : Listing.size (⟨.copyFp, some (.entered f.id)⟩ :: ⟨.load .ra, none⟩ :: ds) = 2 + ds.size := by
    rw [Listing.size_executed rfl, Listing.size_executed rfl]
    omega
  rw [show (f.signature Γ.classes).returnsFunction = false from I.firstOrder hf.mem _, epilogue_eq,
    plain_append] at hs
  have hle := hs.le
  -- The parts of the code: the prologue, the local declarations, the body, and the end that takes the frame
  -- down.
  have hprologue := hs.left.left
  have hlocals := (hprologue.next rfl).next rfl
  have hresult := hs.left.right
  have hleave := hs.right.left
  have hjump := hs.right.right
  simp only [Listing.size_append, hhead, ← Nat.add_assoc] at hle hresult hleave hjump
  have hone : Listing.size (plain [.jump]) = 1 := rfl
  have hlen : f.params.length = args.length := by rw [hf.checked.length, hargs.length_eq]
  rw [FunDecl.invoke, if_pos hlen]
  let c₁ : Snapshot := { c with stack := c.ra :: c.stack, fp := I.target.memory - c.stack.length }
  refine .lead ((Target.Leads.of_moves hprologue rfl Moves.copyFp).trans
    (.of_moves (hprologue.next rfl) rfl (Moves.load .ra))) rfl ?_
  refine .skip (fun h => ⟨_, _, _, rfl, rfl⟩) fun n => ?_
  obtain ⟨hΓ₁, hn⟩ := Scoped.enter hf htyped hlies hargs hreps hstack
    (show c₁.stack = c.ra :: c.stack from rfl) rfl n
  refine (Decl.implements_evalAll ht hcall f.decls hdecls (fun g hg => hf.mem.inner hg)
    (hdecls.cls_notMem I.lineal (FunDecl.level_inner_ne_zero f hf.checked.fits _)) hds hlocals (by omega)
    hΓ₁ fun _ => hn).bind ?_
  rintro env c₂ ⟨hΓ₂, hfp₂, locals, hlocalWords, hstack₂⟩
  rw [show a + 1 + 1 + ds.size = a + 2 + ds.size by omega]
  refine ((Expr.implemented ht hcall hbody hbs hresult (by omega) hΓ₂).and_sound
    (Expr.sound I.lineal ht hfits hΓ₂.typed hbody ty hty)).bind ?_
  rintro v c₃ ⟨htyped₃, words', hrep, hstack₃, hfp₃⟩
  -- The result is no function, so it is one word, which means the same when the frame is gone.
  obtain ⟨w, rfl, hany⟩ := hrep.single (htyped₃.sub I.lineal (hret ty hty)) (I.firstOrder hf.mem _)
  refine .skip (fun h => ⟨_, _, _, rfl, rfl⟩) fun _ => ?_
  have hstack' : c₃.stack = w :: (locals ++ (r : Int) :: link :: (words.flatten ++ ctl :: ws)) := by
    rw [hstack₃, hstack₂]
    change [w] ++ (locals ++ c.ra :: c.stack) = _
    rw [hstack, hra]
    rfl
  rw [← hlocalWords, Signature.paramWords, ← length_words hreps hargs] at hleave hjump
  rw [← Snapshot.eta_stack hstack']
  have hleads := ((Straight.leaveFrame (T := I.target) c₃ w r link ctl locals words.flatten ws).leads
    (code_plain _) hleave).trans (.jump (c := { c₃ with fp := ctl, tm := w, ra := r }) (w :: ws) hjump hr)
  exact .lead hleads rfl (.pure ⟨w, hany, rfl, rfl⟩)

/-- With any depth of calls, calls run the code of functions. -/
theorem Image.serves_call (I : Image) (fuel : Nat) : I.Serves (FunDecl.call I.target.wrap fuel) := by
  induction fuel with
  | zero =>
    intro f Γ Γ' a r outer args words c link ctl ws _ _ _ _ _ _ _ _
    exact .done nofun
  | succ fuel ih => exact serves_invoke (FunDecl.sound_call I.lineal fuel) ih

end ObjLet
