import ObjLet.Proofs.Links.Objects
import ObjLet.Proofs.Links.Operators

/-!
# Expressions

The machine keeps track of every clean expression (`Expr.tracked`), provided that it keeps track of the calls in it
(`Loaded.Serves`). A name is read through the way to its place, the words of a function value by two ways;
arguments are pushed one after another.
-/

namespace ObjLet

open Code Eval Loaded

variable {L : Loaded} {fuel : Nat} {call : Caller} {Γ : Env} {env : List Frame} {p q : Stage}

namespace Loaded

/-- The word that an offset leads to is pushed, unless the way crosses an object. -/
theorem Tracks.read {β : Type} {e : Entry} {i : Nat} {v : Value} {f : Frame} {base offset w : Int} {k : Unit → Eval β}
    {Q : β → Stage → Prop} (h : L.Found env p e i (.value v) f base) (hp : L.Stands p) {site : NodeId} {level : Nat}
    (huse : L.tables.UsedAt site ⟨e, level⟩) (hk : e.kind ≠ .method)
    (hw : p.snapshot.Cell L.target (base + offset) w)
    (hs : L.listing.Sits p.ip (walk site i ++ plain (loadAt offset)))
    (hf : L.Tracks fuel { p with
      ip := p.ip + Listing.size (walk site i ++ plain (loadAt offset)), snapshot := p.snapshot.push w } (k ()) Q) :
    L.Tracks fuel p (Eval.reach site env i v >>= k) Q := by
  refine .reach h hs (fun s hs W hW => h.shown hp huse hk hs hW) (.pass ((Straight.loadAt hw).goes hs.right) ?_)
  rwa [Listing.size_append, ← Nat.add_assoc] at hf

/-- A class is found in a place where its dispatch table is. -/
theorem Lies.findClass? {W : Ledger} {name : String} {lineage : List ClassValue} :
    ∀ {env : List Frame} {scopes : List Scope}, Frame.AllFit L.tables env scopes → L.Lies W env scopes →
      Frame.findClass? name env = some lineage → ∃ e c d, Binding.Fits L.tables name (.cls lineage) e ∧ e.ty = .cls c ∧
        L.Heritage W lineage (some c) ∧ W.word 0 e.offset d ∧ L.TableAt W.heap c d := by
  intro env
  induction env with
  | nil => exact fun _ _ h => nomatch h
  | cons f env ih =>
    intro scopes hfit hlies h
    cases hfit with
    | @cons _ s _ scopes hn hb hrest =>
    cases hlies with
    | cons _ hbinds _ hlies =>
    rw [Frame.findClass?, List.findSome?_cons] at h
    split at h
    · next lineage' hl =>
      cases h
      obtain ⟨b, hlook, hb'⟩ := Option.bind_eq_some_iff.1 hl
      obtain ⟨e, he⟩ := Option.isSome_iff_exists.1 ((hn name).symm.trans (by rw [hlook]; rfl))
      have hfits := hb name e b he hlook
      have hat := hbinds name e b he hlook
      obtain ⟨place, bindings⟩ := f
      cases hat with
      | value | method => cases hb'
      | cls hl hty hd ht =>
        cases hb'
        exact ⟨e, _, _, hfits, hty, hl, hd, ht⟩
    · exact ih hrest hlies h

/-- A class of the scopes has its dispatch table in the outermost activation. -/
theorem Framed.findClass? {scopes : List Scope} {base : Int} (h : L.Framed scopes env p base) {name : String}
    {e : Entry} (he : (ScopeStack.mk scopes).lookupClass? name = some e) :
    ∃ lineage c d, Frame.findClass? name env = some lineage ∧ e.declaredClass? = some c ∧
      L.Heritage p.ledger lineage (some c) ∧ p.ledger.word 0 e.offset d ∧ L.TableAt p.ledger.heap c d := by
  obtain ⟨cv, ancestors, c, hfind, hty, hd, hl⟩ := h.typed.findClass? he
  obtain ⟨e', c', d, hfits, hty', hl', hw, ht⟩ := h.lies.findClass? h.typed hfind
  cases hfits with
  | cls hk _ hd' _ =>
  cases hd.symm.trans hd'
  exact ⟨_, c', d, hfind, by rw [Entry.declaredClass?, hk, hty'], hl', hw, ht⟩

end Loaded

namespace Expr

/-! ## Names -/

/-- The walk along the links of a name is marked, and it ends at the place where evaluation finds the name. -/
theorem tracked_ident {id : NodeId} {name : Name} (h : (Expr.ident id name).Checked L.tables Γ) :
    (Expr.ident id name).Tracked L fuel call Γ env := by
  intro code p hc hs hlt hΓ hp
  cases hc with
  | @ident _ _ use huse =>
  obtain ⟨e, he, huse', hk⟩ := h.ident
  cases huse.symm.trans huse'
  obtain ⟨b, f, base, hfind, hb, hfound⟩ := hΓ.find? hp he
  have hmethod : e.kind ≠ .method := fun hm => by rw [hm] at hk; cases hk
  cases hb with
  | method hm => exact absurd hm hmethod
  | cls hm _ _ _ => rw [hm] at hk; cases hk
  | @value _ v _ _ hty =>
  obtain ⟨ws, hrep, hw⟩ := hfound.cells hp
  rw [Expr.eval, hfind]
  rw [← hty.words_eq, ← hrep.length, readValue] at hs ⊢
  -- A function value is read in two goes, each of which follows the links anew.
  obtain hone | htwo := hrep.words_cases
  · obtain ⟨x, rfl⟩ := List.length_eq_one_iff.1 hone
    have hx := hw 0 x rfl
    rw [show base + e.offset + 1 - ([x].length : Nat) + (0 : Nat) = base + e.offset by simp] at hx
    refine .read hfound hp (.inl huse) hmethod hx hs.left ?_
    have hone : ¬[x].length = 2 := by simp
    rw [if_neg (hrep.length ▸ hone), if_neg hone, List.append_nil]
    exact .pure (.of_stack hp hp (.refl _ _) _ hrep rfl rfl rfl)
  · obtain ⟨x, y, rfl⟩ := List.length_eq_two.1 htwo
    have hx := hw 0 x rfl
    have hy := hw 1 y rfl
    rw [show base + e.offset + 1 - ([x, y].length : Nat) + (0 : Nat) = base + (e.offset - 1) by simp; omega] at hx
    rw [show base + e.offset + 1 - ([x, y].length : Nat) + (1 : Nat) = base + e.offset by simp; omega] at hy
    refine .read hfound hp (.inl huse) hmethod hy hs.left ?_
    have hagain := hs.right
    rw [if_pos htwo] at hagain ⊢
    rw [if_pos (hrep.length.symm.trans htwo), Listing.size_append _ (walk _ _ ++ _), ← Nat.add_assoc]
    refine .read (p := { p with ip := _, snapshot := p.snapshot.push y }) (hfound.above [y] rfl rfl)
      (hp.above [y] rfl rfl) (.inl huse) hmethod (hx.push y) hagain ?_
    exact .pure (.of_stack hp hp (.refl _ _) _ hrep rfl rfl rfl)

/-! ## Arguments -/

/-- Arguments are pushed, the last one first. -/
theorem tracks_lastFirst {args : List Expr} {codes : List Listing}
    (hc : List.Forall₂ (Expr.Coded L.tables L.target.memory) args codes) :
    (∀ a ∈ args, a.Tracked L fuel call Γ env) → ∀ {p : Stage}, L.listing.Sits p.ip codes.reverse.flatten →
      p.ip + Listing.size codes.reverse.flatten < L.listing.size → L.Scoped Γ env p → L.Stands p →
      L.Tracks fuel p (evalLastFirst L.target.wrap call env args) fun vs =>
        L.Pushes p (p.ip + Listing.size codes.reverse.flatten) p.snapshot.fp p.snapshot.stack fun W ws =>
          ∃ words, List.Forall₂ (L.Rep W) vs words ∧ ws = words.flatten := by
  induction hc with
  | nil =>
    intro _ p _ _ _ hp
    exact .pure (.of_stack hp hp (.refl _ _) [] ⟨[], .nil, rfl⟩ rfl rfl rfl)
  | @cons a code args codes ha _ ih =>
    intro hall p hs hlt hΓ hp
    obtain ⟨hfirst, hrest⟩ := List.forall_mem_cons.1 hall
    have hflat : (code :: codes).reverse.flatten = codes.reverse.flatten ++ code := by simp
    rw [hflat] at hs hlt ⊢
    rw [Listing.size_append, ← Nat.add_assoc] at hlt ⊢
    refine (ih hrest hs.left (by omega) hΓ hp).bind fun vs q _ hq => ?_
    obtain ⟨_, ⟨words, hreps, rfl⟩, hstack⟩ := hq.words
    have hright := hs.right
    rw [← hq.ip] at hright hlt ⊢
    refine (hfirst ha hright hlt (hq.scope hΓ) hq.stands).bind fun v r hle hr => ?_
    obtain ⟨ws, hrep, hstack'⟩ := hr.words
    refine .pure ⟨hr.ip, hr.fp.trans hq.fp, hr.stands, hq.follows.next hr.follows, _,
      ⟨ws :: words, .cons hrep (hreps.imp fun _ _ h => h.mono hle), rfl⟩, ?_⟩
    rw [hstack', hstack, List.flatten_cons, List.append_assoc]

/-- Values of fields are pushed, the first one first. -/
theorem tracks_firstLast {args : List Expr} {codes : List Listing}
    (hc : List.Forall₂ (Expr.Coded L.tables L.target.memory) args codes) :
    (∀ a ∈ args, a.Tracked L fuel call Γ env) → ∀ {p : Stage}, L.listing.Sits p.ip codes.flatten →
      p.ip + Listing.size codes.flatten < L.listing.size → L.Scoped Γ env p → L.Stands p →
      L.Tracks fuel p (evalFirstLast L.target.wrap call env args) fun vs =>
        L.Pushes p (p.ip + Listing.size codes.flatten) p.snapshot.fp p.snapshot.stack fun W ws =>
          ∃ words, List.Forall₂ (L.Rep W) vs words ∧ ws = words.reverse.flatten := by
  induction hc with
  | nil =>
    intro _ p _ _ _ hp
    exact .pure (.of_stack hp hp (.refl _ _) [] ⟨[], .nil, rfl⟩ rfl rfl rfl)
  | @cons a code args codes ha _ ih =>
    intro hall p hs hlt hΓ hp
    obtain ⟨hfirst, hrest⟩ := List.forall_mem_cons.1 hall
    rw [List.flatten_cons] at hs hlt ⊢
    rw [Listing.size_append, ← Nat.add_assoc] at hlt ⊢
    refine (hfirst ha hs.left (by omega) hΓ hp).bind fun v q _ hq => ?_
    obtain ⟨ws, hrep, hstack⟩ := hq.words
    have hright := hs.right
    rw [← hq.ip] at hright hlt ⊢
    refine (ih hrest hright hlt (hq.scope hΓ) hq.stands).bind fun vs r hle hr => ?_
    obtain ⟨_, ⟨words, hreps, rfl⟩, hstack'⟩ := hr.words
    refine .pure ⟨hr.ip, hr.fp.trans hq.fp, hr.stands, hq.follows.next hr.follows, _,
      ⟨ws :: words, .cons (hrep.mono hle) hreps, rfl⟩, ?_⟩
    rw [hstack', hstack]
    simp

/-! ## Calls and objects -/

/-- The frame register is saved and the arguments of a call are pushed; the saved word is below them. -/
theorem tracks_arguments (ht : call.Sound L.tables) {args : List Expr} {codes : List Listing} {params : List Ty}
    (hcodes : List.Forall₂ (Expr.Coded L.tables L.target.memory) args codes)
    (hclean : ∀ a ∈ args, a.Checked L.tables Γ) (hfit : ArgsFit L.tables args params)
    (hargs : ∀ a ∈ args, a.Tracked L fuel call Γ env) {rest : Listing}
    (hs : L.listing.Sits p.ip ((⟨.load .fp, none⟩ :: codes.reverse.flatten) ++ rest))
    (hlt : p.ip + Listing.size ((⟨.load .fp, none⟩ :: codes.reverse.flatten) ++ rest) < L.listing.size)
    (hΓ : L.Scoped Γ env p) (hp : L.Stands p) {β : Type} {k : List Value → Eval β} {Q : β → Stage → Prop}
    (hk : ∀ vs words q, List.Forall₂ (Value.HasType L.tables) vs params → List.Forall₂ (L.Rep q.ledger) vs words →
      L.Stands q → L.Stands (q.under p.snapshot.stack) → p.Follows p.history.live q → L.Scoped Γ env q →
      q.snapshot.stack = words.flatten ++ p.snapshot.fp :: p.snapshot.stack → L.listing.Sits q.ip rest →
      q.ip + rest.size = p.ip + Listing.size ((⟨.load .fp, none⟩ :: codes.reverse.flatten) ++ rest) →
      L.Tracks fuel q (k vs) Q) :
    L.Tracks fuel p (evalLastFirst L.target.wrap call env args >>= k) Q := by
  have hsize : Listing.size ((⟨.load .fp, none⟩ :: codes.reverse.flatten) ++ rest) =
      1 + Listing.size codes.reverse.flatten + rest.size := by rw [Listing.size_append, Listing.size_executed rfl]
  have hway := hs.right
  rw [Listing.size_executed rfl, ← Nat.add_assoc] at hway
  rw [hsize] at hlt hk
  refine .pass (.of_moves hs.left rfl (Moves.load .fp)) ?_
  -- The control link is pushed first and lies below the arguments.
  let p₀ : Stage := { p with ip := p.ip + 1, snapshot := p.snapshot.push p.snapshot.fp }
  have hp₀ : L.Stands p₀ := hp.above [p.snapshot.fp] rfl rfl
  have hmoved : p.Follows p.history.live p₀ := .moved ..
  have hΓ₀ : L.Scoped Γ env p₀ := hΓ.follows hmoved rfl
  have hlt₀ : p₀.ip + Listing.size codes.reverse.flatten < L.listing.size := by
    change p.ip + 1 + _ < _
    omega
  refine ((tracks_lastFirst hcodes hargs (p := p₀) (hs.left.next rfl) hlt₀ hΓ₀ hp₀).and_sound
    (sound_evalLastFirst L.lineal hΓ.fits hclean hfit fun a ha =>
      Expr.sound L.lineal ht hΓ.fits hΓ.framed.typed (hclean a ha))).bind ?_
  rintro vs q - ⟨htypes, hq⟩
  obtain ⟨_, ⟨words, hreps, rfl⟩, hstack⟩ := hq.words
  have hip : q.ip = p.ip + 1 + Listing.size codes.reverse.flatten := hq.ip
  rw [← hip] at hway
  have hfollows : p.Follows p.history.live q := hmoved.trans hq.follows
  exact hk vs words q htypes hreps hq.stands (hp.restack hq.stands hfollows [] rfl rfl) hfollows (hq.scope hΓ₀) hstack
    hway (by omega)

/-- The arguments, the walk to the callee's frame and the jump; from there on the callee is tracked by
hypothesis. -/
theorem tracked_call (ht : call.Sound L.tables) (hcall : L.Serves fuel call) {id : NodeId} {callee : Name}
    {args : List Expr} {span : Span} (h : (Expr.call id callee args span).Checked L.tables Γ)
    (hargs : ∀ a ∈ args, a.Tracked L fuel call Γ env) :
    (Expr.call id callee args span).Tracked L fuel call Γ env := by
  intro code p hc hs hlt hΓ hp
  cases hc with
  | @call _ _ _ _ use codes huse hcodes =>
  obtain ⟨e, sig, he, huse', hsig, hclean, hfit⟩ := h.call
  cases huse.symm.trans huse'
  rw [List.append_assoc] at hs hlt ⊢
  rw [Expr.eval]
  refine tracks_arguments ht hcodes hclean hfit hargs hs hlt hΓ hp
    fun vs words q htypes hreps hq hclear hfollows hΓ' hstack hway hend => ?_
  rw [← hend, Listing.size_append, ← Nat.add_assoc] at hlt ⊢
  obtain ⟨b, f, base, hfind, hb, hfound⟩ := hΓ'.find? hq he
  rw [hfind]
  cases hb with
  | @value _ v _ hk hty =>
    rw [hsig] at hty
    obtain ⟨g, outer, -, -, -, rfl, -⟩ := hty.arrow
    have hmethod : e.kind ≠ .method := fun hm => by rw [hm] at hk; cases hk
    refine .reach hfound hway (fun s hs W hW => hfound.shown hq (.inl huse) hmethod hs hW) ?_
    refine (Tracks.callValue hcall hmethod hty hfound htypes hreps hclear hstack hway.right hlt id).mono ?_
    exact fun v r _ hr => hr.after hfollows
  -- => An unqualified call of a method goes through the object in whose scope the name was found.
  | @method _ _ e' oid lineage fields c cls hk ho hc hmem hk' hoff hsub =>
    rw [hsig] at hsub
    have hentry : callEntry e = dispatchCall e.offset := if_pos hk
    rw [hentry] at hway hlt ⊢
    refine .reach hfound hway (fun s hs W hW => hfound.shown_self (.inl huse) hk hs hW) ?_
    refine (Tracks.callMethod hcall ho hc hmem hk' hsub hoff hfound.self htypes hreps hclear hstack hway.right
      hlt).mono ?_
    exact fun v r _ hr => hr.after hfollows
  | cls _ hty _ _ =>
    rw [hsig] at hty
    cases hty

/-- The words of the arguments become the fields of the new object in reverse, and its creation is marked. -/
theorem tracked_new (ht : call.Sound L.tables) {id : NodeId} {cls : Name} {args : List Expr} {span : Span}
    (h : (Expr.new id cls args span).Checked L.tables Γ) (hargs : ∀ a ∈ args, a.Tracked L fuel call Γ env) :
    (Expr.new id cls args span).Tracked L fuel call Γ env := by
  intro code p hc hs hlt hΓ hp
  obtain ⟨e, c, l, he, huse', hc', hl', hclean, hfit⟩ := h.new hΓ.fits
  cases hc with
  | @new _ _ _ _ use c layout codes huse hclass hlayout hcodes =>
  cases huse.symm.trans huse'
  cases hclass.symm.trans hc'
  cases hlayout.symm.trans hl'
  rw [Listing.size_append, ← Nat.add_assoc] at hlt ⊢
  rw [Expr.eval]
  refine ((tracks_firstLast hcodes hargs hs.left (by omega) hΓ hp).and_sound
    (sound_evalFirstLast L.lineal hΓ.fits hclean hfit fun a ha =>
      Expr.sound L.lineal ht hΓ.fits hΓ.framed.typed (hclean a ha))).bind ?_
  rintro vs q - ⟨htypes, hq⟩
  obtain ⟨_, ⟨words, hreps, rfl⟩, hstack⟩ := hq.words
  obtain ⟨lineage, c', d, hfind, hclass', hl, hd, htable⟩ := (hq.scope hΓ).framed.findClass? he
  cases hclass.symm.trans hclass'
  obtain ⟨final, hfinal⟩ := hl.fits.class?
  obtain ⟨ms, hlaid, -⟩ := hl.fits.laid L.lineal hfinal
  rw [ClassTable.layout?, hfinal] at hlayout
  cases hlayout
  have hlen : (ClassValue.fieldNames lineage).length = vs.length := by rw [hlaid.length_fields, htypes.length_eq]
  refine .orStuck hfind ?_
  rw [if_pos hlen]
  -- The arguments are pushed in order, so their words lie in the reversed order on the stack.
  have hwords : final.layout.fieldWords = words.reverse.flatten.length := by
    rw [ClassLayout.fieldWords, ← length_flatten_values (length_reverse_words hreps htypes),
      ← reverse_flatten_reverse, List.length_reverse]
  have hright := hs.right
  rw [hwords, ← hq.ip] at hright
  rw [hwords, ← hq.ip]
  exact .create hp hq.stands hq.follows hl hfinal hd htable htypes hreps hstack hq.fp hright

/-- The walk leads to the variable that holds the object, and the code is taken from the table the object was
made with. -/
theorem tracked_methodCall (ht : call.Sound L.tables) (hcall : L.Serves fuel call) {id : NodeId} {object method : Name}
    {args : List Expr} {span : Span} (h : (Expr.methodCall id object method args span).Checked L.tables Γ)
    (hargs : ∀ a ∈ args, a.Tracked L fuel call Γ env) :
    (Expr.methodCall id object method args span).Tracked L fuel call Γ env := by
  intro code p hc hs hlt hΓ hp
  obtain ⟨e, c, m, sig, he, hec, hm, hk, hsig, hmc', hclean, hfit⟩ := h.methodCall hΓ.fits
  cases hc with
  | @methodCall _ _ _ _ _ use codes hmc hcodes =>
  cases hmc.symm.trans hmc'
  rw [plain_append, List.append_assoc, ← List.append_assoc (walk _ _)] at hs hlt ⊢
  rw [Expr.eval]
  refine tracks_arguments ht hcodes hclean hfit hargs hs hlt hΓ hp
    fun vs words q htypes hreps hq hclear hfollows hΓ' hstack hway hend => ?_
  rw [← hend, Listing.size_append, ← Nat.add_assoc] at hlt ⊢
  obtain ⟨b, f, base, hfind, hb, hfound⟩ := hΓ'.find? hq he
  rw [hfind]
  cases hb with
  | method hk' =>
    obtain ⟨sig', hsig'⟩ := (hΓ.fits.lookup? he).callable (.inr hk')
    rw [hec] at hsig'
    cases hsig'
  | cls _ hty _ _ =>
    rw [hec] at hty
    cases hty
  | @value _ v _ hkind hty =>
  rw [hec] at hty
  have hmethod : e.kind ≠ .method := fun hm => by rw [hm] at hkind; cases hkind
  have hused : L.tables.UsedAt id ⟨e, Γ.level⟩ := .inr ⟨_, hmc, rfl⟩
  obtain ⟨ws, hrep, hw⟩ := hfound.cells hq
  have hone : ∀ {w : Int}, ws = [w] → q.snapshot.Cell L.target (base + e.offset) w := by
    rintro w rfl
    have hx := hw 0 w rfl
    rwa [show base + e.offset + 1 - ([w].length : Nat) + (0 : Nat) = base + e.offset by simp] at hx
  obtain rfl | ⟨oid, lineage, fields, d, rfl, ho, hdesc⟩ := hty.ref
  · cases hrep
    refine .read hfound hq hused hmethod (hone rfl) hway.left ?_
    exact .callNull rfl hway.right
  · have hself := hrep
    cases hrep with
    | object =>
    -- The method of the static class is refined by that of the class of the object.
    obtain ⟨cls, hcls, hmem⟩ : ∃ cls, Γ.classes.class? c = some cls ∧ cls.members[method.text]? = some m := by
      simp only [ClassTable.member?, ClassTable.members?, Option.bind_eq_some_iff, Option.map_eq_some_iff] at hm
      obtain ⟨_, ⟨cls, hcls, rfl⟩, hmem⟩ := hm
      exact ⟨cls, hcls, hmem⟩
    obtain ⟨clsC, hclsC, -, hrefC⟩ := hΓ.fits.classes hcls
    have hlineage : ClassValue.LineageFits L.tables lineage d := by
      cases ho with
      | mk hl _ _ _ => exact hl
    obtain ⟨clsD, hclsD⟩ := hlineage.class?
    obtain ⟨m', hm', hk', -, hoff', hsub'⟩ :=
      (hrefC.trans L.lineal (hlineage.refines_of_descends L.lineal hdesc hclsD hclsC)) _ _ hmem
    rw [hsig] at hsub'
    refine .read hfound hq hused hmethod (hone rfl) hway.left ?_
    refine (Tracks.callMethod hcall ho hclsD hm' (hk'.trans hk) hsub' hoff' hself htypes hreps hclear hstack hway.right
      hlt).mono ?_
    exact fun v r _ hr => hr.after hfollows

/-! ## All expressions -/

/-- What fits `int` evaluates to a number or not at all, so operators are never applied to anything else. -/
theorem Checked.eval_int? (ht : call.Sound L.tables) (hΓ : Γ.Fits L.tables)
    (henv : Frame.AllFit L.tables env Γ.scopes.scopes) {e : Expr} (h : e.Checked L.tables Γ)
    (hfit : ∀ ty, e.type? L.tables = some ty → L.tables.classes.isSubtype ty .int) :
    Eval.Sound (e.eval L.target.wrap call env) fun v => ∃ n, v.int? = some n :=
  (Expr.sound L.lineal ht hΓ henv h).int? L.lineal hΓ h hfit

/-- What fits `bool` evaluates to a truth value or not at all. -/
theorem Checked.eval_bool? (ht : call.Sound L.tables) (hΓ : Γ.Fits L.tables)
    (henv : Frame.AllFit L.tables env Γ.scopes.scopes) {e : Expr} (h : e.Checked L.tables Γ)
    (hfit : ∀ ty, e.type? L.tables = some ty → L.tables.classes.isSubtype ty .bool) :
    Eval.Sound (e.eval L.target.wrap call env) fun v => ∃ b, v.bool? = some b :=
  (Expr.sound L.lineal ht hΓ henv h).bool? L.lineal hΓ h hfit

/-- The machine keeps track of clean expressions, where it does so of calls. -/
theorem tracked (ht : call.Sound L.tables) (hcall : L.Serves fuel call) (hΓ : Γ.Fits L.tables)
    (henv : Frame.AllFit L.tables env Γ.scopes.scopes) {e : Expr} (h : e.Checked L.tables Γ) :
    e.Tracked L fuel call Γ env := by
  induction e using Expr.induction with
  | literal value span => exact tracked_literal
  | ident id name => exact tracked_ident h
  | call id callee args span ih =>
    obtain ⟨_, _, _, _, _, hargs, _⟩ := h.call
    exact tracked_call ht hcall h fun a ha => ih a ha (hargs a ha)
  | new id cls args span ih =>
    obtain ⟨_, _, _, _, _, _, _, hargs, _⟩ := h.new hΓ
    exact tracked_new ht h fun a ha => ih a ha (hargs a ha)
  | methodCall id object method args span ih =>
    obtain ⟨_, _, _, _, _, _, _, _, _, _, hargs, _⟩ := h.methodCall hΓ
    exact tracked_methodCall ht hcall h fun a ha => ih a ha (hargs a ha)
  | binary op left right span ihl ihr =>
    obtain ⟨hl, hr, -⟩ := h.binary
    intro code p hc hs hlt hΓ' hp
    cases hc with
    | @arith _ _ _ _ _ _ i hop hcl hcr =>
      have hwant : op.operandType? = some .int := by
        cases op <;> first | rfl | cases hop
      obtain ⟨hfl, hfr⟩ := h.operands hwant
      exact tracks_arith hop (ihl hl) (ihr hr) (hl.eval_int? ht hΓ henv hfl) (hr.eval_int? ht hΓ henv hfr) hcl hcr hs
        hlt hΓ' hp
    | equal _ _ hcl hcr =>
      obtain ⟨a, b, ha, hb, hab⟩ := h.comparable hΓ
      exact tracks_equal (ihl hl) (ihr hr) (Expr.sound L.lineal ht hΓ henv hl a ha)
        (Expr.sound L.lineal ht hΓ henv hr b hb) hab hcl hcr hs hlt hΓ' hp
    | lessEqual _ _ hcl hcr =>
      obtain ⟨hfl, hfr⟩ := h.operands rfl
      exact tracks_lessEqual (ihl hl) (ihr hr) (hl.eval_int? ht hΓ henv hfl) (hr.eval_int? ht hΓ henv hfr) hcl hcr hs
        hlt hΓ' hp
    | greaterEqual _ _ hcl hcr =>
      obtain ⟨hfl, hfr⟩ := h.operands rfl
      exact tracks_lessEqual (ihr hr) (ihl hl) (hr.eval_int? ht hΓ henv hfr) (hl.eval_int? ht hΓ henv hfl) hcr hcl hs
        hlt hΓ' hp
    | and _ _ hcl hcr =>
      obtain ⟨hfl, hfr⟩ := h.operands rfl
      rw [eval_and]
      exact tracks_shortCircuit false (ihl hl) (ihr hr) (hl.eval_bool? ht hΓ henv hfl) (hr.eval_bool? ht hΓ henv hfr)
        hcl hcr hs hlt hΓ' hp
    | or _ _ hcl hcr =>
      obtain ⟨hfl, hfr⟩ := h.operands rfl
      exact tracks_shortCircuit true (ihl hl) (ihr hr) (hl.eval_bool? ht hΓ henv hfl) (hr.eval_bool? ht hΓ henv hfr)
        hcl hcr hs hlt hΓ' hp
  | unary op operand span ih =>
    obtain ⟨ho, hfit⟩ := h.unary
    intro code p hc hs hlt hΓ' hp
    cases hc with
    | not _ _ hcl => exact tracks_not (ih ho) (ho.eval_bool? ht hΓ henv hfit) hcl hs hlt hΓ' hp
  | cond condition thenExpr elseExpr span ihc iht ihe =>
    obtain ⟨hc', ht', he', hfit, -⟩ := h.cond
    intro code p hc hs hlt hΓ' hp
    cases hc with
    | cond _ _ hcc hct hce =>
      exact tracks_cond (ihc hc') (iht ht') (ihe he') (hc'.eval_bool? ht hΓ henv hfit) hcc hct hce hs hlt hΓ' hp
  | print value span ih =>
    intro code p hc hs hlt hΓ' hp
    cases hc with
    | print hcl => exact tracks_print (ih h.print) hcl hs hlt hΓ' hp

end Expr

end ObjLet
