import ObjLet.Proofs.Links.Track

/-!
# Stages of a run

What holds between two instructions (`Loaded.Stands`): live activations and objects have their words in memory.
What stays when an evaluation is over (`Stage.Follows`), and what holds of the frames around a point of the program
(`Loaded.Scoped`). A name stands for what lies at the offset of its entry from the place that the hops of a use
lead to (`Loaded.Scoped.find?`), unless the way crosses an object.
-/

namespace ObjLet

open Code

/-- The same stage with another stack. -/
def Stage.under (p : Stage) (ws : List Int) : Stage := { p with snapshot := { p.snapshot with stack := ws } }

/-- What holds between two instructions. -/
structure Loaded.Stands (L : Loaded) (p : Stage) : Prop where
  heap : p.snapshot.heap = p.ledger.heap
  cell : ∀ n ∈ p.history.live, ∀ {o x : Int}, p.ledger.word n o x →
    ∃ b, p.ledger.base (.activation n) = some b ∧ L.target.StackCell p.snapshot.stack (b + o) x
  around : ∀ n ∈ p.history.live, ∃ ps, p.ledger.around n = some ps ∧
    ∀ m, .activation m ∈ ps → m ∈ p.history.live
  old : ∀ n ∈ p.history.live, n < p.history.activations
  new : ∀ {n : Nat}, p.history.activations ≤ n → p.ledger.base (.activation n) = none ∧
    p.ledger.around n = none ∧ ∀ o x, ¬ p.ledger.word n o x
  object : ∀ {id : Nat} {b : Int}, p.ledger.base (.object id) = some b →
    id < p.history.objects ∧ 0 ≤ b ∧ b < p.ledger.heap.length
  distinct : ∀ {id id' : Nat} {b : Int}, p.ledger.base (.object id) = some b →
    p.ledger.base (.object id') = some b → id = id'
  outermost : p.ledger.base (.activation 0) = some (L.target.memory : Int) ∧ 0 ∈ p.history.live

/-- A later stage of the same activations; some of them have no new words. -/
structure Stage.Follows (kept : List Nat) (p q : Stage) : Prop where
  ledger : p.ledger.Le q.ledger
  live : q.history.live = p.history.live
  word : ∀ n ∈ kept, ∀ {o x : Int}, q.ledger.word n o x → p.ledger.word n o x

namespace Stage.Follows

variable {kept kept' : List Nat} {p q r : Stage}

/-- Stages are compared by what they know and by the activations they have kept. -/
theorem refl (kept : List Nat) (p : Stage) : p.Follows kept p := ⟨.refl _, rfl, fun _ _ _ _ => id⟩

/-- Moving on in the code changes neither the ledger nor the history. -/
theorem moved (kept : List Nat) (p : Stage) (ip : Nat) (c : Snapshot) :
    p.Follows kept { p with ip, snapshot := c } := ⟨.refl _, rfl, fun _ _ _ _ => id⟩

/-- What follows a stage that follows goes on keeping what was kept. -/
theorem trans (h : p.Follows kept q) (h' : q.Follows kept r) : p.Follows kept r :=
  ⟨h.ledger.trans h'.ledger, h'.live.trans h.live, fun n hn _ _ hw => h.word n hn (h'.word n hn hw)⟩

theorem mono (h : p.Follows kept q) (hk : kept' ⊆ kept) : p.Follows kept' q :=
  ⟨h.ledger, h.live, fun n hn => h.word n (hk hn)⟩

/-- One evaluation after another. -/
theorem next (h : p.Follows p.history.live q) (h' : q.Follows q.history.live r) : p.Follows p.history.live r :=
  h.trans (h.live ▸ h')

end Stage.Follows

namespace Loaded

variable {L : Loaded} {p q : Stage}

/-- Something has been pushed. -/
theorem Stands.above (h : L.Stands p) {ip : Nat} {c : Snapshot} (ws : List Int) (hs : c.stack = ws ++ p.snapshot.stack)
    (hh : c.heap = p.snapshot.heap) : L.Stands { p with ip, snapshot := c } := by
  refine ⟨hh.trans h.heap, fun n hn o x hw => ?_, h.around, h.old, h.new, h.object, h.distinct, h.outermost⟩
  obtain ⟨b, hb, hc⟩ := h.cell n hn hw
  refine ⟨b, hb, ?_⟩
  rw [hs]
  exact hc.append ws

/-- What was on the stack at an earlier stage of the same activations suffices for them. -/
theorem Stands.restack (hp : L.Stands p) (hq : L.Stands q) (hf : p.Follows p.history.live q) {ip : Nat} {c : Snapshot}
    (ws : List Int) (hs : c.stack = ws ++ p.snapshot.stack) (hh : c.heap = q.snapshot.heap) :
    L.Stands { q with ip, snapshot := c } := by
  refine ⟨hh.trans hq.heap, fun n hn o x hw => ?_, hq.around, hq.old, hq.new, hq.object, hq.distinct, hq.outermost⟩
  have hn : n ∈ p.history.live := hf.live ▸ hn
  obtain ⟨b, hb, hc⟩ := hp.cell n hn (hf.word n hn hw)
  refine ⟨b, hf.ledger.base hb, ?_⟩
  rw [hs]
  exact hc.append ws

/-- What suffices for the activations is still there under something else. -/
theorem Stands.of_under {ws : List Int} (h : L.Stands (p.under ws)) (vs : List Int)
    (hs : p.snapshot.stack = vs ++ ws) : L.Stands p := h.above vs hs rfl

/-- The words on top of the stack belong to no place, so they may be replaced. -/
theorem Stands.under_moved {ws : List Int} (h : L.Stands (p.under ws)) {ip : Nat} {c : Snapshot}
    (hh : c.heap = p.snapshot.heap) : L.Stands (Stage.under { p with ip, snapshot := c } ws) := h.above [] rfl hh

/-- A live activation or an object. -/
def Stays (h : History) (p : Place) : Prop := ∀ n, p = .activation n → n ∈ h.live

/-- The words of live activations and objects are in memory. -/
theorem Stands.wordCell (h : L.Stands p) {place : Place} (hp : Stays p.history place) {b o x : Int}
    (hb : p.ledger.base place = some b) (hw : p.ledger.Word place o x) :
    p.snapshot.Cell L.target (b + o) x := by
  cases place with
  | activation n =>
    obtain ⟨b', hb', hc⟩ := h.cell n (hp n rfl) hw
    cases hb.symm.trans hb'
    exact .inl hc
  | object id =>
    obtain ⟨b', hb', hc⟩ := hw
    cases hb.symm.trans hb'
    rw [← h.heap] at hc
    exact .inr hc

/-- Frames lie in memory, the innermost one at a base. -/
structure Framed (L : Loaded) (scopes : List Scope) (env : List Frame) (p : Stage) (base : Int) : Prop where
  typed : Frame.AllFit L.tables env scopes
  lies : L.Lies p.ledger env scopes
  stays : ∀ f ∈ env, Stays p.history f.place
  head : ∃ f, env.head? = some f ∧ p.ledger.base f.place = some base

/-- A frame found its way through the scopes once; later ledgers know the same places. -/
theorem Framed.mono {scopes : List Scope} {env : List Frame} {base : Int} (h : L.Framed scopes env p base)
    (hle : p.ledger.Le q.ledger) (hlive : q.history.live = p.history.live) : L.Framed scopes env q base := by
  refine ⟨h.typed, h.lies.mono hle, fun f hf n hn => ?_, ?_⟩
  · rw [hlive]
    exact h.stays f hf n hn
  · obtain ⟨f, hhead, hb⟩ := h.head
    exact ⟨f, hhead, hle.base hb⟩

/-- The frames around a point of the program, the innermost one that of the running activation. -/
structure Scoped (L : Loaded) (Γ : Env) (env : List Frame) (p : Stage) : Prop where
  fits : Γ.Fits L.tables
  framed : L.Framed Γ.scopes.scopes env p p.snapshot.fp
  inside : ∃ n bindings outer, env = ⟨.activation n, bindings⟩ :: outer

/-- Names are found again after an evaluation, at the same words. -/
theorem Scoped.follows {Γ : Env} {env : List Frame} (h : L.Scoped Γ env p) {kept : List Nat}
    (hq : p.Follows kept q) (hf : q.snapshot.fp = p.snapshot.fp) : L.Scoped Γ env q := by
  refine ⟨h.fits, ?_, h.inside⟩
  rw [hf]
  exact h.framed.mono hq.ledger hq.live

/-! ## Names -/

/-- A lookup goes through scopes and frames in step: the frame in which evaluation finds a name is as many frames
out as the entry's scope is scopes out, and it has the words of the entry. -/
theorem Lies.find? {W : Ledger} {name : String} {b : Binding} {s : Scope} {e : Entry} (he : s[name]? = some e) :
    ∀ {env : List Frame} {scopes : List Scope} {i : Nat}, L.Lies W env scopes →
      Frame.find? name env = some (i, b) → scopes[i]? = some s →
      ∃ f base, env[i]? = some f ∧ W.base f.place = some base ∧ L.Binds W f.place b e := by
  intro env
  induction env with
  | nil => exact fun _ h _ => nomatch h
  | cons f env ih =>
    intro scopes i hlies hf hs
    cases hlies with
    | cons hb hn _ hrest =>
    rw [Frame.find?] at hf
    split at hf
    · next hl =>
      cases hf
      cases hs
      exact ⟨f, _, rfl, hb, hn _ _ _ he hl⟩
    · obtain ⟨⟨j, b'⟩, hj, heq⟩ := Option.map_eq_some_iff.1 hf
      cases heq
      exact ih hrest hj hs

/-- The links of live activations lead from frame to frame. -/
theorem Lies.linked {W : Ledger} {M : Int → Int → Prop} :
    ∀ {env : List Frame} {scopes : List Scope} {i : Nat} {g f : Frame} {base base' : Int}, L.Lies W env scopes →
      (∀ f ∈ env, ∀ n, f.place = .activation n → ∀ {b o x : Int}, W.base f.place = some b → W.word n o x →
        M (b + o) x) →
      env.head? = some g → W.base g.place = some base → env[i]? = some f → W.base f.place = some base' →
      (env.take i).any (·.place.isObject) = false → Image.Linked M i base base'
  | g :: env, _, 0, _, _, base, base', _, _, hg, hb, hf, hb', _ => by
    cases hg
    cases hf
    cases hb.symm.trans hb'
    exact .zero
  | g :: env, _, i + 1, _, _, base, base', .cons hbase _ hl h, hM, hg, hb, hf, hb', hcross => by
    cases hg
    rw [List.take_succ_cons, List.any_cons, Bool.or_eq_false_iff] at hcross
    obtain ⟨hact, hrest⟩ := hcross
    -- An object ends the chain: its words hold no link. This is where the condition on the frames is used.
    cases hplace : g.place with
    | object id =>
      rw [hplace] at hact
      cases hact
    | activation n =>
      obtain ⟨-, hlink⟩ := hl n hplace
      have hlt := (List.getElem?_eq_some_iff.1 hf).1
      cases env with
      | nil => simp at hlt
      | cons g' env =>
        obtain ⟨link, hlink, hw⟩ := hlink g' rfl
        have hcell : M (base + 0) link := hM g List.mem_cons_self n hplace hb hw
        rw [Int.add_zero] at hcell
        exact .succ hcell (Lies.linked h (fun f hf => hM f (List.mem_cons_of_mem _ hf)) rfl hlink
          (by simpa using hf) hb' hrest)

/-- What a name stands for lies at the offset of an entry from the place of a frame. Access links lead to that
place unless an object is in between. -/
structure Found (L : Loaded) (env : List Frame) (p : Stage) (e : Entry) (i : Nat) (b : Binding) (f : Frame)
    (base : Int) : Prop where
  frame : env[i]? = some f
  stays : Stays p.history f.place
  origin : p.ledger.base f.place = some base
  binds : L.Binds p.ledger f.place b e
  linked : (env.take i).any (·.place.isObject) = false →
    Image.Linked (L.target.StackCell p.snapshot.stack) i p.snapshot.fp base

/-- Words on top of the stack do not hide a place that was found. -/
theorem Found.above {env : List Frame} {e : Entry} {i : Nat} {b : Binding} {f : Frame} {base : Int}
    (h : L.Found env p e i b f base) {ip : Nat} {c : Snapshot} (ws : List Int) (hs : c.stack = ws ++ p.snapshot.stack)
    (hf : c.fp = p.snapshot.fp) : L.Found env { p with ip, snapshot := c } e i b f base := by
  refine ⟨h.frame, h.stays, h.origin, h.binds, fun hcross => ?_⟩
  rw [hs, hf]
  exact (h.linked hcross).mono fun _ _ hc => hc.append ws

/-- A name of the scopes is found where the hops of a use lead to. -/
theorem Scoped.find? {Γ : Env} {env : List Frame} (h : L.Scoped Γ env p) (hp : L.Stands p) {name : String}
    {e : Entry} (he : Γ.scopes.lookup? name = some e) :
    ∃ b f base, Frame.find? name env = some ((⟨e, Γ.level⟩ : Resolution).hops, b) ∧ b.Fits L.tables name e ∧
      L.Found env p e (⟨e, Γ.level⟩ : Resolution).hops b f base := by
  obtain ⟨i, b, s, hfind, hsc, hse, hb⟩ := h.framed.typed.find? he
  obtain ⟨f, base, hf, hbase, hbinds⟩ := h.framed.lies.find? hse hfind hsc
  obtain ⟨g, hg, hfp⟩ := h.framed.head
  have hhops : (⟨e, Γ.level⟩ : Resolution).hops = i := by
    have hlevel := h.fits.level hsc hse
    have hsucc := h.fits.level_succ
    simp only [Resolution.hops]
    omega
  rw [hhops]
  refine ⟨b, f, base, hfind, hb, hf, h.framed.stays f (List.mem_of_getElem? hf), hbase, hbinds, fun hcross => ?_⟩
  refine h.framed.lies.linked (fun f hf n hn b o x hb hw => ?_) hg hfp hf hbase hcross
  obtain ⟨b', hb', hc⟩ := hp.cell n (h.framed.stays f hf n hn) hw
  rw [hn] at hb
  cases hb.symm.trans hb'
  exact hc

/-! ## What is seen of a use -/

/-- The address of a function lies in the unit, so it can be jumped to. -/
theorem Routine.lt_size {f : FunDecl} {Γ : Env} {sig : Signature} {a : Nat} (h : L.Routine f Γ sig a) :
    a < L.listing.size := by
  obtain ⟨code, hc, hs⟩ := h.code
  have hle := hs.le
  cases hc with
  | mk _ _ _ _ =>
    simp only [List.cons_append, Listing.size_cons, Instruction.isPlacement, Instruction.placed?,
      Option.isSome_none, Bool.false_eq_true, if_false] at hle
    omega

/-- Its first instruction is marked as the entry of the function. -/
theorem Routine.markAt {f : FunDecl} {Γ : Env} {sig : Signature} {a : Nat} (h : L.Routine f Γ sig a) :
    L.listing.markAt a = some (.entered f.id) := by
  obtain ⟨code, hc, hs⟩ := h.code
  cases hc with
  | mk _ _ _ _ => rw [Listing.markAt, hs.line rfl, Option.bind_some]

/-- Where its words are, a value lies. -/
theorem Rep.liesAt {W W' : Ledger} {v : Value} {ws : List Int} (h : L.Rep W v ws) (hle : W.Le W') {mem : Int → Int}
    {a : Int} (hw : WordsAt (fun b x => mem b = x) (a + 1 - ws.length) ws) : v.LiesAt L.listing W'.origin mem a := by
  have hone : ∀ {x : Int}, ws = [x] → mem a = x := by
    rintro x rfl
    have hx := hw 0 x rfl
    rwa [show a + 1 - ([x].length : Nat) + (0 : Nat) = a by simp] at hx
  cases h with
  | int | bool | null => exact hone rfl
  | object hb _ _ _ _ _ => exact (hone rfl).trans (Ledger.origin_eq (hle.base hb)).symm
  | @closure f n bindings env Γ Γ' ip base hd hf hfit hlies hb hslot =>
    have hcode := hw 0 ip rfl
    have hframe := hw 1 base rfl
    rw [show a + 1 - ([(ip : Int), base].length : Nat) + (0 : Nat) = a - 1 by simp; omega] at hcode
    rw [show a + 1 - ([(ip : Int), base].length : Nat) + (1 : Nat) = a by simp; omega] at hframe
    exact ⟨⟨_, rfl, hframe.trans (Ledger.origin_eq (hle.base hb)).symm⟩, ip, hcode, hf.markAt⟩

variable {env : List Frame} {e : Entry} {i : Nat} {f : Frame} {base : Int}

/-- The words of a value are in memory. -/
theorem Found.cells {v : Value} (h : L.Found env p e i (.value v) f base) (hp : L.Stands p) :
    ∃ ws, L.Rep p.ledger v ws ∧ WordsAt (p.snapshot.Cell L.target) (base + e.offset + 1 - ws.length) ws := by
  obtain ⟨place, bindings⟩ := f
  cases h.binds with
  | @value _ _ ws _ hv hw =>
  refine ⟨ws, hv, fun j x hx => ?_⟩
  have hcell := hp.wordCell h.stays h.origin (hw j x hx)
  rwa [show base + (e.offset + 1 - ws.length + j) = base + e.offset + 1 - ws.length + j by omega] at hcell

/-- The way to a value ends where its offset counts from. -/
theorem Found.shown {v : Value} (h : L.Found env p e i (.value v) f base) (hp : L.Stands p) {site : NodeId}
    {level : Nat} (huse : L.tables.UsedAt site ⟨e, level⟩) (hk : e.kind ≠ .method) {ip : Nat} {s : Machine}
    (hs : s.At L.target ip (p.snapshot.push base)) {W : Ledger} (hW : p.ledger.Le W) :
    Event.ShownBy L.tables L.listing W.origin (.reached site f.place v false) (.reached site, s) := by
  have htop : s.top = base := by
    have hword := hs.word (i := 0) (x := base) rfl
    rwa [Int.natCast_zero, Int.add_zero] at hword
  refine .reached huse hk (htop.trans (Ledger.origin_eq (hW.base h.origin)).symm) ?_
  rw [htop]
  obtain ⟨ws, hv, hw⟩ := h.cells hp
  exact hv.liesAt hW fun j x hx => (hs.cell ((hw j x hx).push base)).1

/-- A method belongs to the object that it is found at. -/
theorem Found.self {id : Nat} {lineage : List ClassValue} {fields : List (String × Value)}
    (h : L.Found env p e i (.method (.object id lineage fields)) f base) :
    L.Rep p.ledger (.object id lineage fields) [base] := by
  obtain ⟨place, bindings⟩ := f
  have horigin := h.origin
  cases h.binds with
  | method hv =>
    have hself := hv
    cases hv with
    | object hb =>
      cases hb.symm.trans horigin
      exact hself

/-- The way to a method ends at the object. -/
theorem Found.shown_self {self : Value} (h : L.Found env p e i (.method self) f base) {site : NodeId}
    {level : Nat} (huse : L.tables.UsedAt site ⟨e, level⟩) (hk : e.kind = .method) {ip : Nat} {s : Machine}
    (hs : s.At L.target ip (p.snapshot.push base)) {W : Ledger} (hW : p.ledger.Le W) :
    Event.ShownBy L.tables L.listing W.origin (.reached site f.place self false) (.reached site, s) := by
  have htop : s.top = base := by
    have hword := hs.word (i := 0) (x := base) rfl
    rwa [Int.natCast_zero, Int.add_zero] at hword
  have hplace := Ledger.origin_eq (hW.base h.origin)
  obtain ⟨place, bindings⟩ := f
  cases h.binds with
  | method hv => exact .self huse hk (htop.trans hplace.symm)

/-- The machine goes the way that a use takes, unless an object is in between. -/
theorem Tracks.reach {β : Type} {fuel : Nat} {b : Binding} {v : Value} {k : Unit → Eval β} {Q : β → Stage → Prop}
    (h : L.Found env p e i b f base) {site : NodeId} {rest : Listing} (hs : L.listing.Sits p.ip (walk site i ++ rest))
    (hshown : ∀ s, s.At L.target (p.ip + (walk site i).size) (p.snapshot.push base) → ∀ W, p.ledger.Le W →
      Event.ShownBy L.tables L.listing W.origin (.reached site f.place v false) (.reached site, s))
    (hk : L.Tracks fuel { p with ip := p.ip + (walk site i).size, snapshot := p.snapshot.push base } (k ()) Q) :
    L.Tracks fuel p (Eval.reach site env i v >>= k) Q := by
  rw [Eval.reach, h.frame]
  cases hcross : (env.take i).any (·.place.isObject) with
  | true => exact .stray (e := .reached site f.place v true) rfl (.crossed ..)
  | false =>
    have hway := (Straight.frame (u := L.listing.unit) (h.linked hcross)).goes_ending (List.cons_ne_nil _ _) hs.left
    exact .of_succ (.event rfl (.refl _) hway hshown hk)

end Loaded

end ObjLet
