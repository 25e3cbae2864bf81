import ObjLet.Proofs.Links.Expr
import ObjLet.Proofs.Simulation.Decl

/-!
# Declarations

Declarations push their words, one declaration after the other, and so each comes to the offset that its entry says
(`Loaded.NextSlot`). A ledger keeps the new words (`Ledger.declare`). Of a class it is the address of its dispatch
table, which goes to the heap first; functions and variables leave the heap as it is.
-/

namespace ObjLet

open Code Eval Loaded

/-- A ledger with new words of an activation, from an offset up, and with words behind the heap. -/
def Ledger.declare (W : Ledger) (n : Nat) (o : Int) (ws vs : List Int) : Ledger where
  base := W.base
  around := W.around
  word m k x := W.word m k x ∨ m = n ∧ ∃ i : Nat, ws[i]? = some x ∧ k = o + i
  heap := W.heap ++ vs

namespace Ledger

variable {W : Ledger} {n : Nat} {o : Int} {ws vs : List Int}

/-- Nothing that was known is given up. -/
theorem le_declare : W.Le (W.declare n o ws vs) := ⟨id, id, .inl, List.prefix_append _ _⟩

/-- The new words are known at their offsets. -/
theorem wordsAt_declare : WordsAt ((W.declare n o ws vs).word n) o ws := fun i _ hx => .inr ⟨rfl, i, hx, rfl⟩

end Ledger

variable {L : Loaded} {fuel : Nat} {call : Caller} {p q r : Stage} {W : Ledger}

/-! ## Words of a declaration -/

namespace Loaded

/-- The next word that is pushed comes to the next free offset of the frame. -/
def NextSlot (L : Loaded) (Γ : Env) (c : Snapshot) : Prop :=
  c.fp + Γ.nextLocal + c.stack.length + 1 = L.target.memory

/-- Only the innermost activation gets new words; those around it are left alone. -/
theorem follows_declare {n : Nat} {o : Int} {ws vs : List Int} {kept : List Nat} (hn : n ∉ kept) (ip : Nat)
    (c : Snapshot) : p.Follows kept ⟨p.ledger.declare n o ws vs, p.history, ip, c⟩ := by
  refine ⟨Ledger.le_declare, rfl, fun m hm o x hw => hw.resolve_right ?_⟩
  rintro ⟨rfl, -⟩
  exact hn hm

/-- What a ledger says stays true of memory when words are pushed to the next slots of a live activation and
others go behind the heap. -/
theorem Stands.declare (h : L.Stands p) {n : Nat} (hn : n ∈ p.history.live) {b o : Int}
    (hb : p.ledger.base (.activation n) = some b) {ip : Nat} {c : Snapshot} (ws vs : List Int)
    (hs : c.stack = ws ++ p.snapshot.stack) (hh : c.heap = p.snapshot.heap ++ vs)
    (ho : b + o + c.stack.length = L.target.memory) :
    L.Stands ⟨p.ledger.declare n o ws vs, p.history, ip, c⟩ := by
  refine ⟨?_, fun m hm k x hw => ?_, h.around, h.old, fun {m} hm => ?_, fun {id b} hb => ?_, h.distinct, h.outermost⟩
  · rw [hh, h.heap]
    rfl
  · rcases hw with hw | ⟨rfl, i, hx, rfl⟩
    · obtain ⟨b', hb', hc⟩ := h.cell m hm hw
      refine ⟨b', hb', ?_⟩
      rw [hs]
      exact hc.append ws
    · refine ⟨b, hb, i, ?_, by dsimp only; omega⟩
      rw [hs, List.getElem?_append_left (List.getElem?_eq_some_iff.1 hx).1, hx]
  · obtain ⟨hnone, haround, hword⟩ := h.new hm
    refine ⟨hnone, haround, fun k x hw => ?_⟩
    rcases hw with hw | ⟨rfl, -⟩
    · exact hword k x hw
    · exact absurd (h.old m hn) (Nat.not_lt.2 hm)
  · obtain ⟨hid, h0, hlt⟩ := h.object hb
    refine ⟨hid, h0, ?_⟩
    rw [Ledger.declare, List.length_append]
    omega

/-- The words of a declaration have been pushed to its slot. -/
theorem Scoped.declare {Γ Γ' : Env} {n : Nat} {bindings : List (String × Binding)} {outer : List Frame}
    (h : L.Scoped Γ (⟨.activation n, bindings⟩ :: outer) p) (hp : L.Stands p) (hslot : L.NextSlot Γ p.snapshot)
    (hfits : Γ'.Fits L.tables) {id : NodeId} {name : String} {kind : EntryKind} {ty : Ty} {b : Binding}
    (hd : Γ.Declares L.tables.resolutions Γ' id name kind ty)
    (hb : b.Fits L.tables name ⟨kind, Γ.level, Γ.nextLocal, ty⟩) (ip : Nat) (c : Snapshot) (ws vs : List Int)
    (hlen : ws.length = ty.words) (hs : c.stack = ws ++ p.snapshot.stack) (hh : c.heap = p.snapshot.heap ++ vs)
    (hf : c.fp = p.snapshot.fp)
    (hbinds : L.Binds (p.ledger.declare n (Γ.nextLocal + 1 - ws.length) ws vs) (.activation n) b
      ⟨kind, Γ.level, Γ.nextLocal, ty⟩) :
    let q : Stage := ⟨p.ledger.declare n (Γ.nextLocal + 1 - ws.length) ws vs, p.history, ip, c⟩
    L.Stands q ∧ L.Scoped Γ' (⟨.activation n, (name, b) :: bindings⟩ :: outer) q ∧ L.NextSlot Γ' c := by
  obtain ⟨g, hg, hbase⟩ := h.framed.head
  cases hg
  have hlive : n ∈ p.history.live := h.framed.stays _ List.mem_cons_self n rfl
  have hlength : c.stack.length = ws.length + p.snapshot.stack.length := by rw [hs, List.length_append]
  unfold NextSlot at hslot ⊢
  refine ⟨hp.declare hlive hbase ws vs hs hh (by omega), ⟨hfits, ⟨h.framed.typed.declare hd hb,
    (h.framed.lies.mono Ledger.le_declare).declare hd hbinds, ?_, _, rfl, ?_⟩, _, _, _, rfl⟩, ?_⟩
  · intro g hg m hm
    rcases List.mem_cons.1 hg with rfl | hg
    · cases hm
      exact hlive
    · exact h.framed.stays g (List.mem_cons_of_mem _ hg) m hm
  · rw [hf]
    exact hbase
  · rw [hf, hd.nextLocal]
    omega

/-! ## Classes -/

/-- A class with a superclass can copy its table: it has been built on the heap already. -/
theorem Heritage.exists_tableAt {lineage : List ClassValue} {c : ClassId} (h : L.Heritage W lineage (some c)) :
    ∃ d, L.TableAt W.heap c d := by
  cases h with
  | cons _ _ _ _ _ ht _ => exact ⟨_, ht⟩

/-- Every label of a dispatch table has an address. -/
theorem exists_addresses {c : ClassDecl} {Γ Γ' : Env} {s : ClassSite} {final : Class}
    (hc : c.Checked L.tables Γ Γ' s final) {inherited table : List Label}
    (hi : L.tables.inheritedTable? L.dispatch s.old.length = some inherited)
    (hm : FunDecl.CodedAll L.tables L.target.memory L.At L.dispatch inherited c.methods table)
    {ancestors : List ClassValue} (hup : L.Heritage W ancestors final.layout.superclass) :
    ∃ addresses, List.Forall₂ (fun l a => L.listing.unit.address? l = some a) table addresses := by
  have hlabel : ∀ l ∈ table, ∃ a, L.listing.unit.address? l = some a := by
    intro l hl
    obtain ⟨i, hi'⟩ := List.getElem?_of_mem hl
    obtain ⟨m, -, l', code, -, hl', hat, -⟩ | ⟨-, hkeep⟩ := hm.slot i
    · cases hi'.symm.trans hl'
      obtain ⟨a, ha, -⟩ := L.placed hat
      exact ⟨a, ha⟩
    · have hlayout : L.tables.classes.layout? s.old.length = some final.layout :=
        Option.map_eq_some_iff.2 ⟨final, hc.class?, rfl⟩
      rw [Tables.inheritedTable?, hlayout, Option.bind_some] at hi
      cases hsup : final.layout.superclass with
      | none =>
        rw [hsup] at hi
        cases hi
        cases hi'.symm.trans hkeep
      | some parent =>
        rw [hsup] at hi hup
        obtain ⟨d, ht⟩ := hup.exists_tableAt
        obtain ⟨a, ha, -⟩ := ht inherited hi i l (hkeep.symm.trans hi')
        exact ⟨a, ha⟩
  refine ⟨table.map fun l => (L.listing.unit.address? l).getD 0, ?_⟩
  rw [List.forall₂_map_right_iff, List.forall₂_same]
  intro l hl
  obtain ⟨a, ha⟩ := hlabel l hl
  rw [ha]
  rfl

/-- The addresses of a dispatch table, where they have been put behind the heap. -/
theorem tableAt_addresses {c : ClassId} {table : List Label} {addresses : List Nat}
    (hd : L.dispatch c = some table)
    (ha : List.Forall₂ (fun l a => L.listing.unit.address? l = some a) table addresses) (heap : List Int) :
    L.TableAt (heap ++ addresses.map Int.ofNat) c heap.length := by
  intro table' htable i l hl
  cases hd.symm.trans htable
  obtain ⟨hlt, rfl⟩ := List.getElem?_eq_some_iff.1 hl
  have hlt' : i < addresses.length := ha.length_eq ▸ hlt
  refine ⟨addresses[i], ha.get hlt hlt', heap.length + i, ?_, by omega⟩
  rw [List.getElem?_append_right (Nat.le_add_right _ _), Nat.add_sub_cancel_left, List.getElem?_map,
    List.getElem?_eq_getElem hlt']
  rfl

end Loaded

/-- The superclass of a clean class is found, with its dispatch table. -/
theorem ClassDecl.Checked.tracks_superclass {c : ClassDecl} {Γ Γ' : Env} {s : ClassSite} {final : Class}
    (h : c.Checked L.tables Γ Γ' s final) {env : List Frame} {base : Int}
    (hΓ : L.Framed Γ.scopes.scopes env p base) {β : Type} {Q : β → Stage → Prop} {k : List ClassValue → Eval β}
    (hk : ∀ ancestors, L.Heritage p.ledger ancestors final.layout.superclass → L.Tracks fuel p (k ancestors) Q) :
    L.Tracks fuel p
      (match c.superclass with
        | none => pure [] >>= k
        | some sup => orStuck (Frame.findClass? sup.text env) >>= k) Q := by
  have hsuper := h.super
  have hhead := (ClassLayout.head_eq_iff.1 (h.head L.lineal)).2.2.1
  cases hs : c.superclass with
  | none =>
    rw [hs] at hsuper
    obtain ⟨hstart, -, -⟩ := hsuper
    rw [hstart] at hhead
    refine .skip rfl (.refl _) (hk [] ?_)
    rw [hhead]
    exact .nil
  | some sup =>
    rw [hs] at hsuper
    cases hsuper with
    | @sub _ e parent cls he hp hlt hparent hlaid hstart =>
    obtain ⟨lineage, c', d, hfind, hc', hl, -, -⟩ := hΓ.findClass? he
    cases hp.symm.trans hc'
    have hid := L.lineal.id_eq (Option.map_eq_some_iff.2 ⟨_, hparent, rfl⟩)
    rw [hstart] at hhead
    refine .orStuck hfind (hk lineage ?_)
    rw [hhead]
    change L.Heritage p.ledger lineage (some cls.layout.id)
    rwa [hid]

/-! ## All declarations -/

/-- Declarations have been evaluated, with a number of words in their frame. -/
structure Loaded.Declared (L : Loaded) (p : Stage) (kept : List Nat) (ip : Nat) (Γ : Env) (words : Nat)
    (env : List Frame) (q : Stage) : Prop where
  ip : q.ip = ip
  fp : q.snapshot.fp = p.snapshot.fp
  stands : L.Stands q
  scope : L.Scoped Γ env q
  follows : p.Follows kept q
  pushed : ∃ ws : List Int, ws.length = words ∧ q.snapshot.stack = ws ++ p.snapshot.stack

/-- Declarations that follow others, seen from the stage before both. -/
theorem Loaded.Declared.after {kept : List Nat} {ip words : Nat} {Γ : Env} {env : List Frame}
    (h : L.Declared q kept ip Γ words env r) (hf : p.Follows kept q) (hfp : q.snapshot.fp = p.snapshot.fp)
    (vs : List Int) (hs : q.snapshot.stack = vs ++ p.snapshot.stack) :
    L.Declared p kept ip Γ (vs.length + words) env r := by
  obtain ⟨ws, hlen, hstack⟩ := h.pushed
  refine ⟨h.ip, h.fp.trans hfp, h.stands, h.scope, hf.trans h.follows, ws ++ vs, ?_, ?_⟩
  · rw [List.length_append, hlen, Nat.add_comm]
  · rw [hstack, hs, List.append_assoc]

namespace Decl

/-- Wherever the code of declarations sits, the machine keeps track of them. The words of other activations stay. -/
def TrackedAll (L : Loaded) (fuel : Nat) (call : Caller) (ds : List Decl) : Prop :=
  ∀ {Γ : Env} {n : Nat} {bindings : List (String × Binding)} {outer : List Frame} {kept : List Nat} {code : Listing}
    {p : Stage}, Decl.CheckedAll L.tables Γ ds → Decl.CodedAll L.tables L.target.memory L.At L.dispatch ds code →
    L.listing.Sits p.ip code → p.ip + code.size < L.listing.size →
    L.Scoped Γ (⟨.activation n, bindings⟩ :: outer) p → L.Stands p → (ds ≠ [] → L.NextSlot Γ p.snapshot) →
    (outer = [] → n = 0) → kept ⊆ p.history.live → n ∉ kept →
    L.Tracks fuel p (Decl.evalAll L.target.wrap call (⟨.activation n, bindings⟩ :: outer) ds)
      (L.Declared p kept (p.ip + code.size) (Decl.bindAll Γ ds).1 (L.tables.frameWords ds))

variable {ds : List Decl}

/-- The words of the value become the words of the slot as they are, since both are pushed in the same order. -/
theorem tracked_var (ht : call.Sound L.tables) (hcall : L.Serves fuel call) {id : NodeId} {name : Name}
    {type : TypeExpr} {init : Expr} {span : Span} (ih : TrackedAll L fuel call ds) :
    TrackedAll L fuel call (.var id name type init span :: ds) := by
  intro Γ n bindings outer kept code p h hc hs hlt hΓ hp hslot hzero hsub hkept
  have hn := hslot (List.cons_ne_nil _ ds)
  obtain ⟨hd, hds⟩ := h.cons L.lineal
  cases hc with
  | @cons _ _ ls lss hcd hcds =>
  rw [Listing.size_append, ← Nat.add_assoc] at hlt ⊢
  obtain ⟨hinit, hfit, hdecl, -⟩ := hd.var
  obtain ⟨ty, hty⟩ := hinit.exists_type hΓ.fits
  cases hcd with
  | var hci =>
  refine ((Expr.tracked ht hcall hΓ.fits hΓ.framed.typed hinit hci hs.left (by omega) hΓ hp).and_sound
    (Expr.sound L.lineal ht hΓ.fits hΓ.framed.typed hinit ty hty)).bind ?_
  rintro v q - ⟨htyped, hq⟩
  obtain ⟨ws, hrep, hstack⟩ := hq.words
  have htyped' := htyped.sub L.lineal (hfit ty hty)
  have hlen : ws.length = (type.resolve Γ.classes).words := by rw [hrep.length, htyped'.words_eq]
  have hright := hs.right
  rw [← hq.ip] at hright hlt ⊢
  -- The value is on the stack already; from here on it belongs to the frame.
  let q₀ : Stage := q.under p.snapshot.stack
  have hp₀ : L.Stands q₀ := hp.restack hq.stands hq.follows [] rfl rfl
  have hΓ₀ : L.Scoped Γ (⟨.activation n, bindings⟩ :: outer) q₀ :=
    hΓ.follows (hq.follows.trans (.moved ..)) hq.fp
  have hn₀ : L.NextSlot Γ q₀.snapshot := by
    rw [NextSlot, show q₀.snapshot.fp = p.snapshot.fp from hq.fp]
    exact hn
  let W : Ledger := q.ledger.declare n (Γ.nextLocal + 1 - ws.length) ws []
  obtain ⟨hp₁, hΓ₁, hn₁⟩ := hΓ₀.declare hp₀ hn₀ hds.fits hdecl (.value rfl htyped') q.ip q.snapshot ws [] hlen hstack
    (List.append_nil _).symm rfl (.value (hrep.mono Ledger.le_declare) Ledger.wordsAt_declare)
  refine .learn (W := W) Ledger.le_declare ((ih (p := ⟨W, q.history, q.ip, q.snapshot⟩) hds hcds hright hlt hΓ₁ hp₁
    (fun _ => hn₁) hzero ?_ hkept).mono fun env r _ hr => ?_)
  · rw [show q.history.live = p.history.live from hq.follows.live]
    exact hsub
  · rw [Tables.frameWords_cons hdecl.entry, ← hlen]
    exact hr.after ((hq.follows.mono hsub).trans (follows_declare hkept _ _)) hq.fp ws hstack

/-- A function value is its frame and its label's address, so nothing is evaluated and no event is shown. -/
theorem tracked_func {f : FunDecl} (ih : TrackedAll L fuel call ds) : TrackedAll L fuel call (.func f :: ds) := by
  intro Γ n bindings outer kept code p h hc hs hlt hΓ hp hslot hzero hsub hkept
  have hn := hslot (List.cons_ne_nil _ ds)
  obtain ⟨hd, hds⟩ := h.cons L.lineal
  cases hc with
  | @cons _ _ ls lss hcd hcds =>
  obtain ⟨hdecl, -, hf⟩ := hd.func
  cases hcd with
  | @func _ entry _ hat hcf =>
  have hsize : Listing.size (plain [.load .fp, .pushLabel entry] ++ lss) = 2 + lss.size := by
    rw [Listing.size_append]
    rfl
  rw [hsize, ← Nat.add_assoc] at hlt ⊢
  obtain ⟨a, ha, hsits⟩ := L.placed hat
  obtain ⟨g, hg, hbase⟩ := hΓ.framed.head
  cases hg
  have hroutine : L.Routine f _ (f.signature Γ.classes) a := ⟨hf, _, hcf, hsits⟩
  have htyped : Value.HasType L.tables (.closure f (⟨.activation n, bindings⟩ :: outer)) (f.signature Γ.classes).ty :=
    .closure hdecl hf hΓ.framed.typed (ClassTable.isSubtype_refl _ _)
  let ws : List Int := [a, p.snapshot.fp]
  let c : Snapshot := { p.snapshot with stack := ws ++ p.snapshot.stack }
  let W : Ledger := p.ledger.declare n (Γ.nextLocal + 1 - ws.length) ws []
  have hpush : Straight L.target L.listing.unit [.load .fp, .pushLabel entry] p.snapshot c :=
    .cons rfl (Moves.load .fp) (.single rfl (Moves.pushLabel ha))
  have hwords : WordsAt (W.word n) (Γ.nextLocal + 1 - ws.length) ws := Ledger.wordsAt_declare
  -- The words are the code of the function and the frame at hand, which is the one around its body.
  have hrep : L.Rep W (.closure f (⟨.activation n, bindings⟩ :: outer)) ws := by
    refine .closure hdecl hroutine hΓ.framed.typed (hΓ.framed.lies.mono Ledger.le_declare) hbase ?_
    have ho : Γ.nextLocal + 1 - (ws.length : Nat) = Γ.nextLocal - 1 := by
      rw [List.length_cons, List.length_singleton]
      omega
    exact ho ▸ hwords
  obtain ⟨hp₁, hΓ₁, hn₁⟩ := hΓ.declare hp hn hds.fits hdecl (.value rfl htyped) (p.ip + 2) c ws [] rfl rfl
    (List.append_nil _).symm rfl (.value hrep hwords)
  refine .pass (hpush.goes hs.left) (.learn (W := W) Ledger.le_declare
    ((ih (p := ⟨W, p.history, p.ip + 2, c⟩) hds hcds hs.right hlt hΓ₁ hp₁ (fun _ => hn₁) hzero hsub hkept).mono
      fun env r _ hr => ?_))
  rw [Tables.frameWords_cons hdecl.entry]
  exact hr.after (follows_declare hkept _ _) rfl ws rfl

/-- The dispatch table is built entry by entry behind the heap, and its address goes to the slot. -/
theorem tracked_cls {c : ClassDecl} (ih : TrackedAll L fuel call ds) : TrackedAll L fuel call (.cls c :: ds) := by
  intro Γ n bindings outer kept code p h hc hs hlt hΓ hp hslot hzero hsub hkept
  have hn := hslot (List.cons_ne_nil _ ds)
  obtain ⟨hd, hds⟩ := h.cons L.lineal
  obtain ⟨s, final, hcls⟩ := hd.cls L.lineal
  cases hc with
  | @cons _ _ ls lss hcd hcds =>
  have hcode := hcd
  cases hcd with
  | @cls _ e id inherited table he hid hi hm hdispatch =>
  cases hcls.declares.entry.symm.trans he
  cases hid
  rw [Listing.size_append, ← Nat.add_assoc] at hlt ⊢
  -- Classes stand in the outermost block.
  obtain ⟨scope, hscope⟩ := hΓ.fits.singleton hcls.level
  obtain rfl : outer = [] := by
    have htyped := hΓ.framed.typed
    rw [hscope] at htyped
    cases htyped with
    | cons _ _ hrest =>
      cases hrest
      rfl
  obtain rfl := hzero rfl
  rw [Decl.evalAll]
  refine hcls.tracks_superclass hΓ.framed fun ancestors hup => ?_
  obtain ⟨addresses, haddresses⟩ := exists_addresses hcls hi hm hup
  let d : Int := p.snapshot.heap.length
  let vs : List Int := addresses.map Int.ofNat
  let c' : Snapshot := { p.snapshot with stack := d :: p.snapshot.stack, heap := p.snapshot.heap ++ vs }
  let W : Ledger := p.ledger.declare 0 (Γ.nextLocal + 1 - [d].length) [d] vs
  have htable : L.TableAt W.heap s.old.length d := by
    change L.TableAt (p.ledger.heap ++ vs) s.old.length p.snapshot.heap.length
    rw [hp.heap]
    exact tableAt_addresses hdispatch haddresses p.ledger.heap
  have hword : W.word 0 Γ.nextLocal d := .inr ⟨rfl, 0, rfl, by simp⟩
  have hheritage : L.Heritage W (⟨c, [⟨.activation 0, bindings⟩]⟩ :: ancestors) (some s.old.length) :=
    .cons hcls hcode hΓ.framed.typed (hΓ.framed.lies.mono Ledger.le_declare) hword htable
      (hup.mono Ledger.le_declare)
  have hdecl : Γ.Declares L.tables.resolutions ((Decl.cls c).bind Γ).1 c.id c.name.text .cls (.cls s.old.length) :=
    hcls.declares.of_eq (by rw [hcls.after]) (by rw [hcls.after])
  have hgoes := Target.Goes.dispatchTable (T := L.target) (c := p.snapshot) haddresses hs.left
  have hright := hs.right
  generalize p.ip + Listing.size (plain (dispatchTable table)) = ip at hgoes hright hlt ⊢
  obtain ⟨hp₁, hΓ₁, hn₁⟩ := hΓ.declare hp hn hds.fits hdecl
    (.cls rfl rfl hcls.declares.entry hheritage.fits) ip c' [d] vs rfl rfl rfl rfl (.cls hheritage rfl hword htable)
  refine .pass hgoes (.learn (W := W) Ledger.le_declare
    ((ih (p := ⟨W, p.history, ip, c'⟩) hds hcds hright hlt hΓ₁ hp₁ (fun _ => hn₁) (fun _ => rfl) hsub hkept).mono
      fun env r _ hr => ?_))
  rw [Tables.frameWords_cons hcls.declares.entry]
  exact hr.after (follows_declare hkept _ _) rfl [d] rfl

/-- The machine keeps track of clean declarations, where it does so of calls. -/
theorem tracks_evalAll (ht : call.Sound L.tables) (hcall : L.Serves fuel call) (ds : List Decl) :
    TrackedAll L fuel call ds := by
  induction ds with
  | nil =>
    intro Γ n bindings outer kept code p _ hc _ _ hΓ hp _ _ _ _
    cases hc
    exact .pure ⟨rfl, rfl, hp, hΓ, .refl _ _, [], rfl, rfl⟩
  | cons d ds ih =>
    cases d with
    | var id name type init span => exact tracked_var ht hcall ih
    | func f => exact tracked_func ih
    | cls c => exact tracked_cls ih

end Decl

end ObjLet
