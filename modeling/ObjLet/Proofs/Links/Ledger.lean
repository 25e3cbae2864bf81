import ObjLet.Proofs.Simulation.Represent

/-!
# Words of places

How the values and frames of an evaluation lie in the memory of the machine. Variables and fields are never
assigned, so a `Ledger` keeps what is known of each place for good: its base, the words at offsets from it, and for
an activation the places around it. What has been entered stays when the activation ends; only live activations
have their words in memory.

`Loaded.Rep` gives a value its words, and `Loaded.Lies` says that the frames around a point of the program have the
words that their scopes count on. Both hold of every later ledger (`Loaded.Rep.mono`, `Loaded.Lies.mono`).
-/

namespace ObjLet

/-- A checked program, and the code of its unit. -/
structure Loaded where
  target : Target
  tables : Tables
  listing : Listing
  At : Label → Listing → Prop
  dispatch : ClassId → Option (List Label)
  lineal : tables.classes.Lineal
  labels : listing.unit.labels.Nodup
  placed : ∀ {l : Label} {code : Listing}, At l code → listing.Placed l code

structure Ledger where
  base : Place → Option Int
  /-- The places around an activation, the innermost first. -/
  around : Nat → Option (List Place)
  /-- The words of an activation, by their offsets. -/
  word : Nat → Int → Int → Prop
  heap : List Int

namespace Ledger

/-- The words of a place, by their offsets from its base. -/
def Word (W : Ledger) : Place → Int → Int → Prop
  | .activation n, o, x => W.word n o x
  | .object id, o, x => ∃ b, W.base (.object id) = some b ∧ HeapCell W.heap (b + o) x

/-- The first word of an activation is the base of the innermost place around it. -/
def Links (W : Ledger) (p : Place) (env : List Frame) : Prop :=
  ∀ n, p = .activation n → W.around n = some (env.map (·.place)) ∧
    ∀ f, env.head? = some f → ∃ link, W.base f.place = some link ∧ W.word n 0 link

/-- A later ledger. -/
structure Le (W W' : Ledger) : Prop where
  base : ∀ {p : Place} {b : Int}, W.base p = some b → W'.base p = some b
  around : ∀ {n : Nat} {ps : List Place}, W.around n = some ps → W'.around n = some ps
  word : ∀ {n : Nat} {o x : Int}, W.word n o x → W'.word n o x
  heap : W.heap <+: W'.heap

variable {W W' W'' : Ledger}

/-- Ledgers are ordered by what they know. Everything below that is said of a ledger is said of the later ones
too. -/
theorem Le.refl (W : Ledger) : W.Le W := ⟨id, id, id, List.prefix_rfl⟩

theorem Le.trans (h : W.Le W') (h' : W'.Le W'') : W.Le W'' :=
  ⟨fun hb => h'.base (h.base hb), fun ha => h'.around (h.around ha), fun hw => h'.word (h.word hw),
    h.heap.trans h'.heap⟩

/-- The heap grows at its end only, so its words stay. -/
theorem Le.heapCell (h : W.Le W') {a x : Int} (hc : HeapCell W.heap a x) : HeapCell W'.heap a x := by
  obtain ⟨rest, hrest⟩ := h.heap
  rw [← hrest]
  exact hc.append rest

/-- Words of activations are kept as such, words of objects as words of the heap. -/
theorem Le.wordOf (h : W.Le W') {p : Place} {o x : Int} (hw : W.Word p o x) : W'.Word p o x := by
  cases p with
  | activation n => exact h.word hw
  | object id =>
    obtain ⟨b, hb, hc⟩ := hw
    exact ⟨b, h.base hb, h.heapCell hc⟩

/-- The places around an activation are fixed when it is entered. -/
theorem Links.mono {p : Place} {env : List Frame} (hl : W.Links p env) (h : W.Le W') : W'.Links p env := by
  intro n hp
  obtain ⟨haround, hhead⟩ := hl n hp
  refine ⟨h.around haround, fun f hf => ?_⟩
  obtain ⟨link, hlink, hw⟩ := hhead f hf
  exact ⟨link, h.base hlink, h.word hw⟩

end Ledger

namespace Loaded

/-- A function or method with its code at an address. -/
structure Routine (L : Loaded) (f : FunDecl) (Γ : Env) (sig : Signature) (a : Nat) : Prop where
  checked : f.Checked L.tables Γ sig
  code : ∃ code, f.Coded L.tables L.target.memory L.At L.dispatch code ∧ L.listing.Sits a code

/-- The dispatch table of a class lies on the heap. -/
def TableAt (L : Loaded) (heap : List Int) (c : ClassId) (d : Int) : Prop :=
  ∀ table, L.dispatch c = some table → ∀ (i : Nat) (l : Label), table[i]? = some l →
    ∃ a : Nat, L.listing.unit.address? l = some a ∧ HeapCell heap (d + i) a

mutual

/-- The words of a value, from the lowest address up. -/
inductive Rep (L : Loaded) (W : Ledger) : Value → List Int → Prop where
  | int {n : Int} : Rep L W (.int n) [n]
  | bool {b : Bool} : Rep L W (.bool b) [if b then 1 else 0]
  | null : Rep L W .null [-1]
  | object {id : Nat} {lineage : List ClassValue} {fields : List (String × Value)} {c : ClassId} {cls : Class}
    {base d : Int} (hb : W.base (.object id) = some base) (hl : Heritage L W lineage (some c))
    (hc : L.tables.classes.class? c = some cls) (hd : HeapCell W.heap base d) (ht : L.TableAt W.heap c d)
    (hf : ∀ (name : String) (e : Entry) (v : Value), cls.members[name]? = some e → e.kind = .field →
      fields.lookup name = some v → Binds L W (.object id) (.value v) e) :
    Rep L W (.object id lineage fields) [base]
  /-- A function value lies in the frame of its declaration, so that the function finds itself there. -/
  | closure {f : FunDecl} {n : Nat} {bindings : List (String × Binding)} {env : List Frame} {Γ Γ' : Env} {a : Nat}
    {base : Int} (hd : Γ.Declares L.tables.resolutions Γ' f.id f.name.text .func (f.signature Γ.classes).ty)
    (hf : L.Routine f Γ' (f.signature Γ.classes) a)
    (hfit : Frame.AllFit L.tables (⟨.activation n, bindings⟩ :: env) Γ.scopes.scopes)
    (hlies : Lies L W (⟨.activation n, bindings⟩ :: env) Γ.scopes.scopes) (hb : W.base (.activation n) = some base)
    (hslot : WordsAt (W.word n) (Γ.nextLocal - 1) [a, base]) :
    Rep L W (.closure f (⟨.activation n, bindings⟩ :: env)) [a, base]

/-- A class and its ancestors, each with its dispatch table in the outermost frame. -/
inductive Heritage (L : Loaded) (W : Ledger) : List ClassValue → Option ClassId → Prop where
  | nil : Heritage L W [] none
  | cons {c : ClassDecl} {bindings : List (String × Binding)} {ancestors : List ClassValue} {Γ Γ' : Env}
    {s : ClassSite} {final : Class} {code : Listing} {d : Int} (hc : c.Checked L.tables Γ Γ' s final)
    (hcode : (Decl.cls c).Coded L.tables L.target.memory L.At L.dispatch code)
    (hfit : Frame.AllFit L.tables [⟨.activation 0, bindings⟩] Γ.scopes.scopes)
    (hlies : Lies L W [⟨.activation 0, bindings⟩] Γ.scopes.scopes) (hd : W.word 0 Γ.nextLocal d)
    (ht : L.TableAt W.heap s.old.length d) (hup : Heritage L W ancestors final.layout.superclass) :
    Heritage L W (⟨c, [⟨.activation 0, bindings⟩]⟩ :: ancestors) (some s.old.length)

/-- What a name stands for lies at the offset of its entry from the base of a place. -/
inductive Binds (L : Loaded) (W : Ledger) : Place → Binding → Entry → Prop where
  | value {p : Place} {v : Value} {ws : List Int} {e : Entry} (hv : Rep L W v ws)
    (hw : WordsAt (W.Word p) (e.offset + 1 - ws.length) ws) : Binds L W p (.value v) e
  | method {id : Nat} {lineage : List ClassValue} {fields : List (String × Value)} {e : Entry} {base : Int}
    (hv : Rep L W (.object id lineage fields) [base]) : Binds L W (.object id) (.method (.object id lineage fields)) e
  | cls {lineage : List ClassValue} {c : ClassId} {e : Entry} {d : Int} (hl : Heritage L W lineage (some c))
    (hty : e.ty = .cls c) (hd : W.word 0 e.offset d) (ht : L.TableAt W.heap c d) :
    Binds L W (.activation 0) (.cls lineage) e

/-- Frames have the words that their scopes count on. -/
inductive Lies (L : Loaded) (W : Ledger) : List Frame → List Scope → Prop where
  | nil : Lies L W [] []
  | cons {f : Frame} {s : Scope} {env : List Frame} {scopes : List Scope} {base : Int}
    (hb : W.base f.place = some base)
    (hn : ∀ (name : String) (e : Entry) (b : Binding), s[name]? = some e → f.lookup? name = some b →
      Binds L W f.place b e)
    (hl : W.Links f.place env) (h : Lies L W env scopes) : Lies L W (f :: env) (s :: scopes)

end

variable {L : Loaded} {W W' : Ledger}

/-- A dispatch table lies on the heap for good. -/
theorem TableAt.mono {c : ClassId} {d : Int} (ht : L.TableAt W.heap c d) (h : W.Le W') : L.TableAt W'.heap c d := by
  intro table htable i l hl
  obtain ⟨a, ha, hc⟩ := ht table htable i l hl
  exact ⟨a, ha, h.heapCell hc⟩

mutual

/-- Values keep their words: frames and objects do not move. -/
theorem Rep.mono (h : W.Le W') {v : Value} {ws : List Int} : L.Rep W v ws → L.Rep W' v ws
  | .int => .int
  | .bool => .bool
  | .null => .null
  | .object hb hl hc hd ht hf =>
    .object (h.base hb) (hl.mono h) hc (h.heapCell hd) (ht.mono h) fun n e v he hk hv => (hf n e v he hk hv).mono h
  | .closure hd hf hfit hlies hb hslot =>
    .closure hd hf hfit (hlies.mono h) (h.base hb) (hslot.mono fun _ _ => h.word)

/-- A class keeps its place in its lineage. -/
theorem Heritage.mono (h : W.Le W') {lineage : List ClassValue} {c : Option ClassId} :
    L.Heritage W lineage c → L.Heritage W' lineage c
  | .nil => .nil
  | .cons hc hcode hfit hlies hd ht hup =>
    .cons hc hcode hfit (hlies.mono h) (h.word hd) (ht.mono h) (hup.mono h)

/-- A binding is found in the words of its place, which stay. -/
theorem Binds.mono (h : W.Le W') {p : Place} {b : Binding} {e : Entry} : L.Binds W p b e → L.Binds W' p b e
  | .value hv hw => .value (hv.mono h) (hw.mono fun _ _ => h.wordOf)
  | .method hv => .method (hv.mono h)
  | .cls hl hty hd ht => .cls (hl.mono h) hty (h.word hd) (ht.mono h)

/-- The frames around a point of the program stay where they are. With this, names can be looked up long after
they were declared. -/
theorem Lies.mono (h : W.Le W') {env : List Frame} {scopes : List Scope} : L.Lies W env scopes → L.Lies W' env scopes
  | .nil => .nil
  | .cons hb hn hl hrest =>
    .cons (h.base hb) (fun n e b he hf => (hn n e b he hf).mono h) (hl.mono h) (hrest.mono h)

end

/-! ## Values -/

/-- A number is its own word. -/
theorem Rep.int? {v : Value} {n : Int} {ws : List Int} (h : L.Rep W v ws) (hn : v.int? = some n) : ws = [n] := by
  cases h with
  | int | bool =>
    cases hn
    rfl
  | null | object _ _ _ _ _ _ | closure _ _ _ _ _ _ => cases hn

/-- Truth values are the words 1 and 0, which is what branches compare with. -/
theorem Rep.bool? {v : Value} {b : Bool} {ws : List Int} (h : L.Rep W v ws) (hb : v.bool? = some b) :
    ws = [if b then 1 else 0] := by
  cases h with
  | bool =>
    cases hb
    rfl
  | int | null | object _ _ _ _ _ _ | closure _ _ _ _ _ _ => cases hb

/-- A value has as many words as its type says, so slots are not mixed up. -/
theorem Rep.length {v : Value} {ws : List Int} (h : L.Rep W v ws) : ws.length = v.words := by
  cases h <;> rfl

theorem Rep.words_cases {v : Value} {ws : List Int} (h : L.Rep W v ws) : ws.length = 1 ∨ ws.length = 2 := by
  cases h <;> simp

/-! ## Frames -/

/-- A binding that has its words may be added to the innermost frame. -/
theorem Lies.insert {place : Place} {bindings : List (String × Binding)} {outer : List Frame} {s : Scope}
    {scopes : List Scope} {b : Binding} {e : Entry} (h : L.Lies W (⟨place, bindings⟩ :: outer) (s :: scopes))
    (name : String) (hb : L.Binds W place b e) :
    L.Lies W (⟨place, (name, b) :: bindings⟩ :: outer) (s.insert name e :: scopes) := by
  cases h with
  | cons hbase hn hl hrest =>
  refine .cons hbase (fun n e' b' he hlook => ?_) hl hrest
  rw [Scope.getElem?_insert] at he
  by_cases heq : name = n
  · subst heq
    rw [if_pos rfl] at he
    cases he
    simp only [Frame.lookup?, List.lookup_cons_self, Option.some.injEq] at hlook
    exact hlook ▸ hb
  · rw [if_neg heq] at he
    simp only [Frame.lookup?, List.lookup_cons, beq_false_of_ne (Ne.symm heq)] at hlook
    exact hn n e' b' he hlook

/-- Declaring a name in an environment and binding it in a frame go together. -/
theorem Lies.declare {r : Resolutions} {Γ Γ' : Env} {place : Place} {bindings : List (String × Binding)}
    {outer : List Frame} {id : NodeId} {name : String} {kind : EntryKind} {ty : Ty} {b : Binding}
    (h : L.Lies W (⟨place, bindings⟩ :: outer) Γ.scopes.scopes) (hd : Γ.Declares r Γ' id name kind ty)
    (hb : L.Binds W place b ⟨kind, Γ.level, Γ.nextLocal, ty⟩) :
    L.Lies W (⟨place, (name, b) :: bindings⟩ :: outer) Γ'.scopes.scopes := by
  obtain ⟨s, scopes, hs, -, hafter⟩ := hd.scopes
  rw [hs] at h
  rw [hafter]
  exact h.insert name hb

/-- Parameters lie above the base of a frame, the first one lowest. -/
theorem Lies.declareParams {r : Resolutions} {place : Place} {outer : List Frame} :
    ∀ {ps : List (Param × Ty)} {args : List Value} {words : List (List Int)} {Γ : Env} {next : Int}
      {bindings : List (String × Binding)},
      List.Forall₂ (Value.HasType L.tables) args (ps.map Prod.snd) → List.Forall₂ (L.Rep W) args words →
      WordsAt (W.Word place) next words.flatten → Findings.Recorded r (Γ.declareParams next ps).2 →
      L.Lies W (⟨place, bindings⟩ :: outer) Γ.scopes.scopes →
      L.Lies W (⟨place, ((ps.map (·.1.name.text)).zip (args.map Binding.value)).reverse ++ bindings⟩ :: outer)
        (Γ.declareParams next ps).1.scopes.scopes
  | [], _, _, _, _, _, _, _, _, _, h => by simpa [Env.declareParams] using h
  | (p, ty) :: ps, v :: args, ws :: words, Γ, next, bindings, .cons hv hargs, .cons hr hrs, hw, hrec, h => by
    simp only [Env.declareParams, Findings.recorded_append] at hrec ⊢
    obtain ⟨-, s, rest, hs, -, hafter⟩ := Env.declare_of_recorded hrec.1
    rw [hs] at h
    rw [List.flatten_cons] at hw
    have hlen : (ws.length : Int) = ty.words := by rw [hr.length, hv.words_eq]
    have hbinds : L.Binds W place (.value v) ⟨.param, Γ.level, next + ty.words - 1, ty⟩ := by
      refine .value hr ?_
      have hat := hw.left
      rwa [show next = (next + ty.words - 1) + 1 - ws.length by omega] at hat
    have hbound := h.insert p.name.text hbinds
    have hscopes : (Γ.declare p.id p.name ⟨.param, Γ.level, next + ty.words - 1, ty⟩).1.scopes.scopes =
        s.insert p.name.text ⟨.param, Γ.level, next + ty.words - 1, ty⟩ :: rest := by rw [hafter]
    rw [← hscopes] at hbound
    have hw' := hw.right
    rw [hlen] at hw'
    simpa using Lies.declareParams hargs hrs hw' hrec.2 hbound

end Loaded

end ObjLet
