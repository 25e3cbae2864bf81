import ObjLet.Proofs.Simulation.Leads
import ObjLet.Proofs.Typing.Parts
import ObjLet.Proofs.Typing.Sound

/-!
# Values and frames as words

How the values and frames of an evaluation lie in the memory of the machine, for programs without classes and
without functions that return functions. An `Image` is such a program with its code in place.

`Image.Rep` gives a value its words: numbers, Booleans and null one, a function value the address of its code
and the base of the frame it was declared in. `Image.Lies` relates frames to the base of the innermost one:
every name has the words of its value at the offset of its entry, and the word at the base is the base of the
next frame outward. Both speak of memory through the cells that are known; with more cells they still hold
(`Image.Rep.mono`, `Image.Lies.mono`), and so do they when something is pushed.
-/

namespace ObjLet

/-- A checked program whose functions return no functions, and the code of its unit. -/
structure Image where
  target : Target
  tables : Tables
  program : Program
  listing : Listing
  At : Label → Listing → Prop
  dispatch : ClassId → Option (List Label)
  lineal : tables.classes.Lineal
  labels : listing.unit.labels.Nodup
  placed : ∀ {l : Label} {code : Listing}, At l code → listing.Placed l code
  firstOrder : ∀ {f : FunDecl}, program.HasFunction f →
    ∀ u : ClassTable, (f.signature u).returnsFunction = false

/-- Words lie in memory, the first one at an address and the others above it. -/
def WordsAt (M : Int → Int → Prop) (a : Int) (ws : List Int) : Prop :=
  ∀ (i : Nat) (x : Int), ws[i]? = some x → M (a + i) x

namespace Image

/-- A function of the program, declared between two environments, with its code at an address. -/
structure Function (I : Image) (f : FunDecl) (Γ Γ' : Env) (a : Nat) : Prop where
  mem : I.program.HasFunction f
  declares : Γ.Declares I.tables.resolutions Γ' f.id f.name.text .func (f.signature Γ.classes).ty
  checked : f.Checked I.tables Γ' (f.signature Γ.classes)
  code : ∃ code, f.Coded I.tables I.target.memory I.At I.dispatch code ∧ I.listing.Sits a code

mutual

/-- The words of a value, from the lowest address up. -/
inductive Rep (I : Image) (M : Int → Int → Prop) : Value → List Int → Prop where
  | int {n : Int} : Rep I M (.int n) [n]
  | bool {b : Bool} : Rep I M (.bool b) [if b then 1 else 0]
  | null : Rep I M .null [-1]
  /-- A function value lies in the frame of its declaration, so that the function finds itself there. -/
  | closure {f : FunDecl} {env : List Frame} {Γ Γ' : Env} {a : Nat} {base : Int}
    (hf : I.Function f Γ Γ' a) (hfit : Frame.AllFit I.tables env Γ.scopes.scopes)
    (henv : Lies I M env Γ.scopes.scopes base) (hslot : WordsAt M (base + Γ.nextLocal - 1) [a, base]) :
    Rep I M (.closure f env) [a, base]

/-- What a name stands for lies at the offset of its entry from the base of a frame. -/
inductive Binds (I : Image) (M : Int → Int → Prop) : Int → Binding → Entry → Prop where
  | value {base : Int} {v : Value} {ws : List Int} {e : Entry} (hv : Rep I M v ws)
    (hw : WordsAt M (base + e.offset + 1 - ws.length) ws) : Binds I M base (.value v) e

/-- Frames lie in memory, the innermost one at a base. -/
inductive Lies (I : Image) (M : Int → Int → Prop) : List Frame → List Scope → Int → Prop where
  | nil {base : Int} : Lies I M [] [] base
  | cons {f : Frame} {s : Scope} {env : List Frame} {scopes : List Scope} {base link : Int}
    (hb : ∀ (name : String) (e : Entry) (b : Binding), s[name]? = some e → f.lookup? name = some b →
      Binds I M base b e)
    (hlink : env ≠ [] → M base link) (h : Lies I M env scopes link) :
    Lies I M (f :: env) (s :: scopes) base

end

end Image

variable {I : Image} {M M' : Int → Int → Prop}

/-- Words that lie in memory lie in any larger memory. -/
theorem WordsAt.mono (hM : ∀ a x, M a x → M' a x) {a : Int} {ws : List Int} (h : WordsAt M a ws) :
    WordsAt M' a ws := fun i x hx => hM _ _ (h i x hx)

theorem WordsAt.left {a : Int} {vs ws : List Int} (h : WordsAt M a (vs ++ ws)) : WordsAt M a vs := by
  intro i x hx
  obtain ⟨hlt, -⟩ := List.getElem?_eq_some_iff.1 hx
  exact h i x (by rw [List.getElem?_append_left hlt, hx])

theorem WordsAt.right {a : Int} {vs ws : List Int} (h : WordsAt M a (vs ++ ws)) :
    WordsAt M (a + vs.length) ws := by
  intro i x hx
  have hi := h (vs.length + i) x (by rw [List.getElem?_append_right (by omega)]; simpa using hx)
  rwa [Int.natCast_add, ← Int.add_assoc] at hi

/-- What has been pushed last lies below all that was there. -/
theorem Target.StackCell.wordsAt {T : Target} (vs ws : List Int) :
    WordsAt (T.StackCell (vs ++ ws)) (T.memory - ws.length - vs.length) vs :=
  fun _ _ hx => Target.stackCell_top hx

namespace Image

mutual

/-- A value keeps its words when more of the memory is known, and so do the frames that it refers to. -/
theorem Rep.mono (hM : ∀ a x, M a x → M' a x) {v : Value} {ws : List Int} :
    I.Rep M v ws → I.Rep M' v ws
  | .int => .int
  | .bool => .bool
  | .null => .null
  | .closure hf hfit henv hslot => .closure hf hfit (henv.mono hM) (hslot.mono hM)

theorem Binds.mono (hM : ∀ a x, M a x → M' a x) {base : Int} {b : Binding} {e : Entry} :
    I.Binds M base b e → I.Binds M' base b e
  | .value hv hw => .value (hv.mono hM) (hw.mono hM)

theorem Lies.mono (hM : ∀ a x, M a x → M' a x) {env : List Frame} {scopes : List Scope} {base : Int} :
    I.Lies M env scopes base → I.Lies M' env scopes base
  | .nil => .nil
  | .cons hb hlink h =>
    .cons (fun name e b he hl => (hb name e b he hl).mono hM) (fun hne => hM _ _ (hlink hne)) (h.mono hM)

end

/-! ## Values -/

/-- A number is one word, itself. -/
theorem Rep.int? {v : Value} {n : Int} {ws : List Int} (h : I.Rep M v ws) (hn : v.int? = some n) :
    ws = [n] := by
  cases h with
  | int | bool =>
    cases hn
    rfl
  | null | closure _ _ _ _ => cases hn

/-- A Boolean is one word, 1 or 0. -/
theorem Rep.bool? {v : Value} {b : Bool} {ws : List Int} (h : I.Rep M v ws) (hb : v.bool? = some b) :
    ws = [if b then 1 else 0] := by
  cases h with
  | bool =>
    cases hb
    rfl
  | int | null | closure _ _ _ _ => cases hb

/-- Values that can be compared are the same if their words are. -/
theorem Rep.same? {v w : Value} {vs ws : List Int} {r : Bool} (hv : I.Rep M v vs) (hw : I.Rep M' w ws)
    (h : v.same? w = some r) : ∃ a b, vs = [a] ∧ ws = [b] ∧ r = decide (a = b) := by
  cases hv <;> cases hw <;> simp_all [Value.same?, Value.int?] <;> grind

/-- Values have as many words as their kind says. -/
theorem Rep.length {v : Value} {ws : List Int} (h : I.Rep M v ws) : ws.length = v.words := by
  cases h <;> rfl

/-- A value that is no function is its one word, whatever is in memory. -/
theorem Rep.single {v : Value} {ws : List Int} {ty : Ty} (h : I.Rep M v ws)
    (ht : v.HasType I.tables ty) (ha : ty.isArrow = false) : ∃ w, ws = [w] ∧ ∀ M, I.Rep M v [w] := by
  cases h with
  | int => exact ⟨_, rfl, fun _ => .int⟩
  | bool => exact ⟨_, rfl, fun _ => .bool⟩
  | null => exact ⟨_, rfl, fun _ => .null⟩
  | closure _ _ _ _ =>
    cases ht with
    | closure _ _ _ hs =>
      obtain ⟨_, _, rfl, -, -⟩ := ClassTable.below_arrow hs
      cases ha

end Image

/-- The word by which a value is seen from outside: of a function value, the address at which it is
entered. -/
def Value.ShownAs (ls : Listing) : Value → Int → Prop
  | .int n, w => w = n
  | .bool b, w => w = if b then 1 else 0
  | .null, w => w = -1
  | .closure f _, w => ∃ a : Nat, w = a ∧ ls.markAt a = some (.entered f.id)
  | .object _ _ _, _ => False

namespace Image

/-- At the address of a function its code is marked as entered. -/
theorem Function.markAt {f : FunDecl} {Γ Γ' : Env} {a : Nat} (h : I.Function f Γ Γ' a) :
    I.listing.markAt a = some (.entered f.id) := by
  obtain ⟨code, hc, hs⟩ := h.code
  cases hc with
  | mk _ _ _ _ =>
    rw [Listing.markAt, hs.line rfl]
    rfl

/-- The first word of a value is the one it is seen by. -/
theorem Rep.shownAs {v : Value} {ws : List Int} (h : I.Rep M v ws) :
    ∃ w rest, ws = w :: rest ∧ v.ShownAs I.listing w := by
  cases h with
  | int | bool | null => exact ⟨_, _, rfl, rfl⟩
  | closure hf _ _ _ => exact ⟨_, _, rfl, _, rfl, hf.markAt⟩

/-! ## Frames -/

/-- From one base a number of links lead to another one. -/
inductive Linked (M : Int → Int → Prop) : Nat → Int → Int → Prop where
  | zero {a : Int} : Linked M 0 a a
  | succ {n : Nat} {a b c : Int} (ha : M a b) (h : Linked M n b c) : Linked M (n + 1) a c

theorem Linked.mono (hM : ∀ a x, M a x → M' a x) {n : Nat} {a b : Int} (h : Linked M n a b) :
    Linked M' n a b := by
  induction h with
  | zero => exact .zero
  | succ ha _ ih => exact .succ (hM _ _ ha) ih

/-- What a name stands for lies in the frame in which the name is found. -/
theorem Lies.find? {name : String} {b : Binding} {s : Scope} {e : Entry} (he : s[name]? = some e) :
    ∀ {env : List Frame} {scopes : List Scope} {base : Int} {i : Nat}, I.Lies M env scopes base →
      Frame.find? name env = some (i, b) → scopes[i]? = some s →
      ∃ base', Linked M i base base' ∧ I.Binds M base' b e := by
  intro env scopes base i hlies hf hs
  induction env generalizing scopes base i with
  | nil => cases hf
  | cons f env ih =>
    cases hlies with
    | cons hb hlink h =>
      rw [Frame.find?] at hf
      split at hf
      · next hl =>
        cases hf
        cases hs
        exact ⟨base, .zero, hb _ _ _ he hl⟩
      · obtain ⟨⟨j, b'⟩, hj, heq⟩ := Option.map_eq_some_iff.1 hf
        cases heq
        obtain ⟨base', hlinked, hbinds⟩ := ih h hj hs
        refine ⟨base', .succ (hlink ?_) hlinked, hbinds⟩
        rintro rfl
        cases hj

/-- Where frames lie in memory, all names stand for values. -/
theorem Lies.isValue {name : String} {e : Entry} {s : Scope} (he : s[name]? = some e) :
    ∀ {env : List Frame} {scopes : List Scope} {base : Int}, I.Lies M env scopes base →
      Frame.AllFit I.tables env scopes → s ∈ scopes → e.kind.isValue = true
  | _, _, _, .nil, _, hs => by cases hs
  | _, _, _, .cons hb _ h, .cons hn hfit hrest, hs => by
    rcases List.mem_cons.1 hs with rfl | hs
    · obtain ⟨b, hl⟩ := Option.isSome_iff_exists.1 ((hn name).trans (by rw [he]; rfl))
      cases hb name e b he hl with
      | value _ _ =>
        cases hfit name e _ he hl with
        | value hk _ => exact hk
    · exact Lies.isValue he h hrest hs

/-- A name that is bound in the innermost frame, to a value at its offset. -/
theorem Lies.insert {env : List Frame} {s : Scope} {scopes : List Scope} {base : Int} {b : Binding}
    {e : Entry} (h : I.Lies M env (s :: scopes) base) (name : String) (hb : I.Binds M base b e) :
    I.Lies M (Frame.bind name b env) (s.insert name e :: scopes) base := by
  cases h with
  | @cons f _ env _ _ link hf hlink hrest =>
    refine .cons ?_ hlink hrest
    intro n e' b' he hl
    rw [Scope.getElem?_insert] at he
    by_cases heq : name = n
    · subst heq
      rw [if_pos rfl] at he
      cases he
      simp only [Frame.lookup?, List.lookup_cons_self, Option.some.injEq] at hl
      exact hl ▸ hb
    · rw [if_neg heq] at he
      simp only [Frame.lookup?, List.lookup_cons, beq_false_of_ne (Ne.symm heq)] at hl
      exact hf n e' b' he hl

theorem Lies.declare {r : Resolutions} {Γ Γ' : Env} {env : List Frame} {base : Int} {id : NodeId}
    {name : String} {kind : EntryKind} {ty : Ty} {b : Binding} (h : I.Lies M env Γ.scopes.scopes base)
    (hd : Γ.Declares r Γ' id name kind ty) (hb : I.Binds M base b ⟨kind, Γ.level, Γ.nextLocal, ty⟩) :
    I.Lies M (Frame.bind name b env) Γ'.scopes.scopes base := by
  obtain ⟨s, outer, hs, -, hafter⟩ := hd.scopes
  rw [hs] at h
  rw [hafter]
  exact h.insert name hb

/-- Parameters lie above the base of a frame, the first one lowest. -/
theorem Lies.declareParams {r : Resolutions} {place : Place} {outer : List Frame} {base : Int} :
    ∀ {ps : List (Param × Ty)} {args : List Value} {words : List (List Int)} {Γ : Env} {next : Int}
      {bindings : List (String × Binding)},
      List.Forall₂ (Value.HasType I.tables) args (ps.map Prod.snd) → List.Forall₂ (I.Rep M) args words →
      WordsAt M (base + next) words.flatten →
      Findings.Recorded r (Γ.declareParams next ps).2 →
      I.Lies M (⟨place, bindings⟩ :: outer) Γ.scopes.scopes base →
      I.Lies M
        (⟨place, ((ps.map (·.1.name.text)).zip (args.map Binding.value)).reverse ++ bindings⟩ :: outer)
        (Γ.declareParams next ps).1.scopes.scopes base
  | [], _, _, _, _, _, _, _, _, _, h => by simpa [Env.declareParams] using h
  | (p, ty) :: ps, v :: args, ws :: words, Γ, next, bindings, .cons hv hargs, .cons hr hrs, hw, hrec, h => by
    simp only [Env.declareParams, Findings.recorded_append] at hrec ⊢
    obtain ⟨-, s, rest, hs, -, hafter⟩ := Env.declare_of_recorded hrec.1
    rw [hs] at h
    rw [List.flatten_cons] at hw
    have hlen : (ws.length : Int) = ty.words := by rw [hr.length, hv.words_eq]
    have hbinds : I.Binds M base (.value v) ⟨.param, Γ.level, next + ty.words - 1, ty⟩ := by
      refine .value hr ?_
      have hat := hw.left
      rwa [show base + next = base + (next + ty.words - 1) + 1 - ws.length by omega] at hat
    have hbound := h.insert p.name.text hbinds
    have hscopes : (Γ.declare p.id p.name ⟨.param, Γ.level, next + ty.words - 1, ty⟩).1.scopes.scopes =
        s.insert p.name.text ⟨.param, Γ.level, next + ty.words - 1, ty⟩ :: rest := by rw [hafter]
    rw [← hscopes] at hbound
    have hw' := hw.right
    rw [hlen, Int.add_assoc] at hw'
    simpa [Frame.bind] using Lies.declareParams hargs hrs hw' hrec.2 hbound

end Image

end ObjLet
