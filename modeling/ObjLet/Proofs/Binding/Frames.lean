import ObjLet.Proofs.Binding.Reach
import ObjLet.Proofs.Code.Total
import ObjLet.Syntax.Builder

/-!
# Frames

Whatever is wrong with a program, every body has a frame without gaps and overlaps (`Resolutions.Frame`,
`Program.frames_packed`): the words of its parameters fill the offsets from 1 upwards, those of its local
declarations the offsets from -2 downwards, both in the order of the text. What a declaration does inside, in
bodies of its own, leaves the counter of the frame alone, and the code of a function pops the words of its frame.
-/

namespace ObjLet

open Findings
open scoped List

variable {p : Program} {env : Env}

/-- So many words from an offset upwards. -/
def wordsAbove (next : Int) (n : Nat) : List Int := (List.range n).map fun i : Nat => next + i

/-- So many words from an offset downwards. -/
def wordsBelow (next : Int) (n : Nat) : List Int := (List.range n).map fun i : Nat => next - i

/-- The words of a frame that a parameter or a local declaration takes: the one at its offset and, for a
function value, the one below. -/
def Entry.slots (e : Entry) : List Int := wordsBelow e.offset e.ty.words

/-- The words that entries take together. -/
def Entry.totalWords (es : List Entry) : Nat := TyOf.totalWords (es.map (·.ty))

/-- The frame of a body with parameters at some nodes and local declarations: what the tables hold for them. -/
structure Resolutions.Frame (r : Resolutions) (nodes : List NodeId) (decls : List Decl)
    (params locals : List Entry) : Prop where
  paramEntries : nodes.map r.declaration? = params.map some
  localEntries : decls.map (fun d => r.declaration? d.id) = locals.map some
  /-- The parameters fill the words from 1 upwards; of two words the upper one comes last. -/
  upwards : params.flatMap (·.slots.reverse) = wordsAbove 1 (Entry.totalWords params)
  /-- The local declarations fill the words from -2 downwards. -/
  downwards : locals.flatMap Entry.slots = wordsBelow (-2) (Entry.totalWords locals)
  disjoint : (params ++ locals).Pairwise fun e e' => e.slots.Disjoint e'.slots
  /-- The words of the access link and of the return address stay free. -/
  free : ∀ e ∈ params ++ locals, 0 ∉ e.slots ∧ -1 ∉ e.slots

/-! ## Words side by side -/

/-- A value takes one word, a function value two. -/
theorem TyOf.words_eq_one_or_two {κ : Type} (t : TyOf κ) : t.words = 1 ∨ t.words = 2 := by
  cases t with
  | arrow ps r => exact .inr rfl
  | _ => exact .inl rfl

theorem wordsAbove_add (next : Int) (m n : Nat) :
    wordsAbove next (m + n) = wordsAbove next m ++ wordsAbove (next + m) n := by
  unfold wordsAbove
  rw [List.range_add, List.map_append, List.map_map]
  congr 1
  apply List.map_congr_left
  intro i _
  simp only [Function.comp_apply, Int.natCast_add]
  omega

theorem wordsBelow_add (next : Int) (m n : Nat) :
    wordsBelow next (m + n) = wordsBelow next m ++ wordsBelow (next - m) n := by
  unfold wordsBelow
  rw [List.range_add, List.map_append, List.map_map]
  congr 1
  apply List.map_congr_left
  intro i _
  simp only [Function.comp_apply, Int.natCast_add]
  omega

theorem nodup_wordsAbove (next : Int) (n : Nat) : (wordsAbove next n).Nodup := by
  refine List.nodup_range.map fun i j h => ?_
  have h : next + (i : Int) = next + j := h
  omega

theorem nodup_wordsBelow (next : Int) (n : Nat) : (wordsBelow next n).Nodup := by
  refine List.nodup_range.map fun i j h => ?_
  have h : next - (i : Int) = next - j := h
  omega

/-- No word above an offset lies below it. -/
theorem le_of_mem_wordsAbove {next a : Int} {n : Nat} (h : a ∈ wordsAbove next n) : next ≤ a := by
  obtain ⟨i, -, rfl⟩ := List.mem_map.1 h
  omega

/-- No word below an offset lies above it. -/
theorem le_of_mem_wordsBelow {next a : Int} {n : Nat} (h : a ∈ wordsBelow next n) : a ≤ next := by
  obtain ⟨i, -, rfl⟩ := List.mem_map.1 h
  omega

/-- A parameter is addressed by the upper one of its words. -/
theorem Entry.reverse_slots (e : Entry) {next : Int} (h : e.offset = next + e.ty.words - 1) :
    e.slots.reverse = wordsAbove next e.ty.words := by
  rw [slots, h]
  obtain hw | hw := e.ty.words_eq_one_or_two
  · simp [hw, wordsAbove, wordsBelow]
  · simp only [hw, wordsAbove, wordsBelow, show List.range 2 = [0, 1] from rfl, List.map_cons, List.map_nil,
      List.reverse_cons, List.reverse_nil, List.nil_append, List.cons_append]
    congr 1
    · omega
    · congr 1
      omega

/-- Where the words follow one another nothing overlaps. -/
theorem Resolutions.Frame.of_words {r : Resolutions} {nodes : List NodeId} {decls : List Decl}
    {params locals : List Entry} (hparams : nodes.map r.declaration? = params.map some)
    (hlocals : decls.map (fun d => r.declaration? d.id) = locals.map some)
    (hup : params.flatMap (·.slots.reverse) = wordsAbove 1 (Entry.totalWords params))
    (hdown : locals.flatMap Entry.slots = wordsBelow (-2) (Entry.totalWords locals)) :
    r.Frame nodes decls params locals := by
  -- Parameters lie from 1 upwards and local declarations from -2 downwards, which leaves 0 and -1 to the links.
  have above : ∀ e ∈ params, ∀ a ∈ e.slots, 1 ≤ a := by
    intro e he a ha
    apply le_of_mem_wordsAbove
    rw [← hup]
    exact List.mem_flatMap.2 ⟨e, he, List.mem_reverse.2 ha⟩
  have below : ∀ e ∈ locals, ∀ a ∈ e.slots, a ≤ -2 := by
    intro e he a ha
    apply le_of_mem_wordsBelow
    rw [← hdown]
    exact List.mem_flatMap.2 ⟨e, he, ha⟩
  have apart : ∀ e ∈ params ++ locals, ∀ a ∈ e.slots, 1 ≤ a ∨ a ≤ -2 := by
    intro e he a ha
    obtain he | he := List.mem_append.1 he
    · exact .inl (above e he a ha)
    · exact .inr (below e he a ha)
  refine ⟨hparams, hlocals, hup, hdown, List.pairwise_append.2 ⟨?_, ?_, ?_⟩, fun e he => ⟨?_, ?_⟩⟩
  · have hnodup : (params.flatMap (·.slots.reverse)).Nodup := by
      rw [hup]
      exact nodup_wordsAbove _ _
    refine (List.nodup_flatMap.1 hnodup).2.imp fun h a ha ha' => ?_
    exact h (List.mem_reverse.2 ha) (List.mem_reverse.2 ha')
  · have hnodup : (locals.flatMap Entry.slots).Nodup := by
      rw [hdown]
      exact nodup_wordsBelow _ _
    exact (List.nodup_flatMap.1 hnodup).2
  · intro e he e' he' a ha ha'
    have := above e he a ha
    have := below e' he' a ha'
    omega
  · intro ha
    have := apart e he _ ha
    omega
  · intro ha
    have := apart e he _ ha
    omega

/-! ## The counter of a frame -/

/-- A node declares an entry among findings. -/
def Findings.HasEntry (fs : Findings) (id : NodeId) (e : Entry) : Prop := .declaration id e ∈ fs

/-- With distinct ids the tables hold what the walk found for the nodes, one by one. -/
theorem Findings.HasEntry.map_declaration? (hid : p.ids.Nodup) {fs : Findings} (hfs : ∀ f ∈ fs, f ∈ p.walk.2)
    {nodes : List NodeId} {es : List Entry} (h : List.Forall₂ fs.HasEntry nodes es) :
    nodes.map p.bind.tables.resolutions.declaration? = es.map some := by
  induction h with
  | nil => rfl
  | cons he _ ih => rw [List.map_cons, List.map_cons, (p.declaration?_eq_some hid).2 (hfs _ he), ih]

/-- A declaration is found with its entry, also where its name is reported as a duplicate. -/
theorem Env.hasEntry_declare (env : Env) (id : NodeId) (name : Name) (entry : Entry) :
    (env.declare id name entry).2.HasEntry id entry := by
  unfold declare
  split
  · exact List.mem_singleton_self _
  · exact List.mem_cons_self

/-- Parameters fill the words from an offset upwards. -/
theorem Env.exists_params (pts : List (Param × Ty)) (env : Env) (next : Int) :
    ∃ es : List Entry, es.map (·.ty) = pts.map (·.2) ∧
      List.Forall₂ (env.declareParams next pts).2.HasEntry (pts.map (·.1.id)) es ∧
      es.flatMap (·.slots.reverse) = wordsAbove next (Entry.totalWords es) := by
  induction pts generalizing env next with
  | nil => exact ⟨[], rfl, .nil, rfl⟩
  | cons pt pts ih =>
    let entry : Entry := ⟨.param, env.level, next + pt.2.words - 1, pt.2⟩
    obtain ⟨es, htys, hes, hwords⟩ := ih (env.declare pt.1.id pt.1.name entry).1 (next + pt.2.words)
    refine ⟨entry :: es, by rw [List.map_cons, List.map_cons, htys], .cons ?_ ?_, ?_⟩
    · exact List.mem_append_left _ (env.hasEntry_declare _ _ entry)
    · exact hes.imp fun id e he => List.mem_append_right _ he
    · rw [List.flatMap_cons, entry.reverse_slots rfl, hwords]
      exact (wordsAbove_add _ _ _).symm

/-- A declaration takes the next words of the frame, and what happens inside of it takes none. -/
theorem Decl.exists_entry (d : Decl) (env : Env) :
    ∃ e : Entry, (d.bind env).2.HasEntry d.id e ∧ e.offset = env.nextLocal ∧
      (d.bind env).1.nextLocal = env.nextLocal - e.ty.words := by
  obtain ⟨t, t', ty, heq, hfound⟩ := d.exists_declareLocal env
  refine ⟨⟨d.kind, env.level, env.nextLocal, ty⟩, hfound (Env.hasEntry_declare _ _ _ _), rfl, ?_⟩
  rw [heq]
  exact Env.nextLocal_declare _ _ _ _

/-- Declarations fill the words from the next one downwards. -/
theorem Decl.exists_entries (ds : List Decl) (env : Env) :
    ∃ es : List Entry, List.Forall₂ (Decl.bindAll env ds).2.HasEntry (ds.map (·.id)) es ∧
      es.flatMap Entry.slots = wordsBelow env.nextLocal (Entry.totalWords es) := by
  induction ds generalizing env with
  | nil => exact ⟨[], .nil, rfl⟩
  -- The next declaration begins where the words of this one end.
  | cons d ds ih =>
    obtain ⟨e, he, hoffset, hnext⟩ := d.exists_entry env
    obtain ⟨es, hes, hwords⟩ := ih (d.bind env).1
    refine ⟨e :: es, .cons (List.mem_append_left _ he) ?_, ?_⟩
    · exact hes.imp fun id e he => List.mem_append_right _ he
    · rw [List.flatMap_cons, hwords, hnext, Entry.slots, hoffset]
      exact (wordsBelow_add _ _ _).symm

/-! ## Frames of a program -/

namespace Program

variable {sig : Signature} {f : FunDecl}

/-- The local declarations from a position on take the words from the counter downwards. -/
theorem Reaches.exists_locals (hid : p.ids.Nodup) {ds : List Decl} {e : Expr} (h : p.Reaches env ds e) :
    ∃ ls : List Entry, ds.map (fun d => p.bind.tables.resolutions.declaration? d.id) = ls.map some ∧
      ls.flatMap Entry.slots = wordsBelow env.nextLocal (Entry.totalWords ls) := by
  obtain ⟨ls, hls, hwords⟩ := Decl.exists_entries ds env
  have hentries := HasEntry.map_declaration? hid (fun g hg => h.within.mem (List.mem_append_left _ hg)) hls
  rw [List.map_map] at hentries
  exact ⟨ls, hentries, hwords⟩

/-- What is found in the body of a function comes from the walk through the program. -/
theorem Enters.within (h : p.Enters env sig f) :
    ∃ declared : Findings, (∀ e, .declaration f.id e ∈ declared → e.ty = sig.ty) ∧ declared.ids <+ [f.id] ∧
      Within (declared ++ (f.bindBody env sig.params).2) f.ids p.walk.2 p.ids := by
  obtain ⟨Γ, d, ds, e, hr, ho⟩ := h
  obtain ⟨declared, hty, hids, hbody⟩ := ho.within
  exact ⟨declared, hty, hids, hbody.trans hr.within_decl⟩

/-- A function is walked with a signature of as many parameters as it has. -/
theorem Enters.length_params (h : p.Enters env sig f) : f.params.length = sig.params.length := by
  obtain ⟨Γ, d, ds, e, hr, ho⟩ := h
  exact ho.length_params

/-- The type of a recorded function is that of the signature with which its body is walked. -/
theorem Enters.ty_of_declaration (hid : p.ids.Nodup) (h : p.Enters env sig f) {e : Entry}
    (he : p.bind.tables.resolutions.declaration? f.id = some e) : e.ty = sig.ty := by
  obtain ⟨declared, hty, hids, hbody⟩ := h.within
  have hmem := hbody.mem_of_id hid ((p.declaration?_eq_some hid).1 he) rfl (f.ids_eq_cons ▸ List.mem_cons_self)
  obtain hmem | hmem := List.mem_append.1 hmem
  · exact hty e hmem
  · -- Nothing in the body stands at the node of the function itself.
    have htail := (FunDecl.ids_bindBody env sig.params f).subset (List.mem_filterMap.2 ⟨_, hmem, rfl⟩)
    have hnodup := hbody.nodup hid
    rw [f.ids_eq_cons, List.nodup_cons] at hnodup
    exact absurd htail hnodup.1

/-- The frame of a function: its parameters upwards, its local declarations downwards, and the types of the
signature with which it is walked. -/
theorem Enters.exists_frame (hid : p.ids.Nodup) (h : p.Enters env sig f) :
    ∃ params locals : List Entry, params.map (·.ty) = sig.params ∧
      p.bind.tables.resolutions.Frame (f.params.map (·.id)) f.decls params locals := by
  let pts := f.params.zip sig.params
  have hlen := h.length_params
  obtain ⟨declared, -, -, hbody⟩ := h.within
  obtain ⟨ps, htys, hps, hup⟩ := env.enterFrame.exists_params pts Env.firstParam
  obtain ⟨ls, hls, hdown⟩ := h.reaches.exists_locals hid
  -- The entries are paired with the types of the signature, as many as there are parameters, so none of the
  -- nodes is lost.
  have hnodes : pts.map (·.1.id) = f.params.map (·.id) := by
    rw [show (fun x : Param × Ty => x.1.id) = (·.id) ∘ Prod.fst from rfl, ← List.map_map,
      List.map_fst_zip (Nat.le_of_eq hlen)]
  have hentries := HasEntry.map_declaration? hid (fun g hg => hbody.mem (List.mem_append_right _ ?_)) hps
  · rw [hnodes] at hentries
    refine ⟨ps, ls, ?_, .of_words hentries hls hup ?_⟩
    · rw [htys, List.map_snd_zip (Nat.le_of_eq hlen.symm)]
    · rw [hdown, FunDecl.inner, Env.nextLocal_declareParams]
      rfl
  · rw [FunDecl.bindBody_findings]
    exact List.mem_append_left _ hg

/-- Every block has a frame; the outermost one has no parameters. -/
theorem HasBlock.exists_frame (hid : p.ids.Nodup) {b : Block} (hb : p.HasBlock b) :
    ∃ params locals : List Entry,
      p.bind.tables.resolutions.Frame (b.params.map (·.2)) b.decls params locals := by
  have function : ∀ {f : FunDecl} (outer : List Names), p.HasFunction f → ∃ params locals : List Entry,
      p.bind.tables.resolutions.Frame ((f.block outer).params.map (·.2)) f.decls params locals := by
    intro f outer hf
    obtain ⟨env, sig, h⟩ := hf.enters
    obtain ⟨ps, ls, -, hframe⟩ := h.exists_frame hid
    refine ⟨ps, ls, ?_⟩
    rw [FunDecl.block, List.map_map]
    exact hframe
  cases hb with
  | top =>
    obtain ⟨ls, hls, hdown⟩ := (Reaches.start (p := p)).exists_locals hid
    exact ⟨[], ls, .of_words rfl hls rfl hdown⟩
  | func hb hf => exact function _ (.func hb (hf ▸ List.mem_append_right _ List.mem_cons_self))
  | method hb hc hm =>
    refine function _ (.method hb (hc ▸ List.mem_append_right _ List.mem_cons_self) ?_)
    exact hm ▸ List.mem_append_right _ List.mem_cons_self

end Program

/-- The words of local declarations are those of their recorded entries. -/
theorem Tables.localWords_eq {t : Tables} {ds : List Decl} {ls : List Entry}
    (h : ds.map (fun d => t.resolutions.declaration? d.id) = ls.map some) :
    t.localWords ds = pure (Entry.totalWords ls) := by
  induction ds generalizing ls with
  | nil =>
    obtain rfl := List.map_eq_nil_iff.1 h.symm
    rfl
  | cons d ds ih =>
    cases ls with
    | nil => cases h
    | cons e ls =>
      obtain ⟨he, hls⟩ := List.cons_eq_cons.1 h
      rw [Tables.localWords, Tables.declaration_eq he, pure_bind, ih hls, pure_bind]
      rfl

/-- Add a function to the unit that pops so many words of parameters and of local declarations. -/
def FunDecl.genPopping (t : Tables) (mem : Int) (f : FunDecl) (entry : Label) (paramWords localWords : Nat)
    (returnsFunction : Bool) : Gen Unit := do
  let decls ← Decl.genAll t mem f.decls
  let body ← f.body.gen t mem
  Gen.addFunction entry (Code.prologue ++ decls ++ body ++ Code.epilogue paramWords localWords returnsFunction)

/-- The words that a generated function pops come from its recorded entries, so the generator never asks the
types again. -/
theorem FunDecl.gen_eq {t : Tables} {f : FunDecl} {e : Entry} {sig : Signature} {ls : List Entry}
    (he : t.resolutions.declaration? f.id = some e) (hty : e.ty = sig.ty)
    (hls : f.decls.map (fun d => t.resolutions.declaration? d.id) = ls.map some) (mem : Int) (entry : Label) :
    f.gen t mem entry =
      f.genPopping t mem entry sig.paramWords (Entry.totalWords ls) sig.returnsFunction := by
  obtain ⟨id, name, params, ret, decls, body, span⟩ := f
  rw [FunDecl.gen, Tables.functionSignature, Tables.declaration_eq he, pure_bind, hty, Ty.signature?_ty,
    Gen.orFail_some, pure_bind, Tables.localWords_eq hls, pure_bind]
  rfl

/-- With distinct ids, and whatever errors there are, the words of every frame are packed and disjoint, every
declaration takes the next words of its frame and no others, and a function whose declaration is recorded pops
the words of its parameters and of its local declarations. -/
theorem Program.frames_packed {p : Program} (hid : p.ids.Nodup) :
    (∀ b : Block, p.HasBlock b → ∃ params locals : List Entry,
      p.bind.tables.resolutions.Frame (b.params.map (·.2)) b.decls params locals) ∧
    (∀ (env : Env) (d : Decl) (ds : List Decl) (e : Expr), p.Reaches env (d :: ds) e → ∃ entry : Entry,
      p.bind.tables.resolutions.declaration? d.id = some entry ∧ entry.offset = env.nextLocal ∧
        (d.bind env).1.nextLocal = env.nextLocal - entry.ty.words) ∧
    ∀ (f : FunDecl) (e : Entry), p.HasFunction f → p.bind.tables.resolutions.declaration? f.id = some e →
      ∃ (sig : Signature) (params locals : List Entry), e.ty = sig.ty ∧
        p.bind.tables.resolutions.Frame (f.params.map (·.id)) f.decls params locals ∧
        ∀ (mem : Int) (entry : Label), f.gen p.bind.tables mem entry =
          f.genPopping p.bind.tables mem entry (Entry.totalWords params) (Entry.totalWords locals)
            sig.returnsFunction := by
  refine ⟨fun b hb => hb.exists_frame hid, fun env d ds e h => ?_, fun f e hf he => ?_⟩
  · obtain ⟨entry, hentry, hoffset, hnext⟩ := d.exists_entry env
    exact ⟨entry, (p.declaration?_eq_some hid).2 (h.within_decl.mem hentry), hoffset, hnext⟩
  · obtain ⟨env, sig, h⟩ := hf.enters
    obtain ⟨params, locals, htys, hframe⟩ := h.exists_frame hid
    have hty := h.ty_of_declaration hid he
    refine ⟨sig, params, locals, hty, hframe, fun mem entry => ?_⟩
    rw [FunDecl.gen_eq he hty hframe.localEntries mem entry, Signature.paramWords, ← htys]
    rfl

/-- A function with a function as its first parameter, a local declaration of the name of a parameter, a class
where none may stand and, in the class, a method that is rejected. -/
def Program.crowded : Program := Program.built do
  let arrow := TypeExpr.arrow [.int] .int
  let first ← Build.function "m" [] .int [] (← Build.literal (.int 0))
  let second ← Build.function "m" [← Build.param "k" arrow] arrow
    [← Build.var "y" .int (← Build.literal (.int 1))] (← Build.ident "k")
  let c ← Build.cls "C" none [] [first, second]
  let x ← Build.var "x" .bool (← Build.ident "nowhere")
  let g ← Build.function "g" [] .int [] (← Build.literal (.int 2))
  let f ← Build.function "f" [← Build.param "h" arrow, ← Build.param "x" .int] .int [.cls c, x, .func g]
    (← Build.ident "x")
  Build.program [.func f] (← Build.literal .null)

/-- A frame of a program with four errors. The function value among the parameters takes two words, and so does
the local function, and the class and the variable that are reported still take theirs. -/
theorem Program.frames_packed_crowded :
    crowded.bind.errors.length = 4 ∧ ∃ params locals : List Entry,
      params.flatMap (·.slots.reverse) = [1, 2, 3] ∧ locals.flatMap Entry.slots = [-2, -3, -4, -5] ∧
        (params ++ locals).Pairwise fun e e' => e.slots.Disjoint e'.slots := by
  have hid : crowded.ids.Nodup := by decide +kernel
  obtain ⟨hblocks, -, -⟩ := frames_packed hid
  obtain ⟨params, locals, hframe⟩ := hblocks _ (@HasBlock.func crowded _ [] _ _ .top rfl)
  have entries : ∀ {os : List (Option Entry)} {es : List Entry}, os = es.map some → es = os.reduceOption := by
    rintro os es rfl
    change es = List.filterMap id _
    rw [List.filterMap_map]
    exact List.filterMap_some.symm
  have hparams : Entry.totalWords params = 3 := by
    rw [entries hframe.paramEntries]
    decide +kernel
  have hlocals : Entry.totalWords locals = 4 := by
    rw [entries hframe.localEntries]
    decide +kernel
  refine ⟨by decide +kernel, params, locals, ?_, ?_, hframe.disjoint⟩
  · rw [hframe.upwards, hparams]
    rfl
  · rw [hframe.downwards, hlocals]
    rfl

end ObjLet
