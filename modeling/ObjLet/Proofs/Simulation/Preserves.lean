import ObjLet.Compile
import ObjLet.Proofs.Code.Listed
import ObjLet.Proofs.Simulation.Decl

/-!
# Programs run as they are evaluated

The unit of a program without classes, whose functions return no functions, does what the evaluation of the
program says (`Program.compile_preserves`): it ends with the same value and has printed the same output.
-/

namespace ObjLet

open Code Image

variable {I : Image}

theorem Program.compile_eq_ok {p : Program} {o : Options} (ho : o.checkTypes = true) {compiled : Compiled}
    (h : p.compile o = .ok compiled) :
    p.bind.errors = [] ∧ p.typeErrors p.bind.tables = [] ∧ compiled.analysis.tables = p.bind.tables ∧
      p.generate p.bind.tables o.memorySize = .ok compiled.unit := by
  rw [compile] at h
  cases hana : p.analyze o with
  | error es =>
    rw [hana] at h
    cases h
  | ok a =>
    obtain ⟨hbind, htype, rfl⟩ := analyze_eq_ok ho hana
    rw [hana] at h
    cases hu : p.generate p.bind.tables o.memorySize with
    | error e =>
      simp only [Except.mapError, hu, Bind.bind, Except.bind] at h
      cases h
    | ok u =>
      simp only [Except.mapError, hu, Bind.bind, Except.bind] at h
      cases h
      exact ⟨hbind, htype, rfl, rfl⟩

/-- Functions sit where their labels are. -/
theorem Listing.placed_ofFunctions {main : Listing} {functions : List (Label × Listing)}
    (hl : (unit (main ++ ofFunctions functions)).labels.Nodup) {l : Label} {code : Listing}
    (h : (l, code) ∈ functions) : Listing.Placed (main ++ ofFunctions functions) l code := by
  obtain ⟨before, after, rfl⟩ := List.append_of_mem h
  have hsplit : main ++ ofFunctions (before ++ (l, code) :: after) =
      (main ++ ofFunctions before) ++ (⟨.place l, none⟩ :: code) ++ ofFunctions after := by
    simp [ofFunctions]
  have hs : Listing.Sits (main ++ ofFunctions (before ++ (l, code) :: after)) 0
      (((main ++ ofFunctions before) ++ ⟨.place l, none⟩ :: code) ++ ofFunctions after) :=
    ⟨[], [], by rw [hsplit]; simp, rfl⟩
  exact hs.left.placed hl rfl

/-- A type that is not written as a function type does not resolve to one. -/
theorem TypeExpr.isArrow_resolve {ty : TypeExpr} (h : ∀ params ret, ty ≠ .arrow params ret) (u : ClassTable) :
    (ty.resolve u).isArrow = false := by
  cases ty with
  | int | bool | null => rfl
  | ref c =>
    rw [TypeExpr.resolve]
    split <;> rfl
  | arrow params ret => exact absurd rfl (h params ret)

/-- The registers at the start, with nothing on the stack and the heap. -/
def Snapshot.start (T : Target) : Snapshot := ⟨[], [], T.memory, 0, 0, []⟩

/-- The machine starts with nothing on the stack and nothing on the heap. -/
theorem Machine.start_at (T : Target) : (Machine.start T.memory).At T 0 (.start T) :=
  ⟨rfl, Int.add_zero _, rfl, rfl, rfl, rfl, rfl, Int.natCast_nonneg _, nofun, nofun⟩

/-- The registers behind the first word of a program with declarations. -/
def Snapshot.first (T : Target) (p : Program) : Snapshot :=
  if p.hasDecls then (Snapshot.start T).push 0 else .start T

namespace Snapshot

variable (T : Target) (p : Program)

theorem fp_first : (first T p).fp = T.memory := by
  rw [first]
  split <;> rfl

theorem heap_first : (first T p).heap = [] := by
  rw [first]
  split <;> rfl

theorem out_first : (first T p).out = [] := by
  rw [first]
  split <;> rfl

/-- A program with declarations begins by pushing a word for the base of the outermost frame. -/
theorem straight_first (u : CodeUnit) :
    Straight T u (if p.hasDecls then [.push 0] else []) (.start T) (first T p) := by
  rw [first]
  split
  · exact .single rfl (Moves.push 0)
  · exact .nil

/-- Declarations start at the first offset for locals. -/
theorem nextLocal_first (h : p.decls ≠ []) :
    (first T p).fp + Env.initial.nextLocal + (first T p).stack.length + 1 = T.memory := by
  have hdecls : p.hasDecls = true := by simpa [Program.hasDecls] using h
  simp only [first, hdecls, if_true, push, start, Env.initial, Env.firstLocal, List.length_cons, List.length_nil]
  omega

end Snapshot

/-- The main part of a listing implements the evaluation of its program. -/
theorem Image.implements_program (h : I.program.Checked I.tables) (hcls : I.program.classes = [])
    {ds bs rest : Listing}
    (hds : Decl.CodedAll I.tables I.target.memory I.At I.dispatch I.program.decls ds)
    (hbs : I.program.body.Coded I.tables I.target.memory bs)
    (hs : I.listing = plain (if I.program.hasDecls then [.push 0] else []) ++ ds ++ bs ++ plain [.halt] ++ rest)
    (fuel : Nat) :
    ∃ ip, I.listing.Sits ip (plain [.halt]) ∧
      I.Implements 0 (.start I.target)
        (Decl.evalAll I.target.wrap (FunDecl.call I.target.wrap fuel) [⟨.activation 0, []⟩] I.program.decls
          >>= fun env => I.program.body.eval I.target.wrap (FunDecl.call I.target.wrap fuel) env)
        ip fun v c' => ∃ w ws, c'.stack = w :: ws ∧ v.ShownAs I.listing w := by
  have hall : I.listing.Sits 0
      (plain (if I.program.hasDecls then [.push 0] else []) ++ ds ++ bs ++ plain [.halt]) :=
    ⟨[], rest, by rw [hs]; simp, rfl⟩
  have hlt := hall.le
  have hlocals := hall.left.left.right
  have hbody := hall.left.right
  refine ⟨_, hall.right, ?_⟩
  simp only [Listing.size_append, Nat.zero_add] at hlt hlocals hbody ⊢
  have hone : Listing.size (plain [.halt]) = 1 := rfl
  let c₁ : Snapshot := .first I.target I.program
  -- In front of the declarations there is one frame without names, which has no link to follow.
  have hΓ : I.Scoped .initial [⟨.activation 0, []⟩] c₁ := by
    have houter : I.Lies (I.cells c₁) [] [] 0 := .nil
    refine ⟨Env.fits_initial _, .cons (fun n => ?_) (fun n e b he _ => ?_) .nil,
      .cons (fun n e b he _ => ?_) (fun hne => absurd rfl hne) houter⟩
    · simp [Frame.lookup?]
    · simp at he
    · simp at he
  have hno : ∀ c, .cls c ∉ I.program.decls := by
    intro c hc
    have hmem : c ∈ I.program.classes := List.mem_filterMap.2 ⟨.cls c, hc, rfl⟩
    rw [hcls] at hmem
    cases hmem
  refine .straight (Snapshot.straight_first ..) (code_plain _) hall.left.left.left (Snapshot.out_first ..) ?_
  rw [Nat.zero_add]
  refine (Decl.implements_evalAll (FunDecl.sound_call I.lineal fuel) (I.serves_call fuel) I.program.decls
    h.decls (fun f hf => .func .top hf) hno hds hlocals (by omega) hΓ
    (Snapshot.nextLocal_first I.target I.program)).bind ?_
  rintro env c₂ ⟨hΓ₂, hfp₂, locals, -, hstack₂⟩
  refine (Expr.implemented (FunDecl.sound_call I.lineal fuel) (I.serves_call fuel) h.body hbs hbody
    (by omega) hΓ₂).mono ?_
  rintro v c' ⟨ws, hrep, hstack, -⟩
  obtain ⟨w, rest', rfl, hshown⟩ := hrep.shownAs
  exact ⟨w, rest' ++ c₂.stack, hstack, hshown⟩

/-- Semantic preservation: where the ids of a program are distinct and it compiles with type checking, declares
no class and no function that returns a function, and its evaluation ends with a value, its unit comes to
`halt` with the value on top of the stack and has printed the output, or the stack meets the heap before. -/
theorem Program.compile_preserves {p : Program} (T : Target) {compiled : Compiled} (hid : p.ids.Nodup)
    (hcompile : p.compile { memorySize := T.memory } = .ok compiled) (hclasses : p.classes = [])
    (hret : ∀ {f}, p.HasFunction f → ∀ params ret, f.ret ≠ .arrow params ret) {fuel : Nat} {v : Value}
    {h : History} {es : List Event} (heval : p.eval T.wrap fuel = (.value v, h, es)) :
    ∃ ls, p.Listed compiled.analysis.tables T.memory ls ∧ ls.unit = compiled.unit ∧
      ((∃ n, T.run compiled.unit n (.start T.memory) = .error .stackOverflow) ∨
        ∃ n s, T.run compiled.unit n (.start T.memory) = .ok s ∧
          T.step compiled.unit s = .error .halt ∧ v.ShownAs ls s.top ∧
          List.Forall₂ (Value.ShownAs ls) h.output s.out) := by
  obtain ⟨hbind, htype, htables, hgen⟩ := compile_eq_ok rfl hcompile
  have hclean := Program.checked hid hbind htype
  obtain ⟨ls, hlisted, hunit, hlabels⟩ := hclean.exists_listed hgen
  obtain ⟨functions, dispatch, ds, bs, hds, hbs, hls⟩ := id hlisted
  rw [htables]
  refine ⟨ls, hlisted, hunit, ?_⟩
  rw [← hunit]
  let I : Image := {
    target := T
    tables := p.bind.tables
    program := p
    listing := ls
    At := fun l code => (l, code) ∈ functions
    dispatch := dispatch
    lineal := hclean.lineal
    labels := hlabels
    placed := fun hf => by
      subst hls
      exact Listing.placed_ofFunctions hlabels hf
    firstOrder := fun hf u => TypeExpr.isArrow_resolve (hret hf) u }
  -- From here on only the image matters: what evaluation and code have in common.
  obtain ⟨ip, hhalt, himp⟩ := I.implements_program hclean hclasses hds hbs hls fuel
  obtain ⟨c', hleads, hout, w, ws, hstack, hshown⟩ := himp {} h v es .nil heval
  rcases hleads _ (Machine.start_at T) with hfull | ⟨n, s, hrun, hat⟩
  · exact .inl hfull
  refine .inr ⟨n, s, hrun, ?_, ?_, ?_⟩
  · exact Target.Leads.step_eq hhalt rfl hat
  · have htop := hat.word (i := 0) (x := w) (by rw [hstack]; rfl)
    rw [Int.natCast_zero, Int.add_zero] at htop
    rwa [Machine.top, htop]
  · rwa [hat.out]

/-- A function in a function, a recursive function, and a function that is passed down, reads a variable around
it and prints. -/
def Program.summing : Program := Program.built do
  let arrow := TypeExpr.arrow [.int] .int
  let step ← Build.var "step" .int (← Build.literal (.int 3))
  let scale ← Build.function "scale" [← Build.param "k" .int] .int []
    (← Build.print (← Build.binary .mul (← Build.ident "k") (← Build.ident "step")))
  let rest ← Build.call "go" [← Build.binary .sub (← Build.ident "k") (← Build.literal (.int 1))]
  let go ← Build.function "go" [← Build.param "k" .int] .int []
    (← Build.cond (← Build.binary .lessEqual (← Build.ident "k") (← Build.literal (.int 0)))
      (← Build.literal (.int 0)) (← Build.binary .add (← Build.call "f" [← Build.ident "k"]) rest))
  let sum ← Build.function "sum" [← Build.param "f" arrow, ← Build.param "n" .int] .int [.func go]
    (← Build.call "go" [← Build.ident "n"])
  Build.program [step, .func scale, .func sum]
    (← Build.call "sum" [← Build.ident "scale", ← Build.literal (.int 2)])

/-- The program with the nested, the recursive and the passed function evaluates to 9 and prints 6 and 3. Its
unit halts with 9 on top and has printed the same, unless the stack meets the heap. -/
theorem Program.compile_preserves_summing :
    ∃ compiled v h es ls, summing.compile { memorySize := 10000 } = .ok compiled ∧
      summing.eval id 5 = (.value v, h, es) ∧ v.int? = some 9 ∧ h.output.map Value.int? = [some 6, some 3] ∧
      summing.Listed compiled.analysis.tables 10000 ls ∧ ls.unit = compiled.unit ∧
      ((∃ n, (Target.unbounded 10000).run compiled.unit n (.start 10000) = .error .stackOverflow) ∨
        ∃ n s, (Target.unbounded 10000).run compiled.unit n (.start 10000) = .ok s ∧
          (Target.unbounded 10000).step compiled.unit s = .error .halt ∧ v.ShownAs ls s.top ∧
          List.Forall₂ (Value.ShownAs ls) h.output s.out) := by
  have hid : summing.ids.Nodup := by decide +kernel
  have hret : ∀ f ∈ summing.functions, ∀ params ret, f.ret ≠ .arrow params ret := by
    have hall : summing.functions.all (fun f => !(f.ret.resolve .empty).isArrow) = true := by decide +kernel
    intro f hf params ret heq
    have hf := List.all_eq_true.1 hall f hf
    rw [heq] at hf
    cases hf
  have hok : (summing.compile { memorySize := 10000 }).toBool = true := by decide +kernel
  have hvalue : (match summing.eval id 5 with
      | (.value v, h, _) => v.int? == some 9 && h.output.map Value.int? == [some 6, some 3]
      | _ => false) = true := by decide +kernel
  cases hc : summing.compile { memorySize := 10000 } with
  | error e =>
    rw [hc] at hok
    cases hok
  | ok compiled =>
  split at hvalue
  · next v h es heval =>
    rw [Bool.and_eq_true, beq_iff_eq, beq_iff_eq] at hvalue
    obtain ⟨ls, hls, hunit, hrun⟩ := compile_preserves (.unbounded 10000) hid hc rfl
      (fun hf => hret _ hf.mem_functions) heval
    exact ⟨compiled, v, h, es, ls, rfl, heval, hvalue.1, hvalue.2, hls, hunit, hrun⟩
  · cases hvalue

end ObjLet
