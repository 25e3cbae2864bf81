import Mathlib.Logic.Equiv.List
import ObjLet.Compile
import ObjLet.Proofs.Renaming.Code
import ObjLet.Proofs.Renaming.Typing

/-!
# Only the binding structure matters

Names, node ids and positions may be replaced in a program: compiling yields the same code, the same type and the
same tables up to the renaming, or fails with the same errors, in which the names are renamed and each position
is the one that replaces the old one (`Program.outcomes_rename`).

A uniform renaming is followed through binding, checking and generation. Other renamings come down to these, since
a program can be tagged first: every position is replaced by one that tells its place and the old position
(`Span.tag`). From the tagged program a uniform renaming leads to any renamed program (`Program.rename_tagged`).
-/

namespace ObjLet

variable {r : Renaming}

/-! ## Uniform renamings -/

/-- What is known of a program and of the renamed program. -/
structure Analysis.Renames (r : Renaming) (a a' : Analysis) : Prop where
  tables : a.tables.Renames r a'.tables
  type? : a'.type? = a.type?

/-- The same code, with renamed tables. -/
structure Compiled.Renames (r : Renaming) (c c' : Compiled) : Prop where
  unit : c'.unit = c.unit
  analysis : c.analysis.Renames r c'.analysis

/-- The failure of a compilation of a program that is renamed uniformly. -/
def CompileError.rename (r : Renaming) : CompileError → CompileError
  | semantic es => semantic (SemanticErrors.rename r es)
  | internal e => internal (e.rename r [])

/-- Two renamings of one tagged program are renamings of each other. -/
theorem Analysis.Renames.of_common {m m' : Route → Span → Span} {a₀ a a' : Analysis}
    (h : a₀.Renames (Renaming.refl.moving m) a) (h' : a₀.Renames (r.moving m') a') : a.Renames r a' :=
  ⟨h.tables.of_common h'.tables, h'.type?.trans h.type?.symm⟩

/-- Binding and checking decide alike on both sides, with or without type checking. -/
theorem Program.analyze_uniform (o : Options) (hr : r.Uniform) (p : Program) :
    (∃ a a', p.analyze o = .ok a ∧ (p.rename r).analyze o = .ok a' ∧ a.Renames r a') ∨
      ∃ es, p.analyze o = .error es ∧ (p.rename r).analyze o = .error (SemanticErrors.rename r es) := by
  obtain ⟨htables, herrors⟩ := p.bind_rename hr
  have htypes := p.typeErrors_rename hr htables p.known_tables
  have hclean : (p.rename r).bind.isClean = p.bind.isClean := by
    rw [Bindings.isClean, Bindings.isClean, herrors, List.isEmpty_map]
  have hfits : ((p.rename r).typeErrors (p.rename r).bind.tables).isEmpty =
      (p.typeErrors p.bind.tables).isEmpty := by
    rw [htypes, SemanticErrors.rename, List.isEmpty_map]
  simp only [Program.analyze, hclean, hfits]
  split
  · exact .inr ⟨_, rfl, by rw [herrors]; rfl⟩
  split
  · exact .inl ⟨_, _, rfl, rfl, htables, rfl⟩
  split
  · exact .inr ⟨_, rfl, by rw [htypes]⟩
  · exact .inl ⟨_, _, rfl, rfl, htables, p.type?_rename hr htables⟩

/-- What is left to do after analysis. -/
theorem Program.compile_eq_map {o : Options} {p : Program} {a : Analysis} (h : p.analyze o = .ok a) :
    p.compile o = ((p.generate a.tables o.memorySize).mapError .internal).map fun u => ⟨u, a⟩ := by
  rw [Program.compile, h]
  change ((p.generate a.tables o.memorySize).mapError CompileError.internal >>= fun u => pure (Compiled.mk u a)) = _
  cases p.generate a.tables o.memorySize <;> rfl

/-- The code of both is that of the tagged program. -/
theorem Compiled.Renames.of_common {m m' : Route → Span → Span} {c₀ c c' : Compiled}
    (h : c₀.Renames (Renaming.refl.moving m) c) (h' : c₀.Renames (r.moving m') c') : c.Renames r c' :=
  ⟨h'.unit.trans h.unit.symm, h.analysis.of_common h'.analysis⟩

/-- For uniform renamings, the stages one after the other. -/
theorem Program.compile_uniform (o : Options) (hr : r.Uniform) (p : Program) :
    (∃ c c', p.compile o = .ok c ∧ (p.rename r).compile o = .ok c' ∧ c.Renames r c') ∨
      ∃ e, p.compile o = .error e ∧ (p.rename r).compile o = .error (e.rename r) := by
  obtain ⟨a, a', ha, ha', hren⟩ | ⟨es, he, he'⟩ := p.analyze_uniform o hr
  · rw [Program.compile_eq_map ha, Program.compile_eq_map ha', p.generate_rename hr hren.tables]
    cases p.generate a.tables o.memorySize with
    | ok u => exact .inl ⟨⟨u, a⟩, ⟨u, a'⟩, rfl, rfl, rfl, hren⟩
    | error e => exact .inr ⟨.internal e, rfl, rfl⟩
  · exact .inr ⟨.semantic es, by rw [Program.compile, he]; rfl, by rw [Program.compile, he']; rfl⟩

/-! ## Tags -/

/-- A position that tells a place and a position. -/
def Span.tag (q : Route) (s : Span) : Span := ⟨Encodable.encode (q, s.line, s.column, s.length), 0, 0⟩

/-- What a position tells. -/
def Span.told (s : Span) : Route × Span :=
  match (Encodable.decode s.line : Option (Route × Nat × Nat × Nat)) with
  | some (q, line, column, length) => (q, ⟨line, column, length⟩)
  | none => ([], s)

/-- A tag tells the place and the position it was made from. -/
@[simp] theorem Span.told_tag (q : Route) (s : Span) : (Span.tag q s).told = (q, s) := by
  rw [Span.told, Span.tag, Encodable.encodek]

/-- The program with a tag at every position. -/
def Program.tagged (p : Program) : Program := p.rename (Renaming.refl.moving Span.tag)

namespace Renaming

/-- What a renaming does to a tree that has been tagged. -/
def told (r : Renaming) : Renaming := r.moving fun _ s => r.move s.told.1 s.told.2

/-- What is told of a tag does not depend on where the tag stands, so the renaming is uniform. -/
theorem uniform_told (r : Renaming) : r.told.Uniform := fun _ _ => rfl

/-- Tagging and then reading the tags is the renaming itself. -/
theorem trans_told (r : Renaming) : (refl.moving Span.tag).trans r.told = r := by
  have hmove : (fun q s => r.told.move q ((refl.moving Span.tag).move q s)) = r.move := by
    funext q s
    change r.move (Span.tag q s).told.1 (Span.tag q s).told.2 = r.move q s
    rw [Span.told_tag]
  simp only [trans, hmove]
  rfl

end Renaming

/-- So any renaming of a program is a uniform one of the tagged program. -/
theorem Program.rename_tagged (r : Renaming) (p : Program) : p.tagged.rename r.told = p.rename r := by
  rw [Program.tagged, Program.rename_rename, Renaming.trans_told]

/-! ## Any renaming -/

/-- A run has one outcome on a program and on all renamed programs: it succeeds on all of them, with related
results, or fails on all of them, with what one failure becomes under the renaming. -/
theorem Program.same_outcome {ε α : Type} {run : Program → Except ε α} {R : Renaming → α → α → Prop}
    {fails : Renaming → ε → ε}
    (huniform : ∀ {r : Renaming}, r.Uniform → ∀ p : Program,
      (∃ a a', run p = .ok a ∧ run (p.rename r) = .ok a' ∧ R r a a') ∨
        ∃ e, run p = .error e ∧ run (p.rename r) = .error (fails r e))
    (hsame : ∀ {r : Renaming} {a₀ a a'}, R Renaming.refl.told a₀ a → R r.told a₀ a' → R r a a') (p : Program) :
    (∃ a, run p = .ok a ∧ ∀ r, ∃ a', run (p.rename r) = .ok a' ∧ R r a a') ∨
      ∃ e, ∀ r, run (p.rename r) = .error (fails r.told e) := by
  have hall := fun r : Renaming => huniform r.uniform_told p.tagged
  simp only [Program.rename_tagged] at hall
  obtain ⟨a₀, a, h₀, ha, hren⟩ | ⟨e, h₀, -⟩ := hall .refl
  · rw [p.rename_refl] at ha
    refine .inl ⟨a, ha, fun r => ?_⟩
    obtain ⟨a₀', a', h₀', ha', hren'⟩ | ⟨e, he, -⟩ := hall r
    · cases h₀.symm.trans h₀'
      exact ⟨a', ha', hsame hren hren'⟩
    · cases h₀.symm.trans he
  · refine .inr ⟨e, fun r => ?_⟩
    obtain ⟨a₀, a', h₀', -, -⟩ | ⟨e', he', hfail⟩ := hall r
    · cases h₀.symm.trans h₀'
    · cases h₀.symm.trans he'
      exact hfail

/-! ### Failures with their places -/

/-- Replace one position, where it stands at one place. -/
def Renaming.single (q : Route) (s s' : Span) : Renaming :=
  Renaming.refl.moving fun q' t => if q' = q ∧ t = s then s' else t

/-- There is always another position, which is what shows that places in failures are not made up. -/
theorem Span.shift_ne (s : Span) : (⟨s.line + 1, s.column, s.length⟩ : Span) ≠ s := by
  intro h
  exact absurd (congrArg Span.line h) (Nat.succ_ne_self s.line)

/-- The renaming that moves one position moves it. -/
theorem Renaming.move_single (q : Route) (s s' : Span) : (single q s s').move q s = s' := if_pos ⟨rfl, rfl⟩

/-- A position stands at a place of a program: replacing it there makes another program. -/
def Program.HasSpan (p : Program) (q : Route) (s : Span) : Prop := ∃ s', p.rename (.single q s s') ≠ p

/-- Errors, each with the place that it is reported at. -/
abbrev PlacedErrors := List (Route × SemanticError)

namespace PlacedErrors

/-- What is reported for a renamed program. -/
def rename (r : Renaming) (es : PlacedErrors) : SemanticErrors := es.map fun e => e.2.rename r e.1

/-- The places and the positions there. -/
def spans (es : PlacedErrors) : List (Route × Span) := es.map fun e => (e.1, e.2.span)

end PlacedErrors

/-- The failure of a compilation with the places that its errors are reported at. -/
inductive PlacedFailure where
  | semantic (errors : PlacedErrors)
  | internal (place : Route) (error : InternalError)

namespace PlacedFailure

/-- The failure that is reported. -/
def error : PlacedFailure → CompileError
  | semantic es => .semantic (es.map Prod.snd)
  | internal _ e => .internal e

/-- The failure that is reported for a renamed program. -/
def rename (r : Renaming) : PlacedFailure → CompileError
  | semantic es => .semantic (es.rename r)
  | internal q e => .internal (e.rename r q)

/-- The places and the positions there. -/
def spans : PlacedFailure → List (Route × Span)
  | semantic es => es.spans
  | internal q e => [(q, e.span)]

end PlacedFailure

/-- The places that the tags in errors tell. -/
def SemanticErrors.placed (es : SemanticErrors) : PlacedErrors :=
  es.map fun e => (e.span.told.1, ⟨e.problem, e.span.told.2⟩)

def CompileError.placed : CompileError → PlacedFailure
  | semantic es => .semantic es.placed
  | internal e => .internal e.span.told.1 ⟨e.misfit, e.span.told.2⟩

/-- A failure of the tagged program tells the places of its errors. -/
theorem SemanticErrors.rename_told (r : Renaming) (es : SemanticErrors) :
    SemanticErrors.rename r.told es = es.placed.rename r := by
  rw [SemanticErrors.rename, SemanticErrors.placed, PlacedErrors.rename, List.map_map]
  rfl

theorem CompileError.rename_told (r : Renaming) (e : CompileError) : e.rename r.told = e.placed.rename r := by
  cases e with
  | semantic es => exact congrArg CompileError.semantic (SemanticErrors.rename_told r es)
  | internal e => rfl

/-- Keeping everything leaves the errors of the program itself. -/
theorem PlacedErrors.rename_refl (es : PlacedErrors) : es.rename .refl = es.map Prod.snd := by
  refine List.map_congr_left fun e _ => ?_
  rw [SemanticError.rename, Problem.rename_of_name _ rfl]
  rfl

theorem PlacedFailure.rename_refl (failure : PlacedFailure) : failure.rename .refl = failure.error := by
  cases failure with
  | semantic es => exact congrArg CompileError.semantic es.rename_refl
  | internal q e =>
    rw [PlacedFailure.rename, InternalError.rename, Misfit.rename_of_name _ rfl rfl]
    rfl

/-- Moving one place of a failure changes the failure, so every place that is listed matters. -/
theorem PlacedErrors.rename_single_ne {es : PlacedErrors} {q : Route} {s s' : Span} (h : (q, s) ∈ es.spans)
    (hs : s' ≠ s) : es.rename (.single q s s') ≠ es.rename .refl := by
  obtain ⟨⟨q, e⟩, he, heq⟩ := List.mem_map.1 h
  cases heq
  intro heq
  have hspan := congrArg SemanticError.span (List.map_inj_left.1 heq _ he)
  exact hs ((Renaming.move_single q e.span s').symm.trans hspan)

theorem PlacedFailure.rename_single_ne {failure : PlacedFailure} {q : Route} {s s' : Span}
    (h : (q, s) ∈ failure.spans) (hs : s' ≠ s) : failure.rename (.single q s s') ≠ failure.rename .refl := by
  cases failure with
  | semantic es => exact fun heq => PlacedErrors.rename_single_ne h hs (CompileError.semantic.inj heq)
  | internal q e =>
    cases List.mem_singleton.1 h
    intro heq
    have hspan := congrArg InternalError.span (CompileError.internal.inj heq)
    exact hs ((Renaming.move_single q e.span s').symm.trans hspan)

/-- Where the failure follows a position, the position stands in the program. -/
theorem Program.hasSpan_of_ne {ε α : Type} {run : Program → Except ε α} {p : Program} {fail : Renaming → ε}
    (h : ∀ r, run (p.rename r) = .error (fail r)) {q : Route} {s s' : Span}
    (hne : fail (.single q s s') ≠ fail .refl) : p.HasSpan q s := by
  refine ⟨s', fun hp => hne ?_⟩
  have hsame := h (.single q s s')
  rw [hp, ← p.rename_refl, h .refl] at hsame
  exact Except.error.inj hsame.symm

/-- Names, node ids and positions do not matter to what binding and checking yield, nor to the errors that they
report except for the names, ids and positions in them. -/
theorem Program.analyze_rename (o : Options) (p : Program) :
    (∃ a, p.analyze o = .ok a ∧ ∀ r, ∃ a', (p.rename r).analyze o = .ok a' ∧ a.Renames r a') ∨
      ∃ es : PlacedErrors, (∀ x ∈ es.spans, p.HasSpan x.1 x.2) ∧ p.analyze o = .error (es.map Prod.snd) ∧
        ∀ r, (p.rename r).analyze o = .error (es.rename r) := by
  obtain hok | ⟨es, he⟩ := Program.same_outcome (Program.analyze_uniform o) (fun h h' => h.of_common h') p
  · exact .inl hok
  · have hall : ∀ r, (p.rename r).analyze o = .error (es.placed.rename r) := by
      intro r
      rw [he, SemanticErrors.rename_told]
    refine .inr ⟨es.placed, fun x hx => ?_, ?_, hall⟩
    · exact Program.hasSpan_of_ne hall (PlacedErrors.rename_single_ne hx x.2.shift_ne)
    · rw [← PlacedErrors.rename_refl, ← hall, p.rename_refl]

theorem Program.compile_rename (o : Options) (p : Program) :
    (∃ c, p.compile o = .ok c ∧ ∀ r, ∃ c', (p.rename r).compile o = .ok c' ∧ c.Renames r c') ∨
      ∃ failure : PlacedFailure, (∀ x ∈ failure.spans, p.HasSpan x.1 x.2) ∧
        p.compile o = .error failure.error ∧ ∀ r, (p.rename r).compile o = .error (failure.rename r) := by
  obtain hok | ⟨e, he⟩ := Program.same_outcome (Program.compile_uniform o) (fun h h' => h.of_common h') p
  · exact .inl hok
  · have hall : ∀ r, (p.rename r).compile o = .error (e.placed.rename r) := by
      intro r
      rw [he, CompileError.rename_told]
    refine .inr ⟨e.placed, fun x hx => ?_, ?_, hall⟩
    · exact Program.hasSpan_of_ne hall (PlacedFailure.rename_single_ne hx x.2.shift_ne)
    · rw [← PlacedFailure.rename_refl, ← hall, p.rename_refl]

/-- Only the binding structure of a program matters. Analyzing succeeds on all programs that a program can be
renamed to or on none of them, and so does compiling. Where they succeed they yield the same code, the same type
and the same tables up to the renaming. Where they fail they report the same errors in the same order, each with
the renamed names and with the position that replaces the old one at its place; the places are places of the
program and do not depend on the renaming. -/
theorem Program.outcomes_rename (o : Options) (p : Program) :
    ((∃ a, p.analyze o = .ok a ∧ ∀ r, ∃ a', (p.rename r).analyze o = .ok a' ∧ a.Renames r a') ∨
        ∃ es : PlacedErrors, (∀ x ∈ es.spans, p.HasSpan x.1 x.2) ∧ p.analyze o = .error (es.map Prod.snd) ∧
          ∀ r, (p.rename r).analyze o = .error (es.rename r)) ∧
      ((∃ c, p.compile o = .ok c ∧ ∀ r, ∃ c', (p.rename r).compile o = .ok c' ∧ c.Renames r c') ∨
        ∃ failure : PlacedFailure, (∀ x ∈ failure.spans, p.HasSpan x.1 x.2) ∧
          p.compile o = .error failure.error ∧ ∀ r, (p.rename r).compile o = .error (failure.rename r)) :=
  ⟨p.analyze_rename o, p.compile_rename o⟩

/-- An unknown name in the body, which is part 1 of a program, is reported at the new position of the body. -/
example (r : Renaming) (s : Span) : (Program.rename r ⟨[], .ident 0 ⟨"a", s⟩, s⟩).analyze {} =
    .error [⟨.unknownIdentifier (r.name "a"), r.move [1] s⟩] := rfl

end ObjLet
