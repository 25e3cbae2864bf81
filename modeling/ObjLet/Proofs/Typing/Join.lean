import Mathlib.Data.Set.Insert
import ObjLet.Proofs.Class.Order
import ObjLet.Typing.Expr

/-!
# Joins

`ClassTable.join?` takes the first class in the lineage of one type that is above the other. Since the lineage
of an ancestor is the rest of the lineage from there (`ClassTable.Lineal.lineage_suffix`), that class is the
least one above both (`leastAbove_join?`), and the join does not depend on the order of the two types
(`join?_comm`). Types other than function types have a join as soon as something is above both
(`exists_join?`). So the type of a conditional over values that are no functions is a matter of the expressions
between which it chooses, and not of how conditionals are nested (`Expr.type?_congr_outcomes`).
-/

namespace ObjLet

namespace ClassTable

variable {t : ClassTable}

/-- A type is above some types and below all others that are. -/
def LeastAbove (t : ClassTable) (s : Set Ty) (c : Ty) : Prop :=
  (∀ a ∈ s, t.isSubtype a c) ∧ ∀ d, (∀ a ∈ s, t.isSubtype a d) → t.isSubtype c d

theorem leastAbove_pair {a b c : Ty} :
    t.LeastAbove {a, b} c ↔ t.isSubtype a c ∧ t.isSubtype b c ∧
      ∀ d, t.isSubtype a d → t.isSubtype b d → t.isSubtype c d := by
  simp [LeastAbove, and_assoc]

theorem leastAbove_singleton (t : ClassTable) (a : Ty) : t.LeastAbove {a} a := by
  simp [LeastAbove]

/-- What is above a reference is one to a class of its lineage. -/
theorem isSubtype_of_ref {a : ClassId} {d : Ty} (h : t.isSubtype (.ref a) d) :
    ∃ e, d = .ref e ∧ t.descends a e := by
  cases d <;> simp_all [isSubtype, below, atomBelow]

section Lineal

variable (ht : t.Lineal)
include ht

theorem LeastAbove.unique {s : Set Ty} {c d : Ty} (hc : t.LeastAbove s c) (hd : t.LeastAbove s d) : c = d :=
  isSubtype_antisymm ht (hc.2 d hd.1) (hd.2 c hc.1)

/-- A type above the least ones of two parts is the least one of the whole. -/
theorem LeastAbove.union {s s' : Set Ty} {a b c : Ty} (ha : t.LeastAbove s a) (hb : t.LeastAbove s' b)
    (hc : t.LeastAbove {a, b} c) : t.LeastAbove (s ∪ s') c := by
  obtain ⟨hac, hbc, hleast⟩ := leastAbove_pair.1 hc
  constructor
  · rintro x (hx | hx)
    · exact isSubtype_trans ht (ha.1 x hx) hac
    · exact isSubtype_trans ht (hb.1 x hx) hbc
  · intro d hd
    apply hleast
    · exact ha.2 d fun x hx => hd x (.inl hx)
    · exact hb.2 d fun x hx => hd x (.inr hx)

/-- The first class in the lineage of one type that is above the other is below all classes above both. -/
theorem find?_lineage_least {a : ClassId} {l : ClassLayout} (hl : t.layout? a = some l) {b c d : Ty}
    (hc : (l.lineage.map TyOf.ref).find? (t.isSubtype b) = some c) (had : t.isSubtype (.ref a) d)
    (hbd : t.isSubtype b d) : t.isSubtype c d := by
  obtain ⟨e, rfl, hae⟩ := isSubtype_of_ref had
  have he : e ∈ l.lineage := ht.mem_lineage_of_descends hl hae
  obtain ⟨-, before, after, hsplit, hbefore⟩ := List.find?_eq_some_iff_append.1 hc
  obtain ⟨before, rest, hline, rfl, hrest⟩ := List.map_eq_append_iff.1 hsplit
  obtain ⟨f, after, rfl, rfl, rfl⟩ := List.map_eq_cons_iff.1 hrest
  rw [hline] at he
  rcases List.mem_append.1 he with hmem | hmem
  · -- A class in front of the first one is not above the second type.
    have hnot := hbefore _ (List.mem_map_of_mem hmem)
    simp [hbd] at hnot
  · obtain ⟨lf, hlf, hlinef⟩ := ht.lineage_suffix hl hline
    apply descends_iff.2
    exact .inr ⟨lf, hlf, by rwa [hlinef]⟩

/-- A join is the least type above both types. -/
theorem leastAbove_join? {a b c : Ty} (h : t.join? a b = some c) : t.LeastAbove {a, b} c := by
  obtain ⟨hac, hbc⟩ := le_join? h
  refine leastAbove_pair.2 ⟨hac, hbc, fun d had hbd => ?_⟩
  -- The branches of the join: one type is above the other, or both are references.
  unfold join? at h
  split at h
  · cases h
    exact hbd
  split at h
  · cases h
    exact had
  split at h
  · next e _ _ _ =>
    obtain ⟨l, hl, hfind⟩ := Option.bind_eq_some_iff.1 h
    exact find?_lineage_least ht hl hfind had hbd
  · cases h

end Lineal

/-- Two types below a third one are related, or references, or function types. -/
theorem related_of_isSubtype {a b d : Ty} (ha : a.isArrow = false) (had : t.isSubtype a d)
    (hbd : t.isSubtype b d) :
    t.isSubtype a b ∨ t.isSubtype b a ∨ ∃ e f, a = .ref e ∧ b = .ref f := by
  cases a <;> cases d <;> simp only [isSubtype, below, atomBelow, Bool.false_eq_true] at had <;>
    cases b <;> simp_all [isSubtype, below, atomBelow, TyOf.isArrow]

/-- Types other than function types have a join if a type is above both. -/
theorem exists_join? (ht : t.Lineal) {a b d : Ty} (ha : a.isArrow = false) (had : t.isSubtype a d)
    (hbd : t.isSubtype b d) : ∃ c, t.join? a b = some c := by
  unfold join?
  split
  · exact ⟨b, rfl⟩
  next hab =>
  split
  · exact ⟨a, rfl⟩
  next hba =>
  obtain h | h | ⟨e, f, rfl, rfl⟩ := related_of_isSubtype ha had hbd
  · exact absurd h hab
  · exact absurd h hba
  obtain ⟨g, rfl, heg⟩ := isSubtype_of_ref had
  change ∃ c, ((t.layout? e).bind fun l => (l.lineage.map TyOf.ref).find? (t.isSubtype (.ref f))) = some c
  -- A class that the table does not have is below nothing else, so the first reference is to one that it has.
  cases hl : t.layout? e with
  | none =>
    obtain rfl | ⟨l, hl', -⟩ := descends_iff.1 heg
    · exact absurd hbd hba
    · cases hl.symm.trans hl'
  | some l =>
    have hg : TyOf.ref g ∈ l.lineage.map TyOf.ref :=
      List.mem_map_of_mem (ht.mem_lineage_of_descends hl heg)
    apply Option.isSome_iff_exists.1
    exact List.find?_isSome.2 ⟨_, hg, hbd⟩

/-- A join is a join in the other order. -/
theorem join?_swap (ht : t.Lineal) {a b c : Ty} (h : t.join? a b = some c) : t.join? b a = some c := by
  have hleast := leastAbove_join? ht h
  unfold join? at h
  split at h
  · next hab =>
    cases h
    unfold join?
    split
    · next hba => rw [isSubtype_antisymm ht hab hba]
    · rfl
  split at h
  · next hba =>
    cases h
    unfold join?
    rw [if_pos hba]
  split at h
  · next e f _ _ =>
    obtain ⟨hac, hbc, -⟩ := leastAbove_pair.1 hleast
    -- In the other order the search runs through another lineage, but what it finds is least, too.
    obtain ⟨c', hc'⟩ := exists_join? ht rfl hbc hac
    have hleast' := leastAbove_join? ht hc'
    rw [Set.pair_comm] at hleast'
    rw [hc', hleast.unique ht hleast']
  · cases h

theorem join?_comm (ht : t.Lineal) (a b : Ty) : t.join? a b = t.join? b a := by
  ext c
  exact ⟨join?_swap ht, join?_swap ht⟩

/-- Functions are related to functions only. -/
theorem isArrow_eq_of_isSubtype {a b : Ty} (h : t.isSubtype a b) : a.isArrow = b.isArrow := by
  cases a <;> cases b <;> simp_all [isSubtype, below, atomBelow, TyOf.isArrow]

/-- The join of a join is the least type above all three types. -/
theorem join?_bind_eq_some (ht : t.Lineal) {a b c d : Ty} (ha : a.isArrow = false) :
    (t.join? a b).bind (t.join? · c) = some d ↔ t.LeastAbove {a, b, c} d := by
  have hjoined : ∀ {e d}, t.join? a b = some e → t.join? e c = some d → t.LeastAbove {a, b, c} d := by
    intro e d he hd
    have hunion := (leastAbove_join? ht he).union ht (leastAbove_singleton t c) (leastAbove_join? ht hd)
    rwa [Set.insert_union, Set.singleton_union] at hunion
  constructor
  · intro h
    obtain ⟨e, he, hd⟩ := Option.bind_eq_some_iff.1 h
    exact hjoined he hd
  · intro hd
    have had : t.isSubtype a d := hd.1 a (by simp)
    have hbd : t.isSubtype b d := hd.1 b (by simp)
    have hcd : t.isSubtype c d := hd.1 c (by simp)
    obtain ⟨e, he⟩ := exists_join? ht ha had hbd
    obtain ⟨hae, -, hleast⟩ := leastAbove_pair.1 (leastAbove_join? ht he)
    have harrow : e.isArrow = false := (isArrow_eq_of_isSubtype hae).symm.trans ha
    obtain ⟨d', hd'⟩ := exists_join? ht harrow (hleast d had hbd) hcd
    rw [he, Option.bind_some, hd', (hjoined he hd').unique ht hd]

/-- Joins do not depend on nesting, where no functions are involved. -/
theorem join?_assoc (ht : t.Lineal) {a b : Ty} (c : Ty) (ha : a.isArrow = false) (hb : b.isArrow = false) :
    (t.join? a b).bind (t.join? · c) = (t.join? b c).bind (t.join? a ·) := by
  have hset : ({a, b, c} : Set Ty) = {b, c, a} := by
    rw [Set.insert_comm, Set.pair_comm a c]
  ext d
  rw [join?_bind_eq_some ht ha, hset, ← join?_bind_eq_some ht hb]
  simp only [join?_comm ht a]

end ClassTable

/-! ## Conditionals -/

namespace Expr

/-- The expressions between which nested conditionals choose. -/
def outcomes : Expr → List Expr
  | cond _ thenExpr elseExpr _ => outcomes thenExpr ++ outcomes elseExpr
  | e => [e]

theorem outcomes_ne_nil (e : Expr) : e.outcomes ≠ [] := by
  fun_induction outcomes e with
  | case1 _ _ _ _ ih _ => simp [ih]
  | case2 => simp

/-- The types of the expressions between which an expression chooses. -/
def outcomeTypes (ts : Tables) (e : Expr) : Set Ty := {a | ∃ o ∈ e.outcomes, o.type? ts = some a}

variable {ts : Tables}

/-- A conditional may choose what either branch may choose. -/
theorem outcomeTypes_cond (condition thenExpr elseExpr : Expr) (span : Span) :
    (cond condition thenExpr elseExpr span).outcomeTypes ts =
      thenExpr.outcomeTypes ts ∪ elseExpr.outcomeTypes ts := by
  ext a
  simp [outcomeTypes, outcomes, or_and_right, exists_or]

theorem outcomeTypes_of_outcomes {e : Expr} {a : Ty} (he : e.outcomes = [e]) (ha : e.type? ts = some a) :
    e.outcomeTypes ts = {a} := by
  ext b
  simp [outcomeTypes, he, ha, eq_comm]

/-- An expression chooses between its parts, if it is a conditional, and else has one outcome. -/
theorem outcomes_induction {motive : Expr → Prop}
    (cond : ∀ condition thenExpr elseExpr span, motive thenExpr → motive elseExpr →
      motive (.cond condition thenExpr elseExpr span))
    (single : ∀ e : Expr, e.outcomes = [e] → motive e) (e : Expr) : motive e := by
  fun_induction outcomes e with
  | case1 condition thenExpr elseExpr span ih₁ ih₂ => exact cond _ _ _ _ ih₁ ih₂
  | case2 e hcond => exact single e (by rw [outcomes]; exact hcond)

variable (ht : ts.classes.Lineal)
include ht

/-- The type of an expression is the least one above the types of all that it may choose. -/
theorem leastAbove_type? {e : Expr} {c : Ty} (h : e.type? ts = some c) :
    (∀ o ∈ e.outcomes, ∃ a, o.type? ts = some a) ∧ ts.classes.LeastAbove (e.outcomeTypes ts) c := by
  induction e using outcomes_induction generalizing c with
  | cond condition thenExpr elseExpr span ih₁ ih₂ =>
    obtain ⟨a, ha, h⟩ := Option.bind_eq_some_iff.1 h
    obtain ⟨b, hb, hc⟩ := Option.bind_eq_some_iff.1 h
    obtain ⟨htyped₁, hleast₁⟩ := ih₁ ha
    obtain ⟨htyped₂, hleast₂⟩ := ih₂ hb
    constructor
    · intro o ho
      rcases List.mem_append.1 ho with ho | ho
      · exact htyped₁ o ho
      · exact htyped₂ o ho
    · rw [outcomeTypes_cond]
      exact hleast₁.union ht hleast₂ (ClassTable.leastAbove_join? ht hc)
  | single e he =>
    constructor
    · intro o ho
      rw [he, List.mem_singleton] at ho
      exact ⟨c, ho ▸ h⟩
    · rw [outcomeTypes_of_outcomes he h]
      exact ts.classes.leastAbove_singleton c

/-- An expression has a type if its outcomes have types, below a common one, that are no function types. -/
theorem exists_type? {e : Expr} {d : Ty} (htyped : ∀ o ∈ e.outcomes, ∃ a, o.type? ts = some a)
    (hplain : ∀ a ∈ e.outcomeTypes ts, a.isArrow = false)
    (hd : ∀ a ∈ e.outcomeTypes ts, ts.classes.isSubtype a d) : ∃ c, e.type? ts = some c := by
  induction e using outcomes_induction with
  | cond condition thenExpr elseExpr span ih₁ ih₂ =>
    rw [outcomeTypes_cond] at hplain hd
    obtain ⟨a, ha⟩ := ih₁ (fun o ho => htyped o (List.mem_append_left _ ho))
      (fun x hx => hplain x (.inl hx)) fun x hx => hd x (.inl hx)
    obtain ⟨b, hb⟩ := ih₂ (fun o ho => htyped o (List.mem_append_right _ ho))
      (fun x hx => hplain x (.inr hx)) fun x hx => hd x (.inr hx)
    obtain ⟨htyped₁, habove, hleast⟩ := leastAbove_type? ht ha
    obtain ⟨-, -, hleast'⟩ := leastAbove_type? ht hb
    have hadown : ts.classes.isSubtype a d := hleast d fun x hx => hd x (.inl hx)
    have hbdown : ts.classes.isSubtype b d := hleast' d fun x hx => hd x (.inr hx)
    -- The join exists since the first branch, as any of its outcomes, is no function.
    have harrow : a.isArrow = false := by
      obtain ⟨o, ho⟩ := List.exists_mem_of_ne_nil _ thenExpr.outcomes_ne_nil
      obtain ⟨x, hx⟩ := htyped₁ o ho
      rw [← ClassTable.isArrow_eq_of_isSubtype (habove x ⟨o, ho, hx⟩)]
      exact hplain x (.inl ⟨o, ho, hx⟩)
    obtain ⟨c, hc⟩ := ClassTable.exists_join? ht harrow hadown hbdown
    exact ⟨c, by rw [type?, ha, hb]; exact hc⟩
  | single e he => exact htyped e (by simp [he])

/-- An expression that chooses between the same outcomes has the same type. -/
theorem type?_of_outcomes {e e' : Expr} (h : ∀ o, o ∈ e.outcomes ↔ o ∈ e'.outcomes)
    (hplain : ∀ a ∈ e.outcomeTypes ts, a.isArrow = false) {c : Ty} (hc : e.type? ts = some c) :
    e'.type? ts = some c := by
  have htypes : e.outcomeTypes ts = e'.outcomeTypes ts := by
    ext a
    simp [outcomeTypes, h]
  obtain ⟨htyped, hleast⟩ := leastAbove_type? ht hc
  rw [htypes] at hleast hplain
  obtain ⟨c', hc'⟩ := exists_type? ht (fun o ho => htyped o ((h o).2 ho)) hplain hleast.1
  rw [hc', hleast.unique ht (leastAbove_type? ht hc').2]

/-- Conditionals that choose between the same expressions have the same type, if no function is among them. -/
theorem type?_congr_outcomes {e e' : Expr} (h : ∀ o, o ∈ e.outcomes ↔ o ∈ e'.outcomes)
    (hplain : ∀ a ∈ e.outcomeTypes ts, a.isArrow = false) : e.type? ts = e'.type? ts := by
  ext c
  constructor
  · exact type?_of_outcomes ht h hplain
  · apply type?_of_outcomes ht fun o => (h o).symm
    simpa only [outcomeTypes, h] using hplain

end Expr

namespace ClassTable

/-- The join of two types is the least type above both, whatever classes have been declared. It does not depend
on the order of the types. Where no function types are involved it exists as soon as there is a type above
both, so that joins do not depend on how they are nested either, and nor do the types of conditionals. -/
theorem join?_least {t : ClassTable} (h : Evolves empty t) :
    (∀ a b c, t.join? a b = some c → t.isSubtype a c ∧ t.isSubtype b c ∧
      ∀ d, t.isSubtype a d → t.isSubtype b d → t.isSubtype c d) ∧
    (∀ a b, t.join? a b = t.join? b a) ∧
    (∀ a b, a.isArrow = false → b.isArrow = false → t.join? a b = none →
      ∀ d, ¬(t.isSubtype a d ∧ t.isSubtype b d)) ∧
    (∀ a b c, a.isArrow = false → b.isArrow = false → c.isArrow = false →
      (t.join? a b).bind (t.join? · c) = (t.join? b c).bind (t.join? a ·)) ∧
    (∀ (ts : Tables) (e e' : Expr), ts.classes = t → (∀ o, o ∈ e.outcomes ↔ o ∈ e'.outcomes) →
      (∀ a ∈ e.outcomeTypes ts, a.isArrow = false) → e.type? ts = e'.type? ts) := by
  have ht : t.Lineal := h.lineal lineal_empty
  refine ⟨?_, join?_comm ht, ?_, ?_, ?_⟩
  · intro a b c hc
    exact leastAbove_pair.1 (leastAbove_join? ht hc)
  · rintro a b ha - hnone d ⟨had, hbd⟩
    obtain ⟨c, hc⟩ := exists_join? ht ha had hbd
    rw [hnone] at hc
    cases hc
  · intro a b c ha hb _
    exact join?_assoc ht c ha hb
  · rintro ts e e' rfl ho hplain
    exact Expr.type?_congr_outcomes ht ho hplain

/-- Two subclasses meet in their superclass, before or after `null`, and a class of another lineage in
nothing. -/
theorem join?_least_family :
    Evolves empty family ∧ family.join? (.ref 1) (.ref 2) = some (.ref 0) ∧
      (∀ d, family.isSubtype (.ref 1) d → family.isSubtype (.ref 2) d → family.isSubtype (.ref 0) d) ∧
      (family.join? .null (.ref 1)).bind (family.join? · (.ref 2)) = some (.ref 0) ∧
      (family.join? (.ref 1) (.ref 2)).bind (family.join? .null ·) = some (.ref 0) ∧
      ∀ d, ¬(family.isSubtype (.ref 1) d ∧ family.isSubtype (.ref 3) d) := by
  obtain ⟨hleast, -, hnone, hassoc, -⟩ := join?_least evolves_family
  have hjoin : family.join? (.ref 1) (.ref 2) = some (.ref 0) := by decide +kernel
  have hnull : (family.join? .null (.ref 1)).bind (family.join? · (.ref 2)) = some (.ref 0) := by decide +kernel
  have hapart : family.join? (.ref 1) (.ref 3) = none := by decide +kernel
  refine ⟨evolves_family, hjoin, (hleast _ _ _ hjoin).2.2, hnull, ?_, hnone _ _ rfl rfl hapart⟩
  rw [← hassoc _ _ _ rfl rfl rfl]
  exact hnull

end ClassTable

end ObjLet
