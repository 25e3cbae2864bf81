import Mathlib.Data.List.Forall2
import ObjLet.Class.Subtype

/-!
# Lineages and subtyping

What the ancestors of classes give subtyping. `ClassTable.Lineal` says that the ancestors of a class are
its superclass and the ancestors of that one. In such a table subtyping is a preorder
(`isSubtype_refl`, `isSubtype_trans`), `join?` is above both types (`le_join?`), and related types take
the same number of words.
-/

namespace ObjLet

namespace ClassTable

/-- Every class stands at its own position, after its superclass, and its ancestors are those of the
superclass and the superclass itself. -/
structure Lineal (t : ClassTable) : Prop where
  id_eq : ∀ {c l}, t.layout? c = some l → l.id = c
  root : ∀ {c l}, t.layout? c = some l → l.superclass = none → l.ancestors = []
  parent : ∀ {c l p}, t.layout? c = some l → l.superclass = some p →
    p < c ∧ ∃ lp, t.layout? p = some lp ∧ l.ancestors = lp.lineage

/-- A class descends from itself and from the classes of its lineage. -/
theorem descends_iff {t : ClassTable} {a b : ClassId} :
    t.descends a b ↔ a = b ∨ ∃ l, t.layout? a = some l ∧ b ∈ l.lineage := by
  simp [descends, Option.any_eq_true, ClassLayout.isDescendantOf_iff]

section Lineal

variable {t : ClassTable} (ht : t.Lineal)
include ht

/-- The lineage of an ancestor is the rest of the lineage of the class from there. -/
theorem Lineal.lineage_suffix :
    ∀ {c l before b after}, t.layout? c = some l → l.lineage = before ++ b :: after →
      ∃ lb, t.layout? b = some lb ∧ lb.lineage = b :: after := by
  intro c
  induction c using Nat.strongRecOn with
  | ind c ih =>
    intro l before b after hl hsplit
    cases before with
    | nil =>
      obtain ⟨rfl, hanc⟩ := List.cons_eq_cons.1 hsplit
      exact ⟨l, by rw [ht.id_eq hl]; exact hl, hsplit⟩
    | cons _ before =>
      have hanc : l.ancestors = before ++ b :: after := (List.cons_eq_cons.1 hsplit).2
      cases hs : l.superclass with
      | none => simp [ht.root hl hs] at hanc
      | some p =>
        obtain ⟨hlt, lp, hp, hline⟩ := ht.parent hl hs
        exact ih p hlt hp (hline.symm.trans hanc)

/-- The lineage of an ancestor is part of the lineage of the class. -/
theorem Lineal.lineage_subset {c l b} (hl : t.layout? c = some l) (hb : b ∈ l.lineage) :
    ∃ lb, t.layout? b = some lb ∧ ∀ a ∈ lb.lineage, a ∈ l.lineage := by
  obtain ⟨before, after, hsplit⟩ := List.append_of_mem hb
  obtain ⟨lb, hlb, hline⟩ := ht.lineage_suffix hl hsplit
  refine ⟨lb, hlb, fun a ha => ?_⟩
  rw [hsplit, ← hline]
  exact List.mem_append_right _ ha

theorem Lineal.descends_trans {a b c : ClassId} (hab : t.descends a b) (hbc : t.descends b c) :
    t.descends a c := by
  rcases descends_iff.1 hab with rfl | ⟨la, hla, hb⟩
  · exact hbc
  rcases descends_iff.1 hbc with rfl | ⟨lb, hlb, hc⟩
  · exact hab
  obtain ⟨lb', hlb', hsub⟩ := ht.lineage_subset hla hb
  cases hlb.symm.trans hlb'
  exact descends_iff.2 (.inr ⟨la, hla, hsub c hc⟩)

/-- What a class of the table descends from is in its lineage. -/
theorem Lineal.mem_lineage_of_descends {a e : ClassId} {l : ClassLayout} (hl : t.layout? a = some l)
    (h : t.descends a e) : e ∈ l.lineage := by
  rcases descends_iff.1 h with rfl | ⟨l', hl', he⟩
  · rw [ClassLayout.lineage, ht.id_eq hl]
    exact List.mem_cons_self
  · cases hl.symm.trans hl'
    exact he

end Lineal

theorem descends_refl (t : ClassTable) (c : ClassId) : t.descends c c := by
  simp [descends]

/-! ## Subtyping -/

/-- Subtyping is transitive on types that are no functions. -/
theorem atomBelow_trans {t : ClassTable} (ht : t.Lineal) {a b c : Ty} (hab : t.atomBelow a b)
    (hbc : t.atomBelow b c) : t.atomBelow a c := by
  cases a <;> cases b <;> simp_all only [atomBelow, Bool.false_eq_true] <;>
    cases c <;> simp_all only [Bool.false_eq_true, beq_iff_eq]
  exact ht.descends_trans hab hbc

mutual

/-- Every type is below itself, in either direction. -/
theorem below_refl (t : ClassTable) (v : Variance) : (a : Ty) → t.below v a a
  | .arrow ps r => by
    rw [below, below_refl t v r, allBelow_refl t v.flip ps]; rfl
  | .int | .bool | .null => by cases v <;> rfl
  | .ref c => by cases v <;> exact t.descends_refl c
  | .cls c => by cases v <;> exact beq_self_eq_true c

theorem allBelow_refl (t : ClassTable) (v : Variance) : (as : List Ty) → t.allBelow v as as
  | [] => by rw [allBelow]
  | a :: as => by rw [allBelow, below_refl t v a, allBelow_refl t v as]; rfl

end

/-- Only function types are related to function types. -/
theorem below_arrow {t : ClassTable} {v : Variance} {ps : List Ty} {r b : Ty}
    (h : t.below v (.arrow ps r) b) :
    ∃ qs s, b = .arrow qs s ∧ t.below v r s ∧ t.allBelow v.flip ps qs := by
  cases b with
  | arrow qs s => exact ⟨qs, s, rfl, by simpa only [below, Bool.and_eq_true] using h⟩
  | _ => cases v <;> simp [below, atomBelow] at h

/-- Below a function type there are function types only. -/
theorem not_below_of_atom {t : ClassTable} {v : Variance} {a : Ty} {qs : List Ty} {s : Ty}
    (h : t.below v a (.arrow qs s)) : ∃ ps r, a = .arrow ps r := by
  cases a with
  | arrow ps r => exact ⟨ps, r, rfl⟩
  | _ => cases v <;> simp [below, atomBelow] at h

mutual

/-- Subtyping is transitive in both directions, which the parameters of functions take by turns. -/
theorem below_trans {t : ClassTable} (ht : t.Lineal) (v : Variance) :
    (a : Ty) → (b c : Ty) → t.below v a b → t.below v b c → t.below v a c
  | .arrow ps r, b, c, hab, hbc => by
    obtain ⟨qs, s, rfl, hr, hps⟩ := below_arrow hab
    obtain ⟨us, u, rfl, hs, hqs⟩ := below_arrow hbc
    rw [below, below_trans ht v r s u hr hs, allBelow_trans ht v.flip ps qs us hps hqs]
    rfl
  | .int, b, c, hab, hbc | .bool, b, c, hab, hbc | .null, b, c, hab, hbc
  | .ref _, b, c, hab, hbc | .cls _, b, c, hab, hbc => by
    cases b with
    | arrow qs s => obtain ⟨_, _, h⟩ := not_below_of_atom hab; cases h
    | _ =>
      cases c with
      | arrow qs s => obtain ⟨_, _, h⟩ := not_below_of_atom hbc; cases h
      | _ =>
        cases v
        · exact atomBelow_trans ht hab hbc
        · exact atomBelow_trans ht hbc hab

theorem allBelow_trans {t : ClassTable} (ht : t.Lineal) (v : Variance) :
    (as : List Ty) → (bs cs : List Ty) → t.allBelow v as bs → t.allBelow v bs cs →
      t.allBelow v as cs
  | [], [], [], _, _ => rfl
  | [], [], _ :: _, _, h | [], _ :: _, _, h, _ | _ :: _, [], _, h, _ | _ :: _, _ :: _, [], _, h => by
    simp [allBelow] at h
  | a :: as, b :: bs, c :: cs, hab, hbc => by
    simp only [allBelow, Bool.and_eq_true] at hab hbc
    rw [allBelow, below_trans ht v a b c hab.1 hbc.1, allBelow_trans ht v as bs cs hab.2 hbc.2]
    rfl

end

@[simp] theorem isSubtype_refl (t : ClassTable) (a : Ty) : t.isSubtype a a := below_refl t .co a

theorem isSubtype_trans {t : ClassTable} (ht : t.Lineal) {a b c : Ty} (hab : t.isSubtype a b)
    (hbc : t.isSubtype b c) : t.isSubtype a c :=
  below_trans ht .co a b c hab hbc

/-- Functions are compared by their results and, the other way around, by their parameters. -/
theorem isSubtype_arrow {t : ClassTable} {ps qs : List Ty} {r s : Ty} :
    t.isSubtype (.arrow ps r) (.arrow qs s) ↔ t.isSubtype r s ∧ t.allBelow .co qs ps := by
  simp only [isSubtype, below, Bool.and_eq_true]
  rw [show Variance.co.flip = Variance.contra from rfl, ← allBelow_flip]
  rfl

/-- Parameter types are compared one by one, and there must be as many. -/
theorem allBelow_iff {t : ClassTable} {as bs : List Ty} :
    t.allBelow .co as bs ↔ List.Forall₂ (fun a b => t.isSubtype a b) as bs := by
  induction as generalizing bs with
  | nil => cases bs <;> simp [allBelow]
  | cons a as ih => cases bs <;> simp [allBelow, ih, isSubtype]

/-- Signatures are compared as their types are. -/
theorem isSubtype_signature {t : ClassTable} {a b : Signature} :
    t.isSubtype a.ty b.ty ↔
      t.isSubtype a.ret b.ret ∧ List.Forall₂ (fun q p => t.isSubtype q p) b.params a.params := by
  rw [Signature.ty, Signature.ty, isSubtype_arrow, allBelow_iff]

/-- Values of a subtype take as many words, so they fit in the place of the others. -/
theorem words_eq_of_isSubtype {t : ClassTable} {a b : Ty} (h : t.isSubtype a b) :
    a.words = b.words := by
  cases a with
  | arrow ps r => obtain ⟨_, _, rfl, -, -⟩ := below_arrow h; rfl
  | _ =>
    cases b with
    | arrow qs s => obtain ⟨_, _, h⟩ := not_below_of_atom h; cases h
    | _ => rfl

/-- A join is above both types. -/
theorem le_join? {t : ClassTable} {a b c : Ty} (h : t.join? a b = some c) :
    t.isSubtype a c ∧ t.isSubtype b c := by
  unfold join? at h
  split at h
  · next hab => cases h; exact ⟨hab, isSubtype_refl t _⟩
  split at h
  · next hba => cases h; exact ⟨isSubtype_refl t _, hba⟩
  split at h
  · next d _ _ _ =>
    cases hd : t.layout? d with
    | none => simp [hd] at h
    | some l =>
      rw [hd, Option.bind_some] at h
      have hmem := List.mem_of_find?_eq_some h
      obtain ⟨e, he, rfl⟩ := List.mem_map.1 hmem
      refine ⟨?_, List.find?_some h⟩
      exact descends_iff.2 (.inr ⟨l, hd, he⟩)
  · cases h

end ClassTable

end ObjLet
