import ObjLet.Proofs.Class.Evolve

/-!
# The order of types

In a class table that comes about by declaring classes and changing their members, subtyping is a partial
order on all types, of any depth and also over classes that the table does not have
(`ClassTable.isSubtype_order`). Two types that are below each other are the same because an ancestor is
declared before its descendants (`ClassTable.Lineal.le_of_descends`): classes cannot descend from each other.
-/

namespace ObjLet

namespace ClassTable

variable {t : ClassTable}

section Lineal

variable (ht : t.Lineal)
include ht

/-- A class comes after the classes of its lineage. -/
theorem Lineal.le_of_mem_lineage :
    ∀ {c l b}, t.layout? c = some l → b ∈ l.lineage → b ≤ c := by
  intro c
  induction c using Nat.strongRecOn with
  | ind c ih =>
    intro l b hl hb
    rcases List.mem_cons.1 hb with rfl | hanc
    · exact Nat.le_of_eq (ht.id_eq hl)
    cases hs : l.superclass with
    | none => simp [ht.root hl hs] at hanc
    | some p =>
      obtain ⟨hlt, lp, hp, hline⟩ := ht.parent hl hs
      rw [hline] at hanc
      exact Nat.le_trans (ih p hlt hp hanc) (Nat.le_of_lt hlt)

/-- A class comes behind those that it descends from. -/
theorem Lineal.le_of_descends {a b : ClassId} (h : t.descends a b) : b ≤ a := by
  rcases descends_iff.1 h with rfl | ⟨l, hl, hb⟩
  · exact Nat.le_refl a
  · exact ht.le_of_mem_lineage hl hb

/-- Two classes that descend from each other are one. -/
theorem Lineal.descends_antisymm {a b : ClassId} (hab : t.descends a b) (hba : t.descends b a) :
    a = b :=
  Nat.le_antisymm (ht.le_of_descends hba) (ht.le_of_descends hab)

/-- Subtyping is antisymmetric on types that are no functions. -/
theorem atomBelow_antisymm {a b : Ty} (hab : t.atomBelow a b) (hba : t.atomBelow b a) : a = b := by
  cases a <;> cases b <;> simp_all only [atomBelow, Bool.false_eq_true, beq_iff_eq]
  exact congrArg TyOf.ref (ht.descends_antisymm hab hba)

end Lineal

mutual

/-- Subtyping is antisymmetric in both directions. -/
theorem below_antisymm (ht : t.Lineal) (v : Variance) :
    (a b : Ty) → t.below v a b → t.below v b a → a = b
  | .arrow ps r, b, hab, hba => by
    obtain ⟨qs, s, rfl, hr, hps⟩ := below_arrow hab
    obtain ⟨ps', r', heq, hr', hps'⟩ := below_arrow hba
    cases heq
    rw [below_antisymm ht v r s hr hr', allBelow_antisymm ht v.flip ps qs hps hps']
  | .int, b, hab, hba | .bool, b, hab, hba | .null, b, hab, hba
  | .ref _, b, hab, hba | .cls _, b, hab, hba => by
    cases b with
    | arrow qs s => obtain ⟨_, _, h⟩ := not_below_of_atom hab; cases h
    | _ =>
      cases v
      · exact atomBelow_antisymm ht hab hba
      · exact atomBelow_antisymm ht hba hab

theorem allBelow_antisymm (ht : t.Lineal) (v : Variance) :
    (as bs : List Ty) → t.allBelow v as bs → t.allBelow v bs as → as = bs
  | [], [], _, _ => rfl
  | [], _ :: _, h, _ | _ :: _, [], h, _ => by simp [allBelow] at h
  | a :: as, b :: bs, hab, hba => by
    simp only [allBelow, Bool.and_eq_true] at hab hba
    rw [below_antisymm ht v a b hab.1 hba.1, allBelow_antisymm ht v as bs hab.2 hba.2]

end

theorem isSubtype_antisymm (ht : t.Lineal) {a b : Ty} (hab : t.isSubtype a b)
    (hba : t.isSubtype b a) : a = b :=
  below_antisymm ht .co a b hab hba

/-- Subtyping is a partial order, whatever classes have been declared and however their members have been
changed. -/
theorem isSubtype_order (ht : Evolves empty t) (a b c : Ty) :
    t.isSubtype a a ∧ (t.isSubtype a b → t.isSubtype b c → t.isSubtype a c) ∧
      (t.isSubtype a b → t.isSubtype b a → a = b) := by
  have hl : t.Lineal := ht.lineal lineal_empty
  refine ⟨isSubtype_refl t a, ?_, ?_⟩
  · intro hab hbc
    exact isSubtype_trans hl hab hbc
  · intro hab hba
    exact isSubtype_antisymm hl hab hba

/-- A class with a field, two subclasses of it, and a class whose superclass is not known. -/
def family : ClassTable :=
  let withA := (empty.declare "A" none).2.modifyLayout 0 (·.addField .int)
  (((withA.declare "B" (some 0)).2.declare "C" (some 0)).2.declare "D" (some 7)).2

/-- The family comes about by declarations. -/
theorem evolves_family : Evolves empty family :=
  .declare "D" (some 7) (.declare "C" (some 0) (.declare "B" (some 0)
    ((Evolves.refl.declare "A" none).modifyLayout 0 fun l => l.head_addField .int)))

/-- Functions that take functions, between which the direction turns twice, and a class that is not there. -/
theorem isSubtype_order_family :
    Evolves empty family ∧
      family.isSubtype (.arrow [.arrow [.ref 1] .int] (.ref 9)) (.arrow [.arrow [.ref 0] .int] (.ref 9)) ∧
      family.isSubtype (.arrow [.arrow [.ref 0] .int] (.ref 9)) (.arrow [.arrow [.ref 0] .bool] (.ref 9)) ∧
      family.isSubtype (.arrow [.arrow [.ref 1] .int] (.ref 9)) (.arrow [.arrow [.ref 0] .bool] (.ref 9)) := by
  have hab : family.isSubtype (.arrow [.arrow [.ref 1] .int] (.ref 9))
      (.arrow [.arrow [.ref 0] .int] (.ref 9)) := by decide +kernel
  have hbc : family.isSubtype (.arrow [.arrow [.ref 0] .int] (.ref 9))
      (.arrow [.arrow [.ref 0] .bool] (.ref 9)) := by decide +kernel
  exact ⟨evolves_family, hab, hbc, (isSubtype_order evolves_family _ _ _).2.1 hab hbc⟩

end ClassTable

end ObjLet
