import ObjLet.Proofs.Typing.Object

/-!
# The classes of a clean program

Every class of the final table has become what it is by a clean declaration (`Program.exists_classDecl`), so
its members agree with its layout and it refines its superclass. What holds of clean class declarations holds
of the table through this.
-/

namespace ObjLet

variable {t : Tables}

/-- A clean declaration has made a class of what stands at a position of the table. -/
def ClassTable.Made (t : Tables) (id : ClassId) (cls : Class) : Prop :=
  ∃ (c : ClassDecl) (Γ Γ' : Env) (s : ClassSite), c.Checked t Γ Γ' s cls ∧ s.old.length = id

/-- What stands at a position behind the classes of an environment comes from a declaration. -/
theorem Decl.CheckedAll.made (ht : t.classes.Lineal) (ds : List Decl) :
    ∀ {env : Env}, Decl.CheckedAll t env ds →
      (∀ {id cls}, env.classes.class? id = some cls → ClassTable.Made t id cls) →
      ∀ {id cls}, (Decl.bindAll env ds).1.classes.class? id = some cls → ClassTable.Made t id cls := by
  induction ds with
  | nil => exact fun _ hmade => hmade
  | cons d ds ih =>
    intro env h hmade
    obtain ⟨hd, hds⟩ := h.cons ht
    refine ih hds fun {id cls} hcls => ?_
    cases d with
    | var id name type init span =>
      rw [hd.var.2.2.2] at hcls
      exact hmade hcls
    | func f =>
      rw [hd.func.2.1] at hcls
      exact hmade hcls
    | cls c =>
      obtain ⟨s, final, hc⟩ := hd.cls ht
      rw [hc.after] at hcls
      change (s.old ++ [final])[id]? = some cls at hcls
      -- Only a class declaration adds to the table, and what it adds stands behind the others.
      rcases Nat.lt_trichotomy id s.old.length with hlt | rfl | hgt
      · rw [List.getElem?_append_left hlt, hc.old] at hcls
        exact hmade hcls
      · rw [List.getElem?_concat_length] at hcls
        cases hcls
        exact ⟨c, _, _, s, hc, rfl⟩
      · rw [List.getElem?_eq_none (by simp; omega)] at hcls
        cases hcls

/-- Every class of a program without errors has been made by a clean declaration. -/
theorem Program.exists_classDecl {p : Program} (h : p.Checked p.bind.tables) {id : ClassId} {cls : Class}
    (hcls : p.bind.tables.classes.class? id = some cls) : ClassTable.Made p.bind.tables id cls := by
  refine h.decls.made h.lineal p.decls (fun {id cls} hcls => ?_) hcls
  simp [ClassTable.class?, Env.initial, ClassTable.empty] at hcls

/-- A class of the table has its members at the offsets and in the slots of its layout. -/
theorem ClassTable.Made.laid (ht : t.classes.Lineal) {id : ClassId} {cls : Class}
    (h : ClassTable.Made t id cls) : ∃ fields methods, cls.Laid fields methods := by
  obtain ⟨c, Γ, Γ', s, hc, -⟩ := h
  exact ⟨_, _, hc.laid ht⟩

end ObjLet
