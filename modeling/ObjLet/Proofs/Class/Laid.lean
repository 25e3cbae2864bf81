import Mathlib.Data.List.Nodup
import ObjLet.Class.Table

/-!
# Classes whose members agree with their layout

`Class.Laid` ties the virtual table of a class to its layout: given the names of the fields in layout
order and of the methods by slot, every name is a member with the offset and the type that the layout
has for it, and there are no other members. The steps that build a class keep it: starting from the
superclass, adding a member, and overriding one, where an overriding field must take as many words as
the inherited one.
-/

namespace ObjLet

/-! ## Offsets of fields -/

/-- No offset lies above the next free one. -/
theorem mem_offsetsBelow_le {o next : Int} {tys : List Ty} (h : o ∈ offsetsBelow next tys) :
    o ≤ next := by
  induction tys generalizing next with
  | nil => cases h
  | cons ty tys ih =>
    rcases List.mem_cons.1 h with rfl | h
    · exact Int.le_refl _
    · have := ih h
      omega

/-- Every field has an offset of its own. -/
theorem nodup_offsetsBelow (next : Int) (tys : List Ty) : (offsetsBelow next tys).Nodup := by
  induction tys generalizing next with
  | nil => exact List.nodup_nil
  | cons ty tys ih =>
    refine List.nodup_cons.2 ⟨fun h => ?_, ih _⟩
    have := mem_offsetsBelow_le h
    have := ty.words_pos
    omega

/-- Replacing a type by one of as many words moves nothing. -/
theorem offsetsBelow_set {next : Int} {tys : List Ty} {i : Nat} {old new : Ty}
    (h : tys[i]? = some old) (hw : new.words = old.words) :
    offsetsBelow next (tys.set i new) = offsetsBelow next tys := by
  induction tys generalizing next i with
  | nil => cases h
  | cons ty tys ih =>
    cases i with
    | zero =>
      cases h
      simp [offsetsBelow, hw]
    | succ i =>
      simp only [List.set_cons_succ, offsetsBelow]
      rw [ih (by simpa using h)]

/-- A type of the same size leaves the size of the object as it is. -/
theorem totalWords_set {tys : List Ty} {i : Nat} {old new : Ty} (h : tys[i]? = some old)
    (hw : new.words = old.words) : TyOf.totalWords (tys.set i new) = TyOf.totalWords tys := by
  induction tys generalizing i with
  | nil => cases h
  | cons ty tys ih =>
    cases i with
    | zero =>
      cases h
      simp [TyOf.totalWords, hw]
    | succ i =>
      simp only [List.set_cons_succ, TyOf.totalWords]
      rw [ih (by simpa using h)]

namespace ClassLayout

variable {l : ClassLayout} {i : Nat} {o : Int} {ty : Ty}

/-- The position of a field is found from its offset. -/
theorem fieldIndex?_of_getElem? (h : l.fieldOffsets[i]? = some o) : l.fieldIndex? o = some i := by
  obtain ⟨hi, rfl⟩ := List.getElem?_eq_some_iff.1 h
  have hn : l.fieldOffsets.Nodup := nodup_offsetsBelow _ _
  rw [fieldIndex?, List.idxOf?_eq_some_iff]
  refine ⟨hi, rfl, fun j hj heq => ?_⟩
  exact absurd ((hn.getElem_inj_iff).1 heq) (Nat.ne_of_lt hj)

/-- The type at an offset is the type at its position. -/
theorem fieldType?_of_getElem? (h : l.fieldOffsets[i]? = some o) : l.fieldType? o = l.fields[i]? := by
  rw [fieldType?, fieldIndex?_of_getElem? h, Option.bind_some]

/-- To set the field at an offset is to set it at its position. -/
theorem setField_of_getElem? (h : l.fieldOffsets[i]? = some o) (ty : Ty) :
    l.setField o ty = { l with fields := l.fields.set i ty } := by
  rw [setField, fieldIndex?_of_getElem? h]

theorem methodType?_natCast (l : ClassLayout) (i : Nat) : l.methodType? i = l.methods[i]? := by
  rw [methodType?, if_neg (by omega), Int.toNat_natCast]

theorem setMethod_natCast (l : ClassLayout) (i : Nat) (sig : Signature) :
    l.setMethod i sig = { l with methods := l.methods.set i sig } := by
  rw [setMethod, if_neg (by omega), Int.toNat_natCast]

end ClassLayout

/-! ## Members -/

/-- The members of a class are the fields and the methods of the given names, at the offsets and with
the types of the layout. -/
structure Class.Laid (c : Class) (fields methods : List String) : Prop where
  length_fields : fields.length = c.layout.fields.length
  length_methods : methods.length = c.layout.methods.length
  field : ∀ {i : Nat} {name : String}, fields[i]? = some name →
    ∃ offset ty, c.layout.fieldOffsets[i]? = some offset ∧ c.layout.fields[i]? = some ty ∧
      c.members[name]? = some ⟨.field, 1, offset, ty⟩
  method : ∀ {i : Nat} {name : String}, methods[i]? = some name →
    ∃ sig, c.layout.methods[i]? = some sig ∧ c.members[name]? = some ⟨.method, 1, i, sig.ty⟩
  mem : ∀ {name : String} {e : Entry}, c.members[name]? = some e → name ∈ fields ∨ name ∈ methods

namespace Class.Laid

variable {c : Class} {fs ms : List String} {name : String} {e : Entry}

/-- A field name has an entry at one of the offsets. -/
theorem entry_of_mem_fields (h : c.Laid fs ms) (hm : name ∈ fs) :
    ∃ (i : Nat) (offset : Int) (ty : Ty), fs[i]? = some name ∧ c.layout.fieldOffsets[i]? = some offset ∧
      c.layout.fields[i]? = some ty ∧ c.members[name]? = some ⟨.field, 1, offset, ty⟩ := by
  obtain ⟨i, hi⟩ := List.getElem?_of_mem hm
  obtain ⟨offset, ty, ho, ht, he⟩ := h.field hi
  exact ⟨i, offset, ty, hi, ho, ht, he⟩

/-- A method name has an entry in one of the slots. -/
theorem entry_of_mem_methods (h : c.Laid fs ms) (hm : name ∈ ms) :
    ∃ (i : Nat) (sig : Signature), ms[i]? = some name ∧ c.layout.methods[i]? = some sig ∧
      c.members[name]? = some ⟨.method, 1, (i : Nat), sig.ty⟩ := by
  obtain ⟨i, hi⟩ := List.getElem?_of_mem hm
  obtain ⟨sig, hs, he⟩ := h.method hi
  exact ⟨i, sig, hi, hs, he⟩

/-- A member is a field or a method, and its kind tells which. -/
theorem kind_cases (h : c.Laid fs ms) (he : c.members[name]? = some e) :
    (name ∈ fs ∧ e.kind = .field) ∨ (name ∈ ms ∧ e.kind = .method) := by
  rcases h.mem he with hm | hm
  · obtain ⟨i, offset, ty, -, -, -, he'⟩ := h.entry_of_mem_fields hm
    cases he.symm.trans he'
    exact .inl ⟨hm, rfl⟩
  · obtain ⟨i, sig, -, -, he'⟩ := h.entry_of_mem_methods hm
    cases he.symm.trans he'
    exact .inr ⟨hm, rfl⟩

/-- Every member lies at level 1. -/
theorem level (h : c.Laid fs ms) (he : c.members[name]? = some e) : e.level = 1 := by
  rcases h.mem he with hm | hm
  · obtain ⟨i, offset, ty, -, -, -, he'⟩ := h.entry_of_mem_fields hm
    cases he.symm.trans he'
    rfl
  · obtain ⟨i, sig, -, -, he'⟩ := h.entry_of_mem_methods hm
    cases he.symm.trans he'
    rfl

/-- A field stands at one position only. -/
theorem field_inj (h : c.Laid fs ms) {i j : Nat} (hi : fs[i]? = some name) (hj : fs[j]? = some name) :
    i = j := by
  obtain ⟨o, ty, ho, -, he⟩ := h.field hi
  obtain ⟨o', ty', ho', -, he'⟩ := h.field hj
  cases he.symm.trans he'
  exact Option.some.inj
    ((ClassLayout.fieldIndex?_of_getElem? ho).symm.trans (ClassLayout.fieldIndex?_of_getElem? ho'))

theorem method_inj (h : c.Laid fs ms) {i j : Nat} (hi : ms[i]? = some name)
    (hj : ms[j]? = some name) : i = j := by
  obtain ⟨sig, -, he⟩ := h.method hi
  obtain ⟨sig', -, he'⟩ := h.method hj
  have := he.symm.trans he'
  simp only [Option.some.injEq, Entry.mk.injEq, Int.natCast_inj, true_and] at this
  exact this.1

/-- The layout determines the names. -/
theorem fields_eq {fs' ms' : List String} (h : c.Laid fs ms) (h' : c.Laid fs' ms') : fs = fs' := by
  refine List.ext_getElem? fun i => ?_
  cases hi : fs[i]? with
  | none =>
    rw [List.getElem?_eq_none_iff, h.length_fields, ← h'.length_fields] at hi
    exact (List.getElem?_eq_none hi).symm
  | some n =>
    obtain ⟨o, ty, ho, -, he⟩ := h.field hi
    obtain ⟨hm, -⟩ | ⟨-, hk⟩ := h'.kind_cases he
    swap
    · cases hk
    obtain ⟨j, o', ty', hj, ho', -, he'⟩ := h'.entry_of_mem_fields hm
    cases he.symm.trans he'
    have hij : i = j := Option.some.inj
      ((ClassLayout.fieldIndex?_of_getElem? ho).symm.trans (ClassLayout.fieldIndex?_of_getElem? ho'))
    rw [hij, hj]

/-- The names of the methods are determined by the class. -/
theorem methods_eq {fs' ms' : List String} (h : c.Laid fs ms) (h' : c.Laid fs' ms') : ms = ms' := by
  refine List.ext_getElem? fun i => ?_
  cases hi : ms[i]? with
  | none =>
    rw [List.getElem?_eq_none_iff, h.length_methods, ← h'.length_methods] at hi
    exact (List.getElem?_eq_none hi).symm
  | some n =>
    obtain ⟨sig, -, he⟩ := h.method hi
    obtain ⟨-, hk⟩ | ⟨hm, -⟩ := h'.kind_cases he
    · cases hk
    obtain ⟨j, sig', hj, -, he'⟩ := h'.entry_of_mem_methods hm
    have hij := he.symm.trans he'
    simp only [Option.some.injEq, Entry.mk.injEq, Int.natCast_inj, true_and] at hij
    rw [hij.1, hj]

/-! ### Steps -/

/-- A class without superclass starts without members. -/
theorem newClass_none (id : ClassId) (name : String) : (ClassTable.newClass id name none).Laid [] [] where
  length_fields := rfl
  length_methods := rfl
  field h := by cases h
  method h := by cases h
  mem h := by simp [ClassTable.newClass] at h

/-- A class starts with the members of its superclass. -/
theorem newClass_some {parent : Class} (h : parent.Laid fs ms) (id : ClassId) (name : String) :
    (ClassTable.newClass id name (some parent)).Laid fs ms :=
  ⟨h.length_fields, h.length_methods, h.field, h.method, h.mem⟩

/-- Adding a field under a new name. -/
theorem addField (h : c.Laid fs ms) (hn : c.members[name]? = none) (ty : Ty) :
    Class.Laid
      ⟨c.layout.addField ty, c.members.insert name ⟨.field, 1, c.layout.nextFieldOffset, ty⟩⟩
      (fs ++ [name]) ms where
  length_fields := by simp [ClassLayout.addField, h.length_fields]
  length_methods := h.length_methods
  field := by
    intro i n hi
    simp only [ClassLayout.fieldOffsets_addField, Scope.getElem?_insert]
    simp only [ClassLayout.addField]
    -- The new field is the last one, and no other has its name.
    rcases Nat.lt_or_ge i fs.length with hlt | hge
    · rw [List.getElem?_append_left hlt] at hi
      obtain ⟨o, ty', ho, hty, he⟩ := h.field hi
      refine ⟨o, ty', ?_, ?_, ?_⟩
      · rw [List.getElem?_append_left (List.getElem?_eq_some_iff.1 ho).1, ho]
      · rw [List.getElem?_append_left (List.getElem?_eq_some_iff.1 hty).1, hty]
      · rw [if_neg (by rintro rfl; rw [hn] at he; cases he), he]
    · rw [List.getElem?_append_right hge, List.getElem?_singleton] at hi
      split at hi
      · next hz =>
        cases hi
        have hi : i = c.layout.fields.length := by have := h.length_fields; omega
        subst hi
        refine ⟨_, ty, ?_, List.getElem?_concat_length, if_pos rfl⟩
        rw [← ClassLayout.length_fieldOffsets]
        exact List.getElem?_concat_length
      · cases hi
  method := by
    intro i n hi
    obtain ⟨sig, hs, he⟩ := h.method hi
    refine ⟨sig, hs, ?_⟩
    rw [Scope.getElem?_insert, if_neg (by rintro rfl; rw [hn] at he; cases he), he]
  mem := by
    intro n e he
    rw [Scope.getElem?_insert] at he
    split at he
    · next heq => exact .inl (by simp [heq])
    · exact (h.mem he).imp_left (List.mem_append_left _)

/-- Overriding a field by one that takes as many words. -/
theorem setField (h : c.Laid fs ms) (he : c.members[name]? = some e) (hk : e.kind = .field)
    {ty : Ty} (hw : ty.words = e.ty.words) :
    Class.Laid ⟨c.layout.setField e.offset ty, c.members.insert name ⟨.field, 1, e.offset, ty⟩⟩
      fs ms := by
  rcases h.kind_cases he with ⟨hm, -⟩ | ⟨-, hk'⟩
  swap
  · rw [hk] at hk'; cases hk'
  obtain ⟨i, o, old, hi, ho, hold, he'⟩ := h.entry_of_mem_fields hm
  cases he.symm.trans he'
  rw [ClassLayout.setField_of_getElem? ho]
  -- The field keeps its width, so all offsets stay.
  have hoffsets : ClassLayout.fieldOffsets { c.layout with fields := c.layout.fields.set i ty } =
      c.layout.fieldOffsets := offsetsBelow_set hold hw
  refine ⟨by simp [h.length_fields], h.length_methods, ?_, ?_, ?_⟩
  · intro j n hj
    simp only [hoffsets, Scope.getElem?_insert]
    obtain ⟨o', ty', ho', hty', he'⟩ := h.field hj
    by_cases hn : name = n
    · subst hn
      cases h.field_inj hi hj
      refine ⟨o, ty, ho, ?_, if_pos rfl⟩
      rw [List.getElem?_set_self (List.getElem?_eq_some_iff.1 hold).1]
    · refine ⟨o', ty', ho', ?_, (if_neg hn).trans he'⟩
      rw [List.getElem?_set_ne, hty']
      rintro rfl
      exact hn (Option.some.inj (hi.symm.trans hj))
  · intro j n hj
    obtain ⟨sig, hs, hen⟩ := h.method hj
    refine ⟨sig, hs, ?_⟩
    rw [Scope.getElem?_insert, if_neg (by rintro rfl; rw [he] at hen; cases hen), hen]
  · intro n e' hen
    rw [Scope.getElem?_insert] at hen
    split at hen
    · next heq => exact .inl (heq ▸ hm)
    · exact h.mem hen

/-- A field that overrides takes no new words. -/
theorem nextFieldOffset_setField (h : c.Laid fs ms) (he : c.members[name]? = some e)
    (hk : e.kind = .field) {ty : Ty} (hw : ty.words = e.ty.words) :
    (c.layout.setField e.offset ty).nextFieldOffset = c.layout.nextFieldOffset := by
  rcases h.kind_cases he with ⟨hm, -⟩ | ⟨-, hk'⟩
  swap
  · rw [hk] at hk'; cases hk'
  obtain ⟨i, o, old, -, ho, hold, he'⟩ := h.entry_of_mem_fields hm
  cases he.symm.trans he'
  rw [ClassLayout.setField_of_getElem? ho]
  simp only [ClassLayout.nextFieldOffset, ClassLayout.fieldWords, totalWords_set hold hw]

/-- Adding a method under a new name. -/
theorem addMethod (h : c.Laid fs ms) (hn : c.members[name]? = none) (sig : Signature) :
    Class.Laid
      ⟨c.layout.addMethod sig,
        c.members.insert name ⟨.method, 1, (c.layout.methods.length : Nat), sig.ty⟩⟩
      fs (ms ++ [name]) where
  length_fields := h.length_fields
  length_methods := by simp [ClassLayout.addMethod, h.length_methods]
  field := by
    intro i n hi
    obtain ⟨o, ty, ho, hty, he⟩ := h.field hi
    refine ⟨o, ty, ho, hty, ?_⟩
    rw [Scope.getElem?_insert, if_neg (by rintro rfl; rw [hn] at he; cases he), he]
  method := by
    intro i n hi
    simp only [ClassLayout.addMethod, Scope.getElem?_insert]
    rcases Nat.lt_or_ge i ms.length with hlt | hge
    · rw [List.getElem?_append_left hlt] at hi
      obtain ⟨sig', hs, he⟩ := h.method hi
      refine ⟨sig', ?_, ?_⟩
      · rw [List.getElem?_append_left (List.getElem?_eq_some_iff.1 hs).1, hs]
      · rw [if_neg (by rintro rfl; rw [hn] at he; cases he), he]
    · rw [List.getElem?_append_right hge, List.getElem?_singleton] at hi
      split at hi
      · next hz =>
        cases hi
        have hi : i = c.layout.methods.length := by have := h.length_methods; omega
        subst hi
        exact ⟨sig, List.getElem?_concat_length, if_pos rfl⟩
      · cases hi
  mem := by
    intro n e he
    rw [Scope.getElem?_insert] at he
    split at he
    · next heq => exact .inr (by simp [heq])
    · exact (h.mem he).imp_right (List.mem_append_left _)

/-- Overriding a method. -/
theorem setMethod (h : c.Laid fs ms) (he : c.members[name]? = some e) (hk : e.kind = .method)
    (sig : Signature) :
    Class.Laid ⟨c.layout.setMethod e.offset sig, c.members.insert name ⟨.method, 1, e.offset, sig.ty⟩⟩
      fs ms := by
  rcases h.kind_cases he with ⟨-, hk'⟩ | ⟨hm, -⟩
  · rw [hk] at hk'; cases hk'
  obtain ⟨i, old, hi, hold, he'⟩ := h.entry_of_mem_methods hm
  cases he.symm.trans he'
  rw [ClassLayout.setMethod_natCast]
  refine ⟨h.length_fields, by simp [h.length_methods], ?_, ?_, ?_⟩
  · intro j n hj
    obtain ⟨o, ty, ho, hty, hen⟩ := h.field hj
    refine ⟨o, ty, ho, hty, ?_⟩
    rw [Scope.getElem?_insert, if_neg (by rintro rfl; rw [he] at hen; cases hen), hen]
  · intro j n hj
    simp only [Scope.getElem?_insert]
    obtain ⟨sig', hs, hen⟩ := h.method hj
    by_cases hn : name = n
    · subst hn
      cases h.method_inj hi hj
      refine ⟨sig, ?_, if_pos rfl⟩
      rw [List.getElem?_set_self (List.getElem?_eq_some_iff.1 hold).1]
    · refine ⟨sig', ?_, (if_neg hn).trans hen⟩
      rw [List.getElem?_set_ne, hs]
      rintro rfl
      exact hn (Option.some.inj (hi.symm.trans hj))
  · intro n e' hen
    rw [Scope.getElem?_insert] at hen
    split at hen
    · next heq => exact .inr (heq ▸ hm)
    · exact h.mem hen

end Class.Laid

end ObjLet
