import ObjLet.Proofs.Class.Final

/-!
# Packed classes

In a program without errors the virtual table of a class and its layout say the same (`Class.Packed`,
`Program.classes_packed`): the fields by descending offset are those of the layout, each at its offset and
with its type; the methods by ascending offset have the slots 0, 1, … and the signatures of the layout. The
words of the fields fill the place below the address of an object without gap or overlap.
-/

namespace ObjLet

/-- The address is one of the words of a member, counted from the address of the object. -/
def Entry.Occupies (e : Entry) (a : Int) : Prop := e.offset - e.ty.words < a ∧ a ≤ e.offset

/-- The members of a class are packed as its layout says. -/
structure Class.Packed (c : Class) : Prop where
  fieldOffsets : c.members.fields.map (·.2.offset) = c.layout.fieldOffsets
  fieldTypes : c.members.fields.map (·.2.ty) = c.layout.fields
  methodSlots : c.members.methods.map (·.2.offset) = (List.range c.layout.methods.length).map Int.ofNat
  methodTypes : c.members.methods.map (·.2.ty) = c.layout.methods.map Signature.ty
  kinds : ∀ {name : String} {e : Entry}, c.members[name]? = some e → e.kind = .field ∨ e.kind = .method
  /-- Every word from -1 down to the last one belongs to a field. -/
  covered : ∀ a : Int, (-c.layout.fieldWords ≤ a ∧ a ≤ -1) ↔
    ∃ (name : String) (e : Entry), c.members[name]? = some e ∧ e.kind = .field ∧ e.Occupies a
  /-- No word belongs to two fields. -/
  disjoint : ∀ {name name' : String} {e e' : Entry} {a : Int}, c.members[name]? = some e →
    c.members[name']? = some e' → e.kind = .field → e'.kind = .field → e.Occupies a → e'.Occupies a →
    name = name'
  fieldIndex : ∀ (offset : Int) (i : Nat),
    c.layout.fieldIndex? offset = some i ↔ c.layout.fieldOffsets[i]? = some offset
  nextField : ∀ a : Int, (c.layout.nextFieldOffset < a ∧ a < 0) ↔
    ∃ (name : String) (e : Entry), c.members[name]? = some e ∧ e.kind = .field ∧ e.Occupies a

/-! ## Words of consecutive slots -/

/-- Slots of the given types, one below the other, fill the words that they take. -/
theorem occupied_offsetsBelow {next a : Int} {tys : List Ty} :
    (∃ (i : Nat) (o : Int) (ty : Ty), (offsetsBelow next tys)[i]? = some o ∧ tys[i]? = some ty ∧
      o - ty.words < a ∧ a ≤ o) ↔ next - TyOf.totalWords tys < a ∧ a ≤ next := by
  induction tys generalizing next with
  | nil => simp [offsetsBelow, TyOf.totalWords]
  | cons ty tys ih =>
    have hrest := @ih (next - ty.words)
    have hpos := ty.words_pos
    simp only [TyOf.totalWords, Int.natCast_add]
    constructor
    · rintro ⟨i, o, ty', ho, hty, ha⟩
      cases i with
      | zero =>
        cases ho
        cases hty
        omega
      | succ i =>
        have := hrest.1 ⟨i, o, ty', ho, hty, ha⟩
        omega
    · intro ha
      -- A word belongs to the first slot or lies below it, where the others are.
      by_cases hfirst : next - ty.words < a
      · exact ⟨0, next, ty, rfl, rfl, hfirst, ha.2⟩
      · obtain ⟨i, o, ty', ho, hty, ha'⟩ := hrest.2 (by omega)
        exact ⟨i + 1, o, ty', ho, hty, ha'⟩

/-- No word belongs to two slots. -/
theorem index_eq_of_occupied {next a : Int} {tys : List Ty} {i j : Nat} {o o' : Int} {ty ty' : Ty}
    (ho : (offsetsBelow next tys)[i]? = some o) (hty : tys[i]? = some ty)
    (ho' : (offsetsBelow next tys)[j]? = some o') (hty' : tys[j]? = some ty')
    (ha : o - ty.words < a ∧ a ≤ o) (ha' : o' - ty'.words < a ∧ a ≤ o') : i = j := by
  induction tys generalizing next i j with
  | nil => cases hty
  | cons first tys ih =>
    -- What lies behind the first slot lies below it.
    have below : ∀ {k : Nat} {o : Int} {ty : Ty}, (offsetsBelow (next - first.words) tys)[k]? = some o →
        tys[k]? = some ty → o - ty.words < a ∧ a ≤ o → a ≤ next - first.words :=
      fun hk hk' hak => (occupied_offsetsBelow.1 ⟨_, _, _, hk, hk', hak⟩).2
    cases i with
    | zero =>
      cases ho
      cases hty
      cases j with
      | zero => rfl
      | succ j =>
        have := below ho' hty' ha'
        omega
    | succ i =>
      cases j with
      | zero =>
        cases ho'
        cases hty'
        have := below ho hty ha
        omega
      | succ j => rw [ih ho hty ho' hty']

/-- Offsets go down from one field to the next. -/
theorem pairwise_offsetsBelow (next : Int) (tys : List Ty) :
    (offsetsBelow next tys).Pairwise fun o o' => o' < o := by
  induction tys generalizing next with
  | nil => exact .nil
  | cons ty tys ih =>
    refine .cons (fun o ho => ?_) (ih _)
    have := mem_offsetsBelow_le ho
    have := ty.words_pos
    omega

/-! ## Members by offset -/

/-- A list that is in order by distinct keys is what sorting any of its permutations yields. -/
theorem mergeSort_eq_of_perm {α : Type} {l L : List α} {le : α → α → Bool} (key : α → Int)
    (hle : ∀ a b, le a b = true ↔ key a ≤ key b) (hp : l.Perm L)
    (hL : L.Pairwise fun a b => key a < key b) : l.mergeSort le = L := by
  have hperm := (List.mergeSort_perm l le).trans hp
  have hkeys : (L.map key).Nodup := (List.pairwise_map.2 hL).imp Int.ne_of_lt
  have hsorted : (l.mergeSort le).Pairwise fun a b => le a b = true := by
    refine List.pairwise_mergeSort (fun a b c hab hbc => ?_) (fun a b => ?_) l
    · exact (hle _ _).2 (Int.le_trans ((hle _ _).1 hab) ((hle _ _).1 hbc))
    · rw [Bool.or_eq_true, hle, hle]
      exact Int.le_total _ _
  refine List.Perm.eq_of_pairwise (fun a b ha hb hab hba => ?_) hsorted
    (hL.imp fun hab => (hle _ _).2 (Int.le_of_lt hab)) hperm
  exact List.inj_on_of_nodup_map hkeys (hperm.mem_iff.1 ha) hb
    (Int.le_antisymm ((hle _ _).1 hab) ((hle _ _).1 hba))

namespace VirtualTable

variable {v : VirtualTable} {kind : EntryKind} {L : List (String × Entry)}

/-- The members of a kind are those listed, in some order. -/
theorem ofKind_perm (hn : L.Nodup)
    (h : ∀ (name : String) (e : Entry), (name, e) ∈ L ↔ v[name]? = some e ∧ e.kind = kind) :
    (v.ofKind kind).Perm L := by
  have hnodup : v.toList.Nodup := by
    refine Std.TreeMap.distinct_keys_toList.imp ?_
    rintro a b hab rfl
    exact hab Std.ReflCmp.compare_self
  refine (List.perm_ext_iff_of_nodup (hnodup.filter _) hn).2 ?_
  rintro ⟨name, e⟩
  rw [List.mem_filter, Std.TreeMap.mem_toList_iff_getElem?_eq_some, h, beq_iff_eq]

/-- What is known to be the fields, with descending offsets, is what `fields` lists. -/
theorem fields_eq
    (h : ∀ (name : String) (e : Entry), (name, e) ∈ L ↔ v[name]? = some e ∧ e.kind = .field)
    (hL : L.Pairwise fun a b => b.2.offset < a.2.offset) : v.fields = L := by
  have hn : L.Nodup := hL.imp fun hab heq => by rw [heq] at hab; omega
  refine mergeSort_eq_of_perm (fun a => -a.2.offset) (fun a b => ?_) (ofKind_perm hn h)
    (hL.imp fun hab => by omega)
  rw [decide_eq_true_iff]
  omega

/-- What is known to be the methods, with ascending slots, is what `methods` lists. -/
theorem methods_eq
    (h : ∀ (name : String) (e : Entry), (name, e) ∈ L ↔ v[name]? = some e ∧ e.kind = .method)
    (hL : L.Pairwise fun a b => a.2.offset < b.2.offset) : v.methods = L := by
  have hn : L.Nodup := hL.imp fun hab heq => by rw [heq] at hab; omega
  refine mergeSort_eq_of_perm (fun a => a.2.offset) (fun a b => ?_) (ofKind_perm hn h) hL
  rw [decide_eq_true_iff]

end VirtualTable

/-! ## Laid classes are packed -/

namespace Class

variable {c : Class} {fs ms : List String}

/-- The fields as the layout has them, under the given names. -/
def laidFields (c : Class) (fs : List String) : List (String × Entry) :=
  fs.zip ((c.layout.fieldOffsets.zip c.layout.fields).map fun (o, ty) => ⟨.field, 1, o, ty⟩)

/-- The methods as the layout has them, under the given names. -/
def laidMethods (c : Class) (ms : List String) : List (String × Entry) :=
  ms.zip (c.layout.methods.zipIdx.map fun (sig, i) => ⟨.method, 1, (i : Nat), sig.ty⟩)

/-- A laid field has the name, the offset and the type of its position. -/
theorem getElem?_laidFields {i : Nat} {name : String} {e : Entry} :
    (c.laidFields fs)[i]? = some (name, e) ↔
      fs[i]? = some name ∧ ∃ o ty, c.layout.fieldOffsets[i]? = some o ∧
        c.layout.fields[i]? = some ty ∧ e = ⟨.field, 1, o, ty⟩ := by
  simp only [laidFields, List.getElem?_zip_eq_some, List.getElem?_map, Option.map_eq_some_iff,
    Prod.exists]
  constructor
  · rintro ⟨hn, o, ty, ⟨ho, hty⟩, rfl⟩
    exact ⟨hn, o, ty, ho, hty, rfl⟩
  · rintro ⟨hn, o, ty, ho, hty, rfl⟩
    exact ⟨hn, o, ty, ⟨ho, hty⟩, rfl⟩

/-- A laid method has the name and the signature of its position, which is its slot. -/
theorem getElem?_laidMethods {i : Nat} {name : String} {e : Entry} :
    (c.laidMethods ms)[i]? = some (name, e) ↔
      ms[i]? = some name ∧ ∃ sig, c.layout.methods[i]? = some sig ∧
        e = ⟨.method, 1, (i : Nat), sig.ty⟩ := by
  simp only [laidMethods, List.getElem?_zip_eq_some, List.getElem?_map, Option.map_eq_some_iff,
    List.getElem?_zipIdx, Nat.zero_add]
  constructor
  · rintro ⟨hn, _, ⟨sig, hsig, rfl⟩, rfl⟩
    exact ⟨hn, sig, hsig, rfl⟩
  · rintro ⟨hn, sig, hsig, rfl⟩
    exact ⟨hn, _, ⟨sig, hsig, rfl⟩, rfl⟩

namespace Laid

/-- The laid fields are the members that are fields. -/
theorem mem_laidFields (h : c.Laid fs ms) (name : String) (e : Entry) :
    (name, e) ∈ c.laidFields fs ↔ c.members[name]? = some e ∧ e.kind = .field := by
  constructor
  · intro hm
    obtain ⟨i, hi⟩ := List.getElem?_of_mem hm
    obtain ⟨hn, o, ty, ho, hty, rfl⟩ := getElem?_laidFields.1 hi
    obtain ⟨o', ty', ho', hty', he⟩ := h.field hn
    cases ho.symm.trans ho'
    cases hty.symm.trans hty'
    exact ⟨he, rfl⟩
  · rintro ⟨he, hk⟩
    obtain ⟨hm, -⟩ | ⟨-, hk'⟩ := h.kind_cases he
    · obtain ⟨i, o, ty, hi, ho, hty, he'⟩ := h.entry_of_mem_fields hm
      cases he.symm.trans he'
      exact List.mem_of_getElem? (getElem?_laidFields.2 ⟨hi, o, ty, ho, hty, rfl⟩)
    · rw [hk] at hk'
      cases hk'

/-- The laid methods are the members that are methods. -/
theorem mem_laidMethods (h : c.Laid fs ms) (name : String) (e : Entry) :
    (name, e) ∈ c.laidMethods ms ↔ c.members[name]? = some e ∧ e.kind = .method := by
  constructor
  · intro hm
    obtain ⟨i, hi⟩ := List.getElem?_of_mem hm
    obtain ⟨hn, sig, hsig, rfl⟩ := getElem?_laidMethods.1 hi
    obtain ⟨sig', hsig', he⟩ := h.method hn
    cases hsig.symm.trans hsig'
    exact ⟨he, rfl⟩
  · rintro ⟨he, hk⟩
    obtain ⟨-, hk'⟩ | ⟨hm, -⟩ := h.kind_cases he
    · rw [hk] at hk'
      cases hk'
    · obtain ⟨i, sig, hi, hsig, he'⟩ := h.entry_of_mem_methods hm
      cases he.symm.trans he'
      exact List.mem_of_getElem? (getElem?_laidMethods.2 ⟨hi, sig, hsig, rfl⟩)

/-- What is read off the laid fields, read off the layout. -/
theorem map_laidFields {β : Type} (h : c.Laid fs ms) (g : Entry → β) :
    (c.laidFields fs).map (fun p => g p.2) =
      (c.layout.fieldOffsets.zip c.layout.fields).map fun (o, ty) => g ⟨.field, 1, o, ty⟩ := by
  have hlen : (c.layout.fieldOffsets.zip c.layout.fields).length ≤ fs.length := by
    rw [List.length_zip, h.length_fields]
    exact Nat.min_le_right _ _
  rw [laidFields, show (fun p : String × Entry => g p.2) = g ∘ Prod.snd from rfl, ← List.map_map,
    List.map_snd_zip (by rwa [List.length_map])]
  exact List.map_map

theorem map_laidMethods {β : Type} (h : c.Laid fs ms) (g : Entry → β) :
    (c.laidMethods ms).map (fun p => g p.2) =
      c.layout.methods.zipIdx.map fun (sig, i) => g ⟨.method, 1, (i : Nat), sig.ty⟩ := by
  have hlen : c.layout.methods.zipIdx.length ≤ ms.length :=
    Nat.le_of_eq (by rw [List.length_zipIdx, h.length_methods])
  rw [laidMethods, show (fun p : String × Entry => g p.2) = g ∘ Prod.snd from rfl, ← List.map_map,
    List.map_snd_zip (by rwa [List.length_map])]
  exact List.map_map

/-- The slots of the laid methods are 0, 1, and so on. -/
theorem slots_laidMethods (h : c.Laid fs ms) :
    (c.laidMethods ms).map (fun p => p.2.offset) =
      (List.range c.layout.methods.length).map Int.ofNat := by
  rw [h.map_laidMethods, List.range_eq_range', ← List.zipIdx_map_snd, List.map_map]
  rfl

/-- The fields of a class, by descending offset, are those of its layout. -/
theorem members_fields (h : c.Laid fs ms) : c.members.fields = c.laidFields fs := by
  have hoffsets : (c.laidFields fs).map (·.2.offset) = c.layout.fieldOffsets := by
    rw [h.map_laidFields]
    exact List.map_fst_zip (Nat.le_of_eq c.layout.length_fieldOffsets)
  have hdescending : ((c.laidFields fs).map (·.2.offset)).Pairwise fun o o' => o' < o := by
    rw [hoffsets]
    exact pairwise_offsetsBelow _ _
  exact VirtualTable.fields_eq h.mem_laidFields (List.pairwise_map.1 hdescending)

/-- The methods of a class, by ascending slot, are those of its layout. -/
theorem members_methods (h : c.Laid fs ms) : c.members.methods = c.laidMethods ms := by
  have hascending : ((c.laidMethods ms).map (·.2.offset)).Pairwise fun o o' => o < o' := by
    rw [h.slots_laidMethods, List.pairwise_map]
    exact List.pairwise_lt_range.imp Int.ofNat_lt.2
  exact VirtualTable.methods_eq h.mem_laidMethods (List.pairwise_map.1 hascending)

/-- The fields that have a word are the slots of the layout that have it. -/
theorem occupied_iff (h : c.Laid fs ms) {a : Int} :
    (∃ (name : String) (e : Entry), c.members[name]? = some e ∧ e.kind = .field ∧ e.Occupies a) ↔
      -1 - (c.layout.fieldWords : Int) < a ∧ a ≤ -1 := by
  rw [ClassLayout.fieldWords, ← occupied_offsetsBelow]
  constructor
  · rintro ⟨name, e, he, hk, ha⟩
    obtain ⟨i, hi⟩ := List.getElem?_of_mem ((h.mem_laidFields name e).2 ⟨he, hk⟩)
    obtain ⟨-, o, ty, ho, hty, rfl⟩ := getElem?_laidFields.1 hi
    exact ⟨i, o, ty, ho, hty, ha⟩
  · rintro ⟨i, o, ty, ho, hty, ha⟩
    have hlt : i < fs.length := by
      rw [h.length_fields]
      exact (List.getElem?_eq_some_iff.1 hty).1
    obtain ⟨o', ty', ho', hty', he⟩ := h.field (List.getElem?_eq_getElem hlt)
    cases ho.symm.trans ho'
    cases hty.symm.trans hty'
    exact ⟨_, _, he, rfl, ha⟩

/-- A word of an object belongs to one field. -/
theorem name_eq_of_occupies (h : c.Laid fs ms) {name name' : String} {e e' : Entry} {a : Int}
    (he : c.members[name]? = some e) (he' : c.members[name']? = some e') (hk : e.kind = .field)
    (hk' : e'.kind = .field) (ha : e.Occupies a) (ha' : e'.Occupies a) : name = name' := by
  obtain ⟨i, hi⟩ := List.getElem?_of_mem ((h.mem_laidFields name e).2 ⟨he, hk⟩)
  obtain ⟨j, hj⟩ := List.getElem?_of_mem ((h.mem_laidFields name' e').2 ⟨he', hk'⟩)
  obtain ⟨-, o, ty, ho, hty, rfl⟩ := getElem?_laidFields.1 hi
  obtain ⟨-, o', ty', ho', hty', rfl⟩ := getElem?_laidFields.1 hj
  have hij := index_eq_of_occupied ho hty ho' hty' ha ha'
  subst hij
  cases hi.symm.trans hj
  rfl

theorem packed (h : c.Laid fs ms) : c.Packed where
  fieldOffsets := by
    rw [h.members_fields, h.map_laidFields]
    exact List.map_fst_zip (Nat.le_of_eq c.layout.length_fieldOffsets)
  fieldTypes := by
    rw [h.members_fields, h.map_laidFields]
    exact List.map_snd_zip (Nat.le_of_eq c.layout.length_fieldOffsets.symm)
  methodSlots := by
    rw [h.members_methods, h.slots_laidMethods]
  methodTypes := by
    rw [h.members_methods, h.map_laidMethods]
    conv_rhs => rw [← List.zipIdx_map_fst 0 c.layout.methods, List.map_map]
    rfl
  kinds he := by
    obtain ⟨-, hk⟩ | ⟨-, hk⟩ := h.kind_cases he
    · exact .inl hk
    · exact .inr hk
  covered a := by
    rw [h.occupied_iff]
    omega
  disjoint := h.name_eq_of_occupies
  fieldIndex offset i := by
    constructor
    · intro hi
      obtain ⟨hlt, heq, -⟩ := List.idxOf?_eq_some_iff.1 hi
      exact List.getElem?_eq_some_iff.2 ⟨hlt, heq⟩
    · exact ClassLayout.fieldIndex?_of_getElem?
  nextField a := by
    rw [h.occupied_iff, ClassLayout.nextFieldOffset]
    omega

end Laid

end Class

/-- In a program without errors every class is packed. -/
theorem Program.classes_packed {p : Program} (hid : p.ids.Nodup) (hbind : p.bind.errors = [])
    (htype : p.typeErrors p.bind.tables = []) {id : ClassId} {c : Class}
    (hc : p.bind.tables.classes.class? id = some c) : c.Packed := by
  have h := checked hid hbind htype
  obtain ⟨fields, methods, hlaid⟩ := (p.exists_classDecl h hc).laid h.lineal
  exact hlaid.packed

/-- A class with a function in a field between two numbers, and a subclass that overrides the function and
adds a field and a method. -/
def Program.handlers : Program := Program.built do
  let arrow := TypeExpr.arrow [.int] .int
  let run ← Build.function "run" [← Build.param "x" .int] .int [] (← Build.call "handle" [← Build.ident "x"])
  let a ← Build.cls "A" none
    [← Build.param "low" .int, ← Build.param "handle" arrow, ← Build.param "high" .int] [run]
  let stop ← Build.function "stop" [] .bool [] (← Build.literal (.bool true))
  let b ← Build.cls "B" (some "A")
    [← Build.param "handle" (.arrow [.int] .bool), ← Build.param "last" .bool] [stop]
  Build.program [.cls a, .cls b] (← Build.literal .null)

/-- A class with a function in a field, which takes two words, and a subclass that overrides it. -/
theorem Program.classes_packed_handlers :
    ∃ c, handlers.bind.tables.classes.class? 1 = some c ∧ c.Packed := by
  have hid : handlers.ids.Nodup := by decide +kernel
  have hbind : handlers.bind.errors = [] := List.isEmpty_iff.1 (by decide +kernel)
  have htype : handlers.typeErrors handlers.bind.tables = [] := List.isEmpty_iff.1 (by decide +kernel)
  have hsome : (handlers.bind.tables.classes.class? 1).isSome := by decide +kernel
  obtain ⟨c, hc⟩ := Option.isSome_iff_exists.1 hsome
  exact ⟨c, hc, classes_packed hid hbind htype hc⟩

end ObjLet
