import ObjLet.Proofs.Class.Body
import ObjLet.Proofs.Class.Laid
import ObjLet.Proofs.Typing.Checked

/-!
# Members of clean classes

A `ClassSite` is a class of a program with the environment around its members and what it starts from.
`ClassBody.Built` is what holds at every point of its body if binding and checking find no error: members
and layout agree, and names not met so far stand for what the superclass has. A member only ever gets a
subtype and keeps its place.
-/

namespace ObjLet

open Findings

namespace Scope

variable {t : ClassTable} {s : Scope} {name : String} {e : Entry}

/-- A scope with one more name refines the scope. -/
theorem Refines.insert_new (h : s[name]? = none) (e : Entry) : s.Refines t (s.insert name e) := by
  intro n e' he'
  refine ⟨e', ?_, rfl, rfl, rfl, t.isSubtype_refl e'.ty⟩
  rw [getElem?_insert, if_neg, he']
  rintro rfl
  rw [h] at he'
  cases he'

/-- So does a scope in which a name has a subtype. -/
theorem Refines.insert_override (h : s[name]? = some e) {ty : Ty} (hty : t.isSubtype ty e.ty) :
    s.Refines t (s.insert name { e with ty }) := by
  intro n e' he'
  by_cases hn : name = n
  · subst hn
    cases h.symm.trans he'
    exact ⟨{ e with ty }, by rw [getElem?_insert, if_pos rfl], rfl, rfl, rfl, hty⟩
  · exact ⟨e', by rw [getElem?_insert, if_neg hn, he'], rfl, rfl, rfl, t.isSubtype_refl e'.ty⟩

end Scope

/-- What a laid class has for a name is a field or a method, and a method has a signature. -/
theorem Class.Laid.fits {t : ClassTable} {c : Class} {fs ms : List String} (h : c.Laid fs ms)
    {name : String} {e : Entry} (he : c.members[name]? = some e) : e.Fits t := by
  rcases h.mem he with hm | hm
  · obtain ⟨i, offset, ty, -, -, -, he'⟩ := h.entry_of_mem_fields hm
    cases he.symm.trans he'
    exact ⟨nofun, by rintro (h | h) <;> cases h⟩
  · obtain ⟨i, sig, -, -, he'⟩ := h.entry_of_mem_methods hm
    cases he.symm.trans he'
    exact ⟨nofun, fun _ => ⟨sig, rfl⟩⟩

/-- A table whose last class is still being built, beside the final one. -/
theorem ClassTable.fits_concat {t u : ClassTable} {old : List Class} {cur final : Class}
    {fs ms : List String} (hu : u.classes = old ++ [cur]) (hknown : old ++ [final] <+: t.classes)
    (hold : ∀ c ∈ old, ∀ {name : String} {e : Entry}, c.members[name]? = some e → e.Fits t)
    (hl : cur.Laid fs ms) (hr : cur.members.Refines t final.members)
    (hh : final.layout.head = cur.layout.head) :
    (∀ {id : ClassId} {c : Class}, u.class? id = some c → ∃ c', t.class? id = some c' ∧
      c'.layout.head = c.layout.head ∧ c.members.Refines t c'.members) ∧
    ∀ {id : ClassId} {c : Class} {name : String} {e : Entry}, u.class? id = some c →
      c.members[name]? = some e → e.Fits t := by
  obtain ⟨rest, hrest⟩ := hknown
  have hclass : ∀ {id : ClassId} {c : Class}, u.class? id = some c →
      (c ∈ old ∧ t.class? id = some c) ∨ (c = cur ∧ t.class? id = some final) := by
    intro id c hc
    rw [class?, hu] at hc
    -- A class of the table was there before, or is the last one, which the final table has as `final`.
    rcases Nat.lt_trichotomy id old.length with hlt | rfl | hgt
    · rw [List.getElem?_append_left hlt] at hc
      refine .inl ⟨List.mem_of_getElem? hc, ?_⟩
      rw [class?, ← hrest, List.append_assoc, List.getElem?_append_left hlt, hc]
    · rw [List.getElem?_concat_length] at hc
      refine .inr ⟨(Option.some.inj hc).symm, ?_⟩
      rw [class?, ← hrest, List.getElem?_append_left (by simp), List.getElem?_concat_length]
    · rw [List.getElem?_eq_none (by simp; omega)] at hc
      cases hc
  constructor
  · intro id c hc
    obtain ⟨-, hc'⟩ | ⟨rfl, hc'⟩ := hclass hc
    · exact ⟨c, hc', rfl, Scope.Refines.refl _ _⟩
    · exact ⟨final, hc', hh, hr⟩
  · intro id c name e hc he
    obtain ⟨hmem, -⟩ | ⟨rfl, -⟩ := hclass hc
    · exact hold c hmem he
    · exact hl.fits he

namespace Tables

variable {t : Tables}

/-- Where checking does not complain of a member, its type is below that of the member at its offset. -/
theorem fitOverride_eq_nil {cls : String} {id : NodeId} {member : Name} {span : Span}
    {inherited? : Int → Option Ty} {fault : TypeName → TypeName → OverrideFault}
    (h : t.fitOverride cls id member span inherited? fault = []) {e : Entry} {ty : Ty}
    (he : t.resolutions.declaration? id = some e) (hi : inherited? e.offset = some ty) :
    t.classes.isSubtype e.ty ty := by
  unfold fitOverride at h
  rw [he] at h
  dsimp only at h
  rw [hi] at h
  exact require_eq_nil.1 h

/-- A member with the place of an inherited member of `start` has a type below. -/
def Overrides (t : Tables) (start : Class) (kind : EntryKind) (id : NodeId) (name : String) : Prop :=
  ∀ e e₀, t.resolutions.declaration? id = some e → start.members[name]? = some e₀ →
    e₀.kind = kind → e.offset = e₀.offset → t.classes.isSubtype e.ty e₀.ty

/-- Where checking finds nothing wrong, overriding members have types below. -/
theorem overrides_of_fitOverrides {start : Class} {fs ms : List String} (hl : start.Laid fs ms)
    {id : NodeId} {cls : Name} {fields : List Param} {methods : List FunDecl}
    (hp : start.members = ∅ ∨ ∃ parent, t.parentLayout? id = some parent ∧
      parent.fields = start.layout.fields ∧ parent.methods = start.layout.methods)
    (h : t.fitOverrides id cls fields methods = []) :
    (∀ f ∈ fields, t.Overrides start .field f.id f.name.text) ∧
      ∀ m ∈ methods, t.Overrides start .method m.id m.name.text := by
  obtain hempty | ⟨parent, hparent, hf, hm⟩ := hp
  · constructor <;>
    · intro _ _ _ _ _ h₀
      rw [hempty] at h₀
      simp at h₀
  simp only [fitOverrides, hparent, List.append_eq_nil_iff, List.flatMap_eq_nil_iff] at h
  constructor
  · intro f hmem e e₀ he h₀ hk hoff
    -- Checking looks at the offset, not at the name; in a laid class the offset determines the member.
    obtain ⟨hname, -⟩ | ⟨-, hk'⟩ := hl.kind_cases h₀
    swap
    · rw [hk] at hk'; cases hk'
    obtain ⟨i, offset, ty, -, ho, hty, h₀'⟩ := hl.entry_of_mem_fields hname
    cases h₀.symm.trans h₀'
    refine fitOverride_eq_nil (h.1 f hmem) he ?_
    have ho' : parent.fieldOffsets[i]? = some offset := by
      rw [ClassLayout.fieldOffsets, hf]
      exact ho
    rw [hoff, ClassLayout.fieldType?_of_getElem? ho', hf, hty]
  · intro m hmem e e₀ he h₀ hk hoff
    obtain ⟨-, hk'⟩ | ⟨hname, -⟩ := hl.kind_cases h₀
    · rw [hk] at hk'; cases hk'
    obtain ⟨i, sig, -, hsig, h₀'⟩ := hl.entry_of_mem_methods hname
    cases h₀.symm.trans h₀'
    refine fitOverride_eq_nil (h.2 m hmem) he ?_
    rw [hoff, ClassLayout.methodType?_natCast, hm, hsig]
    rfl

end Tables

/-- A class of a program, where its members are declared. -/
structure ClassSite where
  /-- The environment around the members, in which the class is declared. -/
  around : Env
  old : List Class
  /-- The class with the members of its superclass only. -/
  start : Class
  inheritedFields : List String
  inheritedMethods : List String
  depth : around.scopes.depth = 1
  classes : around.classes.classes = old ++ [start]
  laid : start.Laid inheritedFields inheritedMethods

namespace ClassBody

variable {t : Tables} {s : ClassSite} {b : ClassBody} {cur : Class} {fs ms : List String}

/-- What holds while the members of a clean class are declared. -/
structure Built (s : ClassSite) (b : ClassBody) (cur : Class) (fs ms : List String) : Prop where
  site : b.At s.old cur s.around.scopes.scopes
  laid : cur.Laid fs ms
  head : cur.layout.head = s.start.layout.head
  inherited : ∀ name, name ∉ b.declared → cur.members[name]? = s.start.members[name]?

/-- Members of the given names have been added. They were new in the body, and no other member is
changed. -/
structure Grows (t : ClassTable) (b : ClassBody) (cur : Class) (names : List String) (b' : ClassBody)
    (cur' : Class) : Prop where
  declared : b'.declared = names.reverse ++ b.declared
  unmet : ∀ n ∈ names, n ∉ b.declared
  settled : ∀ n, n ∉ names → cur'.members[n]? = cur.members[n]?
  refines : cur.members.Refines t cur'.members

theorem Grows.refl (t : ClassTable) (b : ClassBody) (cur : Class) : Grows t b cur [] b cur :=
  ⟨rfl, nofun, fun _ _ => rfl, Scope.Refines.refl _ _⟩

/-- Members that are added one after the other. No name comes twice, since the second ones are unmet behind the
first. -/
theorem Grows.trans {t : ClassTable} (ht : t.Lineal) {b b' b'' : ClassBody} {cur cur' cur'' : Class}
    {names names' : List String} (h : Grows t b cur names b' cur')
    (h' : Grows t b' cur' names' b'' cur'') : Grows t b cur (names ++ names') b'' cur'' where
  declared := by rw [h'.declared, h.declared, List.reverse_append, List.append_assoc]
  unmet := by
    intro n hn hm
    rcases List.mem_append.1 hn with hn | hn
    · exact h.unmet n hn hm
    · exact h'.unmet n hn (by rw [h.declared]; exact List.mem_append_right _ hm)
  settled := by
    intro n hn
    rw [List.mem_append, not_or] at hn
    rw [h'.settled n hn.2, h.settled n hn.1]
  refines := h.refines.trans ht h'.refines

/-- What a clean member does to the class. -/
theorem Built.adds (h : b.Built s cur fs ms) {b' : ClassBody} {id : NodeId} {name : String}
    {kind : EntryKind} {ty : Ty} {free : Int} {fresh : ClassLayout → ClassLayout}
    {override : Int → ClassLayout → ClassLayout}
    (ha : Adds t.resolutions b b' s.old cur s.around.scopes.scopes id name kind ty free fresh override)
    (ho : t.Overrides s.start kind id name) :
    ∃ cur' : Class, b'.At s.old cur' s.around.scopes.scopes ∧
      (∀ n, n ∉ b'.declared → cur'.members[n]? = s.start.members[n]?) ∧
      Grows t.classes b cur [name] b' cur' ∧
      ((s.start.members[name]? = none ∧ cur.members[name]? = none ∧
          t.resolutions.declaration? id = some ⟨kind, 1, free, ty⟩ ∧
          cur' = ⟨fresh cur.layout, cur.members.insert name ⟨kind, 1, free, ty⟩⟩) ∨
        ∃ e, s.start.members[name]? = some e ∧ cur.members[name]? = some e ∧ e.kind = kind ∧
          t.resolutions.declaration? id = some ⟨kind, 1, e.offset, ty⟩ ∧
          t.classes.isSubtype ty e.ty ∧
          cur' = ⟨override e.offset cur.layout, cur.members.insert name ⟨kind, 1, e.offset, ty⟩⟩) := by
  obtain ⟨offset, f, hd, hat, hcase⟩ := ha.entry
  rw [show s.around.scopes.scopes.length = 1 from s.depth] at hd hat
  have hinh := h.inherited name ha.unmet
  refine ⟨_, hat, ?_, ?_⟩
  · intro n hn
    rw [ha.declared, List.mem_cons, not_or] at hn
    rw [Scope.getElem?_insert, if_neg (Ne.symm hn.1), h.inherited n hn.2]
  have hsettled : ∀ n, n ∉ [name] →
      (cur.members.insert name ⟨kind, 1, offset, ty⟩)[n]? = cur.members[n]? := by
    intro n hn
    rw [List.mem_singleton] at hn
    rw [Scope.getElem?_insert, if_neg (Ne.symm hn)]
  have hunmet : ∀ n ∈ [name], n ∉ b.declared := by simpa using ha.unmet
  -- A new name is added, an inherited one keeps its offset and gets the new type.
  obtain ⟨hn, rfl, rfl⟩ | ⟨e, he, hk, rfl, rfl⟩ := hcase
  · exact ⟨⟨ha.declared, hunmet, hsettled, Scope.Refines.insert_new hn _⟩,
      .inl ⟨hinh ▸ hn, hn, hd, rfl⟩⟩
  · have hsub := ho _ e hd (hinh ▸ he) hk rfl
    refine ⟨⟨ha.declared, hunmet, hsettled, ?_⟩, .inr ⟨e, hinh ▸ he, he, hk, hd, hsub, rfl⟩⟩
    have heq : (⟨kind, 1, e.offset, ty⟩ : Entry) = { e with ty } := by
      rw [← hk, ← h.laid.level he]
    rw [heq]
    exact Scope.Refines.insert_override he hsub

/-- A clean field is laid out behind the others, or takes the place of an inherited one. -/
theorem Built.declareField (h : b.Built s cur fs ms) {p : Param} {ty : Ty}
    (hnf : b.nextField = cur.layout.nextFieldOffset)
    (hr : Recorded t.resolutions (b.declareField p ty).2)
    (ho : t.Overrides s.start .field p.id p.name.text) :
    ∃ cur', (b.declareField p ty).1.Built s cur'
        (fs ++ [p.name.text].filter (· ∉ s.inheritedFields)) ms ∧
      (b.declareField p ty).1.nextField = cur'.layout.nextFieldOffset ∧
      Grows t.classes b cur [p.name.text] (b.declareField p ty).1 cur' := by
  obtain ⟨ha, hnext⟩ := h.site.declareField hr
  obtain ⟨cur', hat, hinh, href, ⟨hs, hn, -, rfl⟩ | ⟨e, hs, he, hk, -, hsub, rfl⟩⟩ := h.adds ha ho
  · have hnot : p.name.text ∉ s.inheritedFields := by
      intro hm
      obtain ⟨_, _, _, -, -, -, h₀⟩ := s.laid.entry_of_mem_fields hm
      rw [hs] at h₀
      cases h₀
    refine ⟨_, ⟨hat, ?_, by simp [h.head], hinh⟩, ?_, href⟩
    · rw [hnf]
      simpa [hnot] using h.laid.addField hn ty
    · rw [hnext, if_pos hn, hnf]
      simp only [ClassLayout.nextFieldOffset, ClassLayout.fieldWords, ClassLayout.addField,
        TyOf.totalWords_append, TyOf.totalWords]
      omega
  · have hmem : p.name.text ∈ s.inheritedFields := by
      obtain ⟨hm, -⟩ | ⟨-, hk'⟩ := s.laid.kind_cases hs
      · exact hm
      · rw [hk] at hk'; cases hk'
    -- A subtype has as many words, so the offsets of the other fields stay.
    have hw := ClassTable.words_eq_of_isSubtype hsub
    have hlaid := h.laid.setField he hk hw
    refine ⟨_, ⟨hat, by simpa [hmem] using hlaid, by simp [h.head], hinh⟩, ?_, href⟩
    rw [hnext, if_neg (by simp [he]), hnf, h.laid.nextFieldOffset_setField he hk hw]

/-- A clean method gets the next slot, or takes the slot of an inherited one. -/
theorem Built.declareMethod (h : b.Built s cur fs ms) {m : FunDecl} {sig : Signature}
    (hr : Recorded t.resolutions (b.declareMethod m sig).2)
    (ho : t.Overrides s.start .method m.id m.name.text) :
    ∃ cur', (b.declareMethod m sig).1.Built s cur' fs
        (ms ++ [m.name.text].filter (· ∉ s.inheritedMethods)) ∧
      Grows t.classes b cur [m.name.text] (b.declareMethod m sig).1 cur' ∧
      ∃ e, t.resolutions.declaration? m.id = some e ∧ cur'.members[m.name.text]? = some e ∧
        e.kind = .method ∧ e.ty = sig.ty := by
  obtain ⟨cur', hat, hinh, href, ⟨hs, hn, hd, rfl⟩ | ⟨e, hs, he, hk, hd, hsub, rfl⟩⟩ :=
    h.adds (h.site.declareMethod hr) ho
  · have hnot : m.name.text ∉ s.inheritedMethods := by
      intro hm
      obtain ⟨_, _, -, -, h₀⟩ := s.laid.entry_of_mem_methods hm
      rw [hs] at h₀
      cases h₀
    have hlaid := h.laid.addMethod hn sig
    exact ⟨_, ⟨hat, by simpa [hnot] using hlaid, by simp [h.head], hinh⟩, href, _, hd, by simp, rfl, rfl⟩
  · have hmem : m.name.text ∈ s.inheritedMethods := by
      obtain ⟨-, hk'⟩ | ⟨hm, -⟩ := s.laid.kind_cases hs
      · rw [hk] at hk'; cases hk'
      · exact hm
    have hlaid := h.laid.setMethod he hk sig
    exact ⟨_, ⟨hat, by simpa [hmem] using hlaid, by simp [h.head], hinh⟩, href, _, hd, by simp, rfl, rfl⟩

/-- The clean fields of a class, one after the other. -/
theorem Built.declareFields (ht : t.classes.Lineal) (ps : List Param) :
    ∀ {b : ClassBody} {cur : Class} {fs : List String}, b.Built s cur fs ms →
      b.nextField = cur.layout.nextFieldOffset → Recorded t.resolutions (b.declareFields ps).2 →
      (∀ p ∈ ps, t.Overrides s.start .field p.id p.name.text) →
      ∃ cur', (b.declareFields ps).1.Built s cur'
          (fs ++ (ps.map (·.name.text)).filter (· ∉ s.inheritedFields)) ms ∧
        Grows t.classes b cur (ps.map (·.name.text)) (b.declareFields ps).1 cur' := by
  induction ps with
  | nil =>
    intro b cur fs h _ _ _
    exact ⟨cur, by simpa [ClassBody.declareFields] using h, Grows.refl _ _ _⟩
  | cons p ps ih =>
    intro b cur fs h hnf hr ho
    simp only [ClassBody.declareFields, recorded_append] at hr ⊢
    obtain ⟨hop, hops⟩ := List.forall_mem_cons.1 ho
    obtain ⟨mid, hmid, hnf', hgrow⟩ := h.declareField hnf hr.1.2 hop
    obtain ⟨cur', h', hgrow'⟩ := ih hmid hnf' hr.2 hops
    refine ⟨cur', ?_, hgrow.trans ht hgrow'⟩
    rwa [List.append_assoc, ← List.filter_append] at h'

/-- The clean methods of a class. Their bodies add no members, so only the heads count. -/
theorem Built.bindMethods (ht : t.classes.Lineal) (methods : List FunDecl) :
    ∀ {b : ClassBody} {cur : Class} {ms : List String}, b.Built s cur fs ms →
      Recorded t.resolutions (b.bindMethods methods).2 →
      (∀ m ∈ methods, t.Overrides s.start .method m.id m.name.text) →
      ∃ cur', (b.bindMethods methods).1.Built s cur' fs
          (ms ++ (methods.map (·.name.text)).filter (· ∉ s.inheritedMethods)) ∧
        Grows t.classes b cur (methods.map (·.name.text)) (b.bindMethods methods).1 cur' := by
  induction methods with
  | nil =>
    intro b cur ms h _ _
    exact ⟨cur, by simpa [ClassBody.bindMethods] using h, Grows.refl _ _ _⟩
  | cons m methods ih =>
    intro b cur ms h hr ho
    simp only [ClassBody.bindMethods, recorded_append] at hr ⊢
    obtain ⟨hom, homs⟩ := List.forall_mem_cons.1 ho
    obtain ⟨mid, hmid, hgrow, -⟩ := h.declareMethod hr.1.1.2 hom
    rw [hmid.site.bindMethod hr.1.2] at hr ⊢
    obtain ⟨cur', h', hgrow'⟩ := ih hmid hr.2 homs
    refine ⟨cur', ?_, hgrow.trans ht hgrow'⟩
    rwa [List.append_assoc, ← List.filter_append] at h'

/-- The environment in the body of a class fits the final tables, as the class will. -/
theorem Built.fits (h : b.Built s cur fs ms) (hs : s.around.Fits t) {final : Class}
    (hknown : s.old ++ [final] <+: t.classes.classes)
    (hr : cur.members.Refines t.classes final.members)
    (hh : final.layout.head = cur.layout.head) : b.env.Fits t := by
  have hlen : s.around.scopes.scopes.length = 1 := s.depth
  have hold : ∀ c ∈ s.old, ∀ {name : String} {e : Entry}, c.members[name]? = some e →
      e.Fits t.classes := by
    intro c hc name e he
    exact hs.member_of_mem (by rw [s.classes]; exact List.mem_append_left _ hc) he
  -- The class is not finished yet, but what it has so far is refined by what it will be.
  obtain ⟨hclass, hmember⟩ := ClassTable.fits_concat h.site.classes hknown hold h.laid hr hh
  refine ⟨by rw [h.site.scopes]; exact List.cons_ne_nil _ _, ?_, ?_, ?_, ?_⟩
  · intro i sc name e hi he
    have hd : b.env.scopes.depth = 2 := by simp [ScopeStack.depth, h.site.scopes, hlen]
    rw [hd]
    rw [h.site.scopes] at hi
    cases i with
    | zero =>
      cases hi
      rw [h.laid.level he]
    | succ i =>
      have := hs.level (i := i) (by simpa using hi) he
      simp only [ScopeStack.depth, hlen] at this
      omega
  · intro sc name e hmem he
    rw [h.site.scopes] at hmem
    rcases List.mem_cons.1 hmem with rfl | hmem
    · exact h.laid.fits he
    · exact hs.entry hmem he
  · exact fun hc => hclass hc
  · exact fun hc he => hmember hc he

end ClassBody

end ObjLet
