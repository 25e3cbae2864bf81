import ObjLet.Proofs.Typing.Value

/-!
# Objects and their methods

What the class of an object gives its methods. The names of fields and methods that the meaning of a
program uses are those of the layout (`LineageFits.laid`), a descendant refines the members of its ancestors
(`LineageFits.refines_of_descends`), every method entry of a class stands for a method that the object has
(`LineageFits.findMethod?`), and the frame of an object fits the scope in which that method was bound
(`ObjectFits.scope`).
-/

namespace ObjLet

variable {t : Tables}

/-- A method of a clean class: it is clean in an environment inside the class, where it sees the fields,
the inherited methods and the methods up to itself. -/
structure ClassDecl.HasMethod (t : Tables) (c : ClassDecl) (s : ClassSite) (final : Class)
    (m : FunDecl) (Γ : Env) (sig : Signature) (members : Scope) : Prop where
  checked : m.Checked t Γ sig
  scopes : Γ.scopes.scopes = members :: s.around.scopes.scopes
  entry : ∃ e, final.members[m.name.text]? = some e ∧ e.kind = .method ∧ e.ty = sig.ty
  refines : members.Refines t.classes final.members
  visible : ∀ n : String, members[n]?.isSome ↔
    n ∈ s.inheritedFields ++ (c.fields.map (·.name.text)).filter (· ∉ s.inheritedFields) ∨
    n ∈ s.inheritedMethods ∨
    n ∈ (c.methods.map (·.name.text)).takeWhile (· ≠ m.name.text) ++ [m.name.text]

theorem mem_append_filter {α : Type} [DecidableEq α] {as bs : List α} {a : α} :
    a ∈ as ++ bs.filter (· ∉ as) ↔ a ∈ as ∨ a ∈ bs := by
  by_cases h : a ∈ as <;> simp [h]

/-- The first method of its name in a clean class was bound where the methods in front of it and itself were
members. -/
theorem ClassDecl.Checked.method (ht : t.classes.Lineal) {c : ClassDecl} {env env' : Env}
    {s : ClassSite} {final : Class} (h : c.Checked t env env' s final) {name : String} {m : FunDecl}
    (hfind : c.methods.find? (·.name.text = name) = some m) :
    m.name.text = name ∧ ∃ Γ sig members, c.HasMethod t s final m Γ sig members := by
  obtain ⟨hname, pre, post, heq, hpre⟩ := List.find?_eq_some_iff_append.1 hfind
  have hname : m.name.text = name := by simpa using hname
  subst hname
  have hpre : ∀ a ∈ pre, a.name.text ≠ m.name.text := fun a ha => by simpa using hpre a ha
  refine ⟨rfl, ?_⟩
  obtain ⟨b, cur, hm, -, -⟩ := h.members
  rw [heq] at hm
  obtain ⟨b₁, cur₁, hm₁, -⟩ := hm.split ht pre
  obtain ⟨b₂, cur₂, hm₂, hgrow₂, hchecked, e, -, he, hk, hty⟩ := hm₁.cons ht
  obtain ⟨hgrow, -⟩ := hm₂.grows ht
  -- The entry is not touched by the methods that follow.
  have hlast : m.name.text ∉ post.map (·.name.text) := by
    intro hmem
    refine hgrow.unmet _ hmem ?_
    rw [hgrow₂.declared]
    simp
  refine ⟨b₂.env, _, cur₂.members, hchecked, hm₂.built.site.scopes,
    ⟨e, by rw [hgrow.settled _ hlast, he], hk, hty⟩, hgrow.refines, fun n => ?_⟩
  have htake : (c.methods.map (·.name.text)).takeWhile (· ≠ m.name.text) = pre.map (·.name.text) := by
    rw [heq, List.map_append, List.takeWhile_append_of_pos (by simpa using hpre)]
    simp
  have hlaid := hm₂.built.laid
  rw [htake]
  constructor
  · intro hn
    obtain ⟨e', he'⟩ := Option.isSome_iff_exists.1 hn
    refine (hlaid.mem he').imp_right fun hmem => ?_
    rwa [List.append_assoc, ← List.filter_append, mem_append_filter] at hmem
  · intro hn
    rcases hn with hn | hn
    · obtain ⟨_, _, _, -, -, -, he'⟩ := hlaid.entry_of_mem_fields hn
      rw [he']
      rfl
    · rw [← mem_append_filter, List.filter_append, ← List.append_assoc] at hn
      obtain ⟨_, _, -, -, he'⟩ := hlaid.entry_of_mem_methods hn
      rw [he']
      rfl

/-- A method that a class does not declare itself is that of its superclass. -/
theorem ClassDecl.Checked.inherited (ht : t.classes.Lineal) {c : ClassDecl} {env env' : Env}
    {s : ClassSite} {final : Class} (h : c.Checked t env env' s final) {name : String} {e : Entry}
    (he : final.members[name]? = some e) (hk : e.kind = .method)
    (hno : c.methods.find? (·.name.text = name) = none) : s.start.members[name]? = some e := by
  have hlaid := h.laid ht
  obtain ⟨b, cur, hm, hdecl, -⟩ := h.members
  obtain ⟨hgrow, hbuilt⟩ := hm.grows ht
  -- A member that was not declared in the body is as it was at the start.
  rw [← hbuilt.inherited name, he]
  rw [hgrow.declared, hdecl, List.mem_append, List.mem_reverse, List.mem_reverse, not_or]
  constructor
  · intro hmem
    obtain ⟨m, hm, rfl⟩ := List.mem_map.1 hmem
    simpa using List.find?_eq_none.1 hno m hm
  · intro hmem
    obtain ⟨_, _, _, -, -, -, he'⟩ := hlaid.entry_of_mem_fields (mem_append_filter.2 (.inr hmem))
    rw [he] at he'
    cases he'
    cases hk

namespace ClassValue

theorem LineageFits.class? {lineage : List ClassValue} {c : ClassId}
    (h : LineageFits t lineage c) : ∃ cls, t.classes.class? c = some cls := by
  cases h with
  | root hc _ _ => exact ⟨_, hc.class?⟩
  | sub hc _ _ _ => exact ⟨_, hc.class?⟩

/-- What the superclass of a class is and what it hands down. -/
theorem LineageFits.parent (ht : t.classes.Lineal) {c : ClassDecl} {p : ClassId} {Γ Γ' : Env}
    {s : ClassSite} {final : Class} (hc : c.Checked t Γ Γ' s final)
    (hs : final.layout.superclass = some p) :
    ∃ parent, t.classes.class? p = some parent ∧
      parent.Laid s.inheritedFields s.inheritedMethods ∧ s.start.members = parent.members ∧
      parent.members.Refines t.classes final.members := by
  obtain ⟨b, cur, hm, -, href⟩ := hc.members
  have hsuper := hc.super
  generalize c.superclass = sup at hsuper
  cases sup with
  | none =>
    obtain ⟨hstart, -, -⟩ := hsuper
    rw [(ClassLayout.head_eq_iff.1 (hc.head ht)).2.2.1, hstart] at hs
    cases hs
  | some sup =>
    obtain ⟨q, parent, hq, hparent, hlaid, hstart⟩ := hsuper.exists_parent ht (hc.head ht)
    cases hs.symm.trans hq
    have hmembers : s.start.members = parent.members := by
      rw [hstart]
      rfl
    refine ⟨parent, hparent, hlaid, hmembers, ?_⟩
    rw [← hmembers]
    exact href.trans ht (hm.grows ht).1.refines

/-- The members of the class of a lineage have the names that the lineage gives. -/
theorem LineageFits.laid (ht : t.classes.Lineal) :
    ∀ {lineage : List ClassValue} {c : ClassId} {cls : Class}, LineageFits t lineage c →
      t.classes.class? c = some cls →
      ∃ ms, cls.Laid (fieldNames lineage) ms ∧ ∀ n, n ∈ ms ↔ n ∈ methodNames lineage
  | _, _, cls, @root _ c Γ Γ' s final hc henv hs, hcls => by
    cases hc.class?.symm.trans hcls
    have hlaid := hc.laid ht
    have hsuper := hc.super
    rw [hs] at hsuper
    cases hsuper with
    | root _ hf hm =>
      rw [hf, hm] at hlaid
      refine ⟨_, hlaid, fun n => ?_⟩
      simp [methodNames]
  | _, _, cls, @sub _ c ancestors p Γ Γ' s final hc henv hp hs, hcls => by
    cases hc.class?.symm.trans hcls
    have hlaid := hc.laid ht
    obtain ⟨parent, hparent, hlaidp, -, -⟩ := LineageFits.parent ht hc hs
    obtain ⟨ms, hms, hnames⟩ := LineageFits.laid ht hp hparent
    rw [hlaidp.fields_eq hms, hlaidp.methods_eq hms] at hlaid
    refine ⟨_, hlaid, fun n => ?_⟩
    rw [mem_append_filter, hnames, methodNames, List.mem_append]

/-- The members of an ancestor are refined by those of its descendants. -/
theorem LineageFits.refines_of_descends (ht : t.classes.Lineal) :
    ∀ {lineage : List ClassValue} {d c : ClassId} {clsD clsC : Class}, LineageFits t lineage d →
      t.classes.descends d c → t.classes.class? d = some clsD → t.classes.class? c = some clsC →
      clsC.members.Refines t.classes clsD.members := by
  intro lineage
  induction lineage with
  | nil => intro d c clsD clsC h; cases h
  | cons cv ancestors ih =>
  intro d c clsD clsC h hdc hd hc
  have hl : t.classes.layout? d = some clsD.layout := by
    rw [ClassTable.layout?, hd]
    rfl
  by_cases heq : d = c
  · subst heq
    cases hd.symm.trans hc
    exact Scope.Refines.refl _ _
  -- Not the class itself, so an ancestor of it, and therefore one of its superclass.
  have hanc : c ∈ clsD.layout.ancestors := by
    rcases List.mem_cons.1 (ht.mem_lineage_of_descends hl hdc) with h | h
    · exact absurd (h.trans (ht.id_eq hl)).symm heq
    · exact h
  cases h with
  | @root _ Γ Γ' s final hchecked _ hnone =>
    cases hd.symm.trans hchecked.class?
    have hsuper := hchecked.super
    rw [hnone] at hsuper
    have hroot : clsD.layout.superclass = none := by
      rw [(ClassLayout.head_eq_iff.1 (hchecked.head ht)).2.2.1]
      cases hsuper with
      | root hstart _ _ => rw [hstart]; rfl
    -- A class without superclass has no ancestors.
    rw [ht.root hl hroot] at hanc
    cases hanc
  | @sub _ _ p Γ Γ' s final hchecked _ hp hs =>
    cases hd.symm.trans hchecked.class?
    obtain ⟨parent, hparent, -, -, href⟩ := LineageFits.parent ht hchecked hs
    obtain ⟨-, lp, hlp, heq⟩ := ht.parent hl hs
    have hpc : t.classes.descends p c := by
      rw [heq] at hanc
      exact ClassTable.descends_iff.2 (.inr ⟨lp, hlp, hanc⟩)
    exact (ih hp hpc hparent hc).trans ht href

/-- The first class of a lineage and what it has from the others. -/
theorem LineageFits.uncons (ht : t.classes.Lineal) {cv : ClassValue} {ancestors : List ClassValue}
    {c : ClassId} (h : LineageFits t (cv :: ancestors) c) :
    ∃ Γ Γ' s final, cv.decl.Checked t Γ Γ' s final ∧ c = s.old.length ∧
      Frame.AllFit t cv.env Γ.scopes.scopes ∧ s.inheritedFields = fieldNames ancestors ∧
      (∀ n, n ∈ s.inheritedMethods ↔ n ∈ methodNames ancestors) ∧
      (s.start.members = ∅ ∨ ∃ p parent, LineageFits t ancestors p ∧
        t.classes.class? p = some parent ∧ s.start.members = parent.members ∧
        parent.members.Refines t.classes final.members) := by
  cases h with
  | @root _ Γ Γ' s final hc henv hs =>
    have hsuper := hc.super
    rw [hs] at hsuper
    cases hsuper with
    | root hstart hf hm =>
      refine ⟨Γ, Γ', s, final, hc, rfl, henv, hf, fun n => ?_, .inl ?_⟩
      · rw [hm, methodNames]
      · rw [hstart]
        rfl
  | @sub _ _ p Γ Γ' s final hc henv hp hs =>
    obtain ⟨parent, hparent, hlaid, hmembers, href⟩ := LineageFits.parent ht hc hs
    obtain ⟨ms, hms, hnames⟩ := hp.laid ht hparent
    refine ⟨Γ, Γ', s, final, hc, rfl, henv, hlaid.fields_eq hms, fun n => ?_,
      .inr ⟨p, parent, hp, hparent, hmembers, href⟩⟩
    rw [hlaid.methods_eq hms, hnames]

/-- A method of the first class of a lineage, with the scopes in which it was bound. -/
structure HasMethod (t : Tables) (cv : ClassValue) (ancestors : List ClassValue) (c : ClassId)
    (cls : Class) (m : FunDecl) (Γ : Env) (sig : Signature) (members : Scope)
    (around : List Scope) : Prop where
  lineage : LineageFits t (cv :: ancestors) c
  known : t.classes.class? c = some cls
  found : cv.decl.methods.find? (·.name.text = m.name.text) = some m
  checked : m.Checked t Γ sig
  scopes : Γ.scopes.scopes = members :: around
  around : Frame.AllFit t (Frame.bind cv.decl.name.text (.cls (cv :: ancestors)) cv.env) around
  refines : members.Refines t.classes cls.members
  visible : ∀ n : String, members[n]?.isSome ↔ n ∈ fieldNames (cv :: ancestors) ∨
    n ∈ methodNames ancestors ++
      ((cv.decl.methods.map (·.name.text)).takeWhile (· ≠ m.name.text) ++ [m.name.text])

/-- For every method entry of its class an object has a method, that of the nearest class that declares
it. -/
theorem LineageFits.findMethod? (ht : t.classes.Lineal) {name : String} {e : Entry} :
    ∀ {lineage : List ClassValue} {c : ClassId} {cls : Class}, LineageFits t lineage c →
      t.classes.class? c = some cls → cls.members[name]? = some e → e.kind = .method →
      ∃ cv ancestors m c' cls' Γ sig members around,
        ClassValue.findMethod? name lineage = some (cv :: ancestors, m) ∧ m.name.text = name ∧
        e.ty = Signature.ty sig ∧ HasMethod t cv ancestors c' cls' m Γ sig members around ∧
        cls'.members.Refines t.classes cls.members ∧
        fieldNames (cv :: ancestors) <+: fieldNames lineage := by
  intro lineage
  induction lineage with
  | nil => intro c cls h; cases h
  | cons cv ancestors ih =>
    intro c cls h hcls he hk
    obtain ⟨Γ, Γ', s, final, hc, rfl, henv, hf, hm, hstart⟩ := h.uncons ht
    cases hcls.symm.trans hc.class?
    -- Methods are found from the class upwards, so its own one hides those of its ancestors.
    cases hfind : cv.decl.methods.find? (·.name.text = name) with
    | some m =>
      obtain ⟨rfl, Γm, sig, members, hmethod⟩ := hc.method ht hfind
      obtain ⟨e', he', -, hty⟩ := hmethod.entry
      cases he.symm.trans he'
      have haround := henv.declare hc.declares (.cls rfl rfl hc.declares.entry h)
      refine ⟨cv, ancestors, m, _, cls, Γm, sig, members, _, ?_, rfl, hty,
        ⟨h, hcls, hfind, hmethod.checked, hmethod.scopes, haround, hmethod.refines, fun n => ?_⟩,
        Scope.Refines.refl _ _, List.prefix_rfl⟩
      · rw [ClassValue.findMethod?, hfind]
      · rw [hmethod.visible n, hf, hm, ← List.mem_append]
        rfl
    | none =>
      have hold := hc.inherited ht he hk hfind
      obtain hempty | ⟨p, parent, hp, hparent, hmembers, href⟩ := hstart
      · rw [hempty] at hold
        simp at hold
      rw [hmembers] at hold
      obtain ⟨cv', anc', m, c', cls', Γm, sig, members, around, hfm, hname, hty, hmethod, href', hpre⟩ :=
        ih hp hparent hold hk
      refine ⟨cv', anc', m, c', cls', Γm, sig, members, around, ?_, hname, hty, hmethod,
        href'.trans ht href, hpre.trans ?_⟩
      · rw [ClassValue.findMethod?, hfind]
        exact hfm
      · exact List.prefix_append _ _

end ClassValue

/-! ## The frame of an object -/

theorem lookup_filter_map {fields : List (String × Value)} {names : List String} {n : String} :
    ((fields.filter (·.1 ∈ names)).map fun (n, v) => (n, Binding.value v)).lookup n =
      if n ∈ names then (fields.lookup n).map Binding.value else none := by
  induction fields with
  | nil => simp
  | cons f fields ih =>
    obtain ⟨k, v⟩ := f
    by_cases hk : k ∈ names
    · rw [List.filter_cons_of_pos (by simpa using hk), List.map_cons, List.lookup_cons, List.lookup_cons,
        ih]
      by_cases heq : n = k
      · subst heq
        simp [hk]
      · simp [beq_false_of_ne heq]
    · rw [List.filter_cons_of_neg (by simpa using hk), ih, List.lookup_cons]
      by_cases heq : n = k
      · subst heq
        simp [hk]
      · simp [beq_false_of_ne heq]

/-- A name is looked up among names that all stand for the same. -/
theorem lookup_map_const {names : List String} {b : Binding} {n : String} :
    (names.map fun n => (n, b)).lookup n = if n ∈ names then some b else none := by
  induction names with
  | nil => simp
  | cons k names ih =>
    rw [List.map_cons, List.lookup_cons, ih]
    by_cases heq : n = k
    · simp [heq]
    · simp [beq_false_of_ne heq, heq]

/-- What a name stands for in a method of an object: a field or else a method. -/
theorem ClassValue.lookup?_scope {id : Nat} {self : Value} {fields : List (String × Value)}
    {name n : String} {cv : ClassValue} {ancestors : List ClassValue} :
    (ClassValue.scope id self fields name (cv :: ancestors)).lookup? n =
      (if n ∈ ClassValue.fieldNames (cv :: ancestors) then (fields.lookup n).map Binding.value
        else none).or
      (if n ∈ ClassValue.methodNames ancestors ++
          ((cv.decl.methods.map (·.name.text)).takeWhile (· ≠ name) ++ [name])
        then some (.method self) else none) := by
  rw [ClassValue.scope, Frame.lookup?, List.lookup_append, lookup_filter_map, lookup_map_const]

/-- The frame of an object, as a method sees it, fits the members in scope there. -/
theorem ClassValue.HasMethod.fits_scope (ht : t.classes.Lineal) {cv : ClassValue}
    {ancestors lineage : List ClassValue} {c d : ClassId} {clsC clsD : Class} {m : FunDecl} {Γ : Env}
    {sig : Signature} {members : Scope} {around : List Scope}
    (h : ClassValue.HasMethod t cv ancestors c clsC m Γ sig members around)
    {fields : List (String × Value)} (ho : Value.ObjectFits t lineage fields d)
    (hd : t.classes.class? d = some clsD) (href : clsC.members.Refines t.classes clsD.members)
    (hpre : ClassValue.fieldNames (cv :: ancestors) <+: ClassValue.fieldNames lineage) (id : Nat) :
    Frame.AllFit t
      (ClassValue.scope id (.object id lineage fields) fields m.name.text (cv :: ancestors) ::
        Frame.bind cv.decl.name.text (.cls (cv :: ancestors)) cv.env) Γ.scopes.scopes := by
  have ho' := ho
  cases ho with
  | @mk _ _ _ cls hl hcls hnames hv =>
  cases hd.symm.trans hcls
  obtain ⟨ms, hlaid, -⟩ := h.lineage.laid ht h.known
  -- The object has all fields of its class, which begin with those of the class of the method.
  have hfield : ∀ {n : String}, n ∈ ClassValue.fieldNames (cv :: ancestors) →
      ∃ v, fields.lookup n = some v := by
    intro n hn
    have hmem : n ∈ fields.map Prod.fst := by
      rw [hnames]
      exact hpre.subset hn
    obtain ⟨p, hp, rfl⟩ := List.mem_map.1 hmem
    exact Option.isSome_iff_exists.1 (List.lookup_isSome_iff.2 ⟨p, hp, beq_self_eq_true p.1⟩)
  rw [h.scopes]
  refine .cons (fun n => ?_) (fun n e b he hb => ?_) h.around
  · rw [ClassValue.lookup?_scope, Bool.eq_iff_iff, h.visible n]
    by_cases hn : n ∈ ClassValue.fieldNames (cv :: ancestors)
    · obtain ⟨v, hv⟩ := hfield hn
      simp [hn, hv]
    · rw [if_neg hn, Option.none_or]
      split
      · next hvis => simpa [hn] using hvis
      · next hvis => simpa [hn] using hvis
  · -- The entry in the scope is refined twice: by the finished class of the method, and by the class of the
    -- object.
    obtain ⟨e', he', hk', -, hoff', hs'⟩ := h.refines n e he
    obtain ⟨e'', he'', hk'', -, hoff'', hs''⟩ := href n e' he'
    have hsub := ClassTable.isSubtype_trans ht hs'' hs'
    rw [ClassValue.lookup?_scope] at hb
    by_cases hn : n ∈ ClassValue.fieldNames (cv :: ancestors)
    · obtain ⟨v, hvn⟩ := hfield hn
      rw [if_pos hn, hvn] at hb
      cases hb
      obtain ⟨_, _, _, -, -, -, hentry⟩ := hlaid.entry_of_mem_fields hn
      cases he'.symm.trans hentry
      have hkind : e.kind = .field := hk'.symm
      exact .value (by rw [hkind]; rfl) ((hv n e'' v he'' hk'' hvn).sub ht hsub)
    · rw [if_neg hn, Option.none_or] at hb
      split at hb
      swap
      · cases hb
      cases hb
      obtain ⟨hmem, -⟩ | ⟨-, hkind⟩ := hlaid.kind_cases he'
      · exact absurd hmem hn
      exact .method (hk'.symm.trans hkind) ho' hd he'' (hk''.trans hkind) (hoff''.trans hoff') hsub

end ObjLet
