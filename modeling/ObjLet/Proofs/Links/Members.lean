import ObjLet.Proofs.Class.Slots
import ObjLet.Proofs.Links.Ledger

/-!
# Methods and fields of objects

What an object has in memory for its methods. A dispatch table has the code of the nearest method in every slot
(`Loaded.Heritage.findMethod?`), and the frame of an object lies where its fields are, as the scope of that method
counts on it (`Loaded.Rep.lies_scope`). Slots and offsets are those of the class that declares the method;
descendants keep them.
-/

namespace ObjLet

open Code

/-- A slot of a dispatch table has the code of the method that is recorded with it, or else what was there before. -/
theorem FunDecl.CodedAll.slot {t : Tables} {mem : Int} {At : Label → Listing → Prop}
    {dispatch : ClassId → Option (List Label)} (i : Nat) {methods : List FunDecl} :
    ∀ {table table' : List Label}, FunDecl.CodedAll t mem At dispatch table methods table' →
      (∃ m ∈ methods, ∃ l code, t.slot? m = some (i : Int) ∧ table'[i]? = some l ∧ At l code ∧
        m.Coded t mem At dispatch code) ∨
      ((∀ m ∈ methods, t.slot? m ≠ some (i : Int)) ∧ table'[i]? = table[i]?) := by
  induction methods with
  | nil =>
    intro table table' h
    cases h
    exact .inr ⟨nofun, rfl⟩
  | cons m methods ih =>
    intro table table' h
    cases h with
    | @cons _ table₁ _ _ _ e entry code he hat hm hplace hrest =>
    have hslot : t.slot? m = some e.offset := by rw [Tables.slot?, he]; rfl
    obtain ⟨k, hk, hput, hsame⟩ := placeMethod?_eq_some hplace
    obtain ⟨m', hmem, l, code', hm', hl, hat', hcode'⟩ | ⟨hno, hkeep⟩ := ih hrest
    · exact .inl ⟨m', List.mem_cons_of_mem m hmem, l, code', hm', hl, hat', hcode'⟩
    by_cases hik : i = k
    · subst hik
      exact .inl ⟨m, List.mem_cons_self, entry, code, hk ▸ hslot, hkeep.trans hput, hat, hm⟩
    · refine .inr ⟨List.forall_mem_cons.2 ⟨fun heq => hik ?_, hno⟩, hkeep.trans (hsame i hik)⟩
      exact Int.natCast_inj.1 ((Option.some.inj (heq.symm.trans hslot)).trans hk)

namespace ClassDecl.Checked

variable {t : Tables} {Γ Γ' : Env} {c : ClassDecl} {s : ClassSite} {final : Class}

/-- A method is recorded with the slot of its entry. -/
theorem slot?_eq (ht : t.classes.Lineal) (h : c.Checked t Γ Γ' s final) {m : FunDecl} (hm : m ∈ c.methods) :
    ∃ (i : Nat) (e : Entry), t.slot? m = some (i : Int) ∧ final.members[m.name.text]? = some e ∧ e.kind = .method ∧
      e.offset = i := by
  obtain ⟨b, cur, hbody, -, -⟩ := h.members
  obtain ⟨i, hi, hname⟩ := hbody.slot_eq ht c.methods m hm
  obtain ⟨sig, -, he⟩ := (h.laid ht).method hname
  exact ⟨i, _, hi, he, rfl, rfl⟩

/-- Entries of methods with one slot are entries of one name. -/
theorem name_eq_of_offset (ht : t.classes.Lineal) (h : c.Checked t Γ Γ' s final) {name name' : String} {e e' : Entry}
    (he : final.members[name]? = some e) (he' : final.members[name']? = some e') (hk : e.kind = .method)
    (hk' : e'.kind = .method) (ho : e.offset = e'.offset) : name = name' := by
  have hlaid := h.laid ht
  obtain ⟨-, hf⟩ | ⟨hmem, -⟩ := hlaid.kind_cases he
  · cases hk.symm.trans hf
  obtain ⟨-, hf⟩ | ⟨hmem', -⟩ := hlaid.kind_cases he'
  · cases hk'.symm.trans hf
  obtain ⟨i, sig, hi, -, hentry⟩ := hlaid.entry_of_mem_methods hmem
  obtain ⟨i', sig', hi', -, hentry'⟩ := hlaid.entry_of_mem_methods hmem'
  cases he.symm.trans hentry
  cases he'.symm.trans hentry'
  cases Int.natCast_inj.1 ho
  exact Option.some.inj (hi.symm.trans hi')

end ClassDecl.Checked

/-- A lineage is that of one class. -/
theorem ClassValue.LineageFits.unique {t : Tables} {lineage : List ClassValue} {c d : ClassId}
    (hc : LineageFits t lineage c) (hd : LineageFits t lineage d) : c = d := by
  have hdeclared : ∀ {c : ClassId}, LineageFits t lineage c → ∃ cv rest e, lineage = cv :: rest ∧
      t.resolutions.declaration? cv.decl.id = some e ∧ e.ty = .cls c := by
    intro c h
    cases h with
    | root hchecked _ _ | sub hchecked _ _ _ => exact ⟨_, _, _, rfl, hchecked.declares.entry, rfl⟩
  obtain ⟨cv, rest, e, rfl, he, hty⟩ := hdeclared hc
  obtain ⟨_, _, e', heq, he', hty'⟩ := hdeclared hd
  cases heq
  cases he.symm.trans he'
  cases hty.symm.trans hty'
  rfl

namespace Loaded

variable {L : Loaded} {W : Ledger} {lineage : List ClassValue} {c : ClassId}

/-- The first class of a heritage and what it has from the others. -/
theorem Heritage.fits (h : L.Heritage W lineage (some c)) : ClassValue.LineageFits L.tables lineage c := by
  induction lineage generalizing c with
  | nil => cases h
  | cons cv ancestors ih =>
    cases h with
    | @cons decl _ _ Γ Γ' s final _ _ hc _ hfit _ _ _ hup =>
    cases hsup : final.layout.superclass with
    | some p =>
      rw [hsup] at hup
      exact .sub hc hfit (ih hup) hsup
    | none =>
      rw [hsup] at hup
      cases hup
      refine .root hc hfit ?_
      cases hs : decl.superclass with
      | none => rfl
      | some sup =>
        have hext := hc.super
        rw [hs] at hext
        obtain ⟨p, -, hp, -⟩ := hext.exists_parent L.lineal (hc.head L.lineal)
        cases hsup.symm.trans hp

/-- The label of a method is in its slot of the dispatch table of a class. -/
def InSlot (L : Loaded) (c : ClassId) (slot : Int) (l : Label) : Prop :=
  ∃ table, L.dispatch c = some table ∧ ∃ i : Nat, slot = i ∧ table[i]? = some l

/-- The code of an own method is in its slot. -/
theorem inSlot_own {decl : ClassDecl} {Γ Γ' : Env} {s : ClassSite} {final : Class} {code : Listing}
    (hc : decl.Checked L.tables Γ Γ' s final)
    (hcode : (Decl.cls decl).Coded L.tables L.target.memory L.At L.dispatch code) {m : FunDecl} {e : Entry}
    (hm : m ∈ decl.methods) (he : final.members[m.name.text]? = some e) :
    ∃ l code, L.InSlot s.old.length e.offset l ∧ L.At l code ∧
      m.Coded L.tables L.target.memory L.At L.dispatch code := by
  obtain ⟨i, e', hi, he', -, ho⟩ := hc.slot?_eq L.lineal hm
  cases he.symm.trans he'
  cases hcode with
  | @cls _ e'' id inherited table hentry hid _ hall hd =>
  cases hc.declares.entry.symm.trans hentry
  cases hid
  obtain ⟨m', hmem, l, code, hm', hl, hat, hcoded⟩ | ⟨hno, -⟩ := hall.slot i
  · have hsame := hc.methodAt?_eq_some L.lineal hm hi
    rw [hc.methodAt?_eq_some L.lineal hmem hm', Option.some.injEq] at hsame
    subst hsame
    exact ⟨l, code, ⟨table, hd, i, ho, hl⟩, hat, hcoded⟩
  · exact absurd hi (hno m hm)

/-- A method that a class does not declare is in the slot that it has in the superclass. -/
theorem inSlot_inherited {decl : ClassDecl} {Γ Γ' : Env} {s : ClassSite} {final : Class} {code : Listing}
    (hc : decl.Checked L.tables Γ Γ' s final)
    (hcode : (Decl.cls decl).Coded L.tables L.target.memory L.At L.dispatch code) {name : String} {e : Entry}
    {l : Label}
    (he : final.members[name]? = some e) (hk : e.kind = .method)
    (hno : decl.methods.find? (·.name.text = name) = none) {p : ClassId}
    (hsup : final.layout.superclass = some p) (hl : L.InSlot p e.offset l) : L.InSlot s.old.length e.offset l := by
  obtain ⟨inherited', hp, i, ho, hli⟩ := hl
  cases hcode with
  | @cls _ e'' id inherited table hentry hid hi hall hd =>
  cases hc.declares.entry.symm.trans hentry
  cases hid
  have hlayout : L.tables.classes.layout? s.old.length = some final.layout :=
    Option.map_eq_some_iff.2 ⟨final, hc.class?, rfl⟩
  rw [Tables.inheritedTable?, hlayout, Option.bind_some, hsup] at hi
  cases hi.symm.trans hp
  obtain ⟨m, hmem, -, -, hm, -⟩ | ⟨-, hkeep⟩ := hall.slot i
  · obtain ⟨j, e', hj, he', hk', ho'⟩ := hc.slot?_eq L.lineal hmem
    cases hm.symm.trans hj
    have hname := hc.name_eq_of_offset L.lineal he he' hk hk' (ho.trans ho'.symm)
    have hnot := List.find?_eq_none.1 hno m hmem
    simp [hname] at hnot
  · exact ⟨table, hd, i, ho, hkeep.trans hli⟩

/-- What a class has from its ancestors. -/
theorem Heritage.inherited {decl : ClassDecl} {Γ Γ' : Env} {s : ClassSite} {final : Class} {ancestors : List ClassValue}
    (hc : decl.Checked L.tables Γ Γ' s final) (hup : L.Heritage W ancestors final.layout.superclass) :
    s.inheritedFields = ClassValue.fieldNames ancestors ∧
      ∀ n, n ∈ s.inheritedMethods ↔ n ∈ ClassValue.methodNames ancestors := by
  cases hsup : final.layout.superclass with
  | some p =>
    rw [hsup] at hup
    obtain ⟨parent, hparent, hlaid, -, -⟩ := ClassValue.LineageFits.parent L.lineal hc hsup
    obtain ⟨ms, hms, hnames⟩ := hup.fits.laid L.lineal hparent
    refine ⟨hlaid.fields_eq hms, fun n => ?_⟩
    rw [hlaid.methods_eq hms, hnames]
  | none =>
    rw [hsup] at hup
    cases hup
    have hext := hc.super
    cases hs : decl.superclass with
    | none =>
      rw [hs] at hext
      obtain ⟨-, hf, hm⟩ := hext
      exact ⟨hf, fun n => by rw [hm, ClassValue.methodNames]⟩
    | some sup =>
      rw [hs] at hext
      obtain ⟨p, -, hp, -⟩ := hext.exists_parent L.lineal (hc.head L.lineal)
      cases hsup.symm.trans hp

/-- A method that an object has, with its code in place and the frames around its class. -/
structure Inherits (L : Loaded) (W : Ledger) (c : ClassId) (cls : Class) (e : Entry) (cv : ClassValue)
    (ancestors : List ClassValue) (m : FunDecl) (Γ : Env) (sig : Signature) (a : Nat) : Prop where
  ty : e.ty = sig.ty
  routine : L.Routine m Γ sig a
  slot : ∃ l, L.InSlot c e.offset l ∧ L.listing.unit.address? l = some a
  scopes : ∃ c' cls' members around, Γ.scopes.scopes = members :: around ∧
    ClassValue.HasMethod L.tables cv ancestors c' cls' m Γ sig members around ∧
    cls'.members.Refines L.tables.classes cls.members ∧
    L.Lies W (Frame.bind cv.decl.name.text (.cls (cv :: ancestors)) cv.env) around
  places : ∃ bindings, cv.env = [⟨.activation 0, bindings⟩]

/-- For every method entry of its class an object has a method, that of the nearest class that declares it; and its
code is in the slot of the entry. -/
theorem Heritage.findMethod? {name : String} {e : Entry} :
    ∀ {lineage : List ClassValue} {c : ClassId} {cls : Class}, L.Heritage W lineage (some c) →
      L.tables.classes.class? c = some cls → cls.members[name]? = some e → e.kind = .method →
      ∃ cv ancestors m Γ sig a, ClassValue.findMethod? name lineage = some (cv :: ancestors, m) ∧ m.name.text = name ∧
        ClassValue.fieldNames (cv :: ancestors) <+: ClassValue.fieldNames lineage ∧
        L.Inherits W c cls e cv ancestors m Γ sig a := by
  intro lineage
  induction lineage with
  | nil => intro c cls h; cases h
  | cons cv ancestors ih =>
    intro c cls h hcls he hk
    have hfits := h.fits
    have h' := h
    cases h with
    | @cons decl bindings _ Γ Γ' s final code d hc hcode hfit hlies hd ht hup =>
    cases hcls.symm.trans hc.class?
    -- The method is declared by this class, or it is inherited together with its slot.
    cases hfind : decl.methods.find? (·.name.text = name) with
    | some m =>
      obtain ⟨rfl, Γm, sig, members, hmethod⟩ := hc.method L.lineal hfind
      obtain ⟨e', he', -, hty⟩ := hmethod.entry
      cases he.symm.trans he'
      obtain ⟨hf, hm⟩ := Heritage.inherited hc hup
      obtain ⟨l, mcode, hslot, hat, hcoded⟩ := inSlot_own hc hcode (List.mem_of_find?_eq_some hfind) he
      obtain ⟨a, ha, hsits⟩ := L.placed hat
      have hbinds : L.Binds W (.activation 0) (.cls (⟨decl, [⟨.activation 0, bindings⟩]⟩ :: ancestors))
          ⟨.cls, Γ.level, Γ.nextLocal, .cls s.old.length⟩ := .cls h' rfl hd ht
      have haround := hfit.declare hc.declares (.cls rfl rfl hc.declares.entry hfits)
      refine ⟨_, ancestors, m, Γm, sig, a, by rw [ClassValue.findMethod?, hfind], rfl, List.prefix_rfl, hty,
        ⟨hmethod.checked, mcode, hcoded, hsits⟩, ⟨l, hslot, ha⟩, ⟨s.old.length, cls, members, _, hmethod.scopes, ?_,
        .refl _ _, hlies.declare hc.declares hbinds⟩, bindings, rfl⟩
      refine ⟨hfits, hcls, hfind, hmethod.checked, hmethod.scopes, haround, hmethod.refines, fun n => ?_⟩
      rw [hmethod.visible n, hf, hm, ← List.mem_append]
      rfl
    | none =>
      have hold := hc.inherited L.lineal he hk hfind
      cases hsup : cls.layout.superclass with
      | none =>
        rw [hsup] at hup
        cases hup
        obtain ⟨_, _, _, _, _, _, _, _, _, hfm, -⟩ := hfits.findMethod? L.lineal hcls he hk
        simp [ClassValue.findMethod?, hfind] at hfm
      | some p =>
      rw [hsup] at hup
      obtain ⟨parent, hparent, -, hmembers, href⟩ := ClassValue.LineageFits.parent L.lineal hc hsup
      rw [hmembers] at hold
      obtain ⟨cv', ancestors', m, Γm, sig, a, hfm, hname, hpre, hi⟩ := ih hup hparent hold hk
      obtain ⟨l, hslot, ha⟩ := hi.slot
      obtain ⟨c', cls', members, around, hscopes, hmethod, href', hframes⟩ := hi.scopes
      refine ⟨cv', ancestors', m, Γm, sig, a, ?_, hname, hpre.trans (List.prefix_append _ _), hi.ty, hi.routine,
        ⟨l, inSlot_inherited hc hcode he hk hfind hsup hslot, ha⟩,
        ⟨c', cls', members, around, hscopes, hmethod, href'.trans L.lineal href, hframes⟩, hi.places⟩
      rw [ClassValue.findMethod?, hfind]
      exact hfm

/-! ## The frame of an object -/

/-- What a name stands for lies where its offset says. -/
theorem Binds.of_offset {id : Nat} {b : Binding} {e e' : Entry} (h : L.Binds W (.object id) b e)
    (ho : e'.offset = e.offset) : L.Binds W (.object id) b e' := by
  cases h with
  | value hv hw => exact .value hv (by rwa [ho])
  | method hv => exact .method hv

/-- The frame of an object lies where its fields are. -/
theorem Inherits.lies_scope {id : Nat} {fields : List (String × Value)} {cls : Class} {e : Entry} {cv : ClassValue}
    {ancestors : List ClassValue} {m : FunDecl} {Γ : Env} {sig : Signature} {a : Nat}
    (h : L.Inherits W c cls e cv ancestors m Γ sig a) {base : Int}
    (hself : L.Rep W (.object id lineage fields) [base]) (hb : W.base (.object id) = some base)
    (hf : ∀ (name : String) (e : Entry) (v : Value), cls.members[name]? = some e → e.kind = .field →
      fields.lookup name = some v → L.Binds W (.object id) (.value v) e) :
    L.Lies W (ClassValue.scope id (.object id lineage fields) fields m.name.text (cv :: ancestors) ::
      Frame.bind cv.decl.name.text (.cls (cv :: ancestors)) cv.env) Γ.scopes.scopes := by
  obtain ⟨c', cls', members, around, hscopes, hmethod, href, hframes⟩ := h.scopes
  obtain ⟨ms, hlaid, -⟩ := hmethod.lineage.laid L.lineal hmethod.known
  rw [hscopes]
  refine .cons hb (fun n e₀ b he hl => ?_) (fun n hn => ?_) hframes
  · -- Refinement keeps offsets, so what the method sees is where the object has it.
    obtain ⟨e₁, he₁, hk₁, -, ho₁, -⟩ := hmethod.refines n e₀ he
    obtain ⟨e₂, he₂, hk₂, -, ho₂, -⟩ := href n e₁ he₁
    rw [ClassValue.lookup?_scope, Option.or_eq_some_iff] at hl
    obtain hfield | ⟨-, hl⟩ := hl
    · split at hfield
      · next hn =>
        obtain ⟨v, hv, rfl⟩ := Option.map_eq_some_iff.1 hfield
        obtain ⟨_, _, _, -, -, -, hentry⟩ := hlaid.entry_of_mem_fields hn
        cases he₁.symm.trans hentry
        exact (hf n e₂ v he₂ hk₂ hv).of_offset (ho₁.symm.trans ho₂.symm)
      · cases hfield
    · split at hl
      · cases hl
        exact .method hself
      · cases hl
  · cases hn

end Loaded

end ObjLet
