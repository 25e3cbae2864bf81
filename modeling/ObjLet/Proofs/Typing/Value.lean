import ObjLet.Proofs.Meaning.Eval
import ObjLet.Proofs.Typing.Declared

/-!
# Types of values

`Value.HasType` says that a value has a type under the tables of a program. A function value is a clean
function whose frames fit the scopes around its declaration, an object a record of fields of the types of
its class, with the classes that its methods come from; so frames, bindings, objects and classes are
typed together with values. Every rule allows for subtyping, and so a value is typed by one rule only.
-/

namespace ObjLet

mutual

inductive Value.HasType (t : Tables) : Value → Ty → Prop where
  | int {n : Int} {ty : Ty} (hs : t.classes.isSubtype .int ty) : Value.HasType t (.int n) ty
  | bool {b : Bool} {ty : Ty} (hs : t.classes.isSubtype .bool ty) : Value.HasType t (.bool b) ty
  | null {ty : Ty} (hs : t.classes.isSubtype .null ty) : Value.HasType t .null ty
  | object {id : Nat} {lineage : List ClassValue} {fields : List (String × Value)} {c : ClassId}
    {ty : Ty} (ho : Value.ObjectFits t lineage fields c) (hs : t.classes.isSubtype (.ref c) ty) :
    Value.HasType t (.object id lineage fields) ty
  | closure {f : FunDecl} {env : List Frame} {Γ Γ' : Env} {sig : Signature} {ty : Ty}
    (hd : Γ.Declares t.resolutions Γ' f.id f.name.text .func sig.ty) (hf : f.Checked t Γ' sig)
    (henv : Frame.AllFit t env Γ.scopes.scopes) (hs : t.classes.isSubtype sig.ty ty) :
    Value.HasType t (.closure f env) ty

/-- The fields of an object of a class. -/
inductive Value.ObjectFits (t : Tables) : List ClassValue → List (String × Value) → ClassId → Prop where
  | mk {lineage : List ClassValue} {fields : List (String × Value)} {c : ClassId} {cls : Class}
    (hl : ClassValue.LineageFits t lineage c) (hc : t.classes.class? c = some cls)
    (hn : fields.map Prod.fst = ClassValue.fieldNames lineage)
    (hv : ∀ (name : String) (e : Entry) (v : Value), cls.members[name]? = some e →
      e.kind = .field → fields.lookup name = some v → Value.HasType t v e.ty) :
    Value.ObjectFits t lineage fields c

/-- A class and its ancestors, each with the frames around its declaration. -/
inductive ClassValue.LineageFits (t : Tables) : List ClassValue → ClassId → Prop where
  | root {c : ClassValue} {Γ Γ' : Env} {s : ClassSite} {final : Class}
    (hc : c.decl.Checked t Γ Γ' s final) (henv : Frame.AllFit t c.env Γ.scopes.scopes)
    (hs : c.decl.superclass = none) : ClassValue.LineageFits t [c] s.old.length
  | sub {c : ClassValue} {ancestors : List ClassValue} {p : ClassId} {Γ Γ' : Env} {s : ClassSite}
    {final : Class} (hc : c.decl.Checked t Γ Γ' s final)
    (henv : Frame.AllFit t c.env Γ.scopes.scopes) (hp : ClassValue.LineageFits t ancestors p)
    (hs : final.layout.superclass = some p) : ClassValue.LineageFits t (c :: ancestors) s.old.length

/-- What a name of an entry stands for. -/
inductive Binding.Fits (t : Tables) : String → Binding → Entry → Prop where
  | value {name : String} {v : Value} {e : Entry} (hk : e.kind.isValue = true)
    (hv : Value.HasType t v e.ty) : Binding.Fits t name (.value v) e
  | method {name : String} {e e' : Entry} {id : Nat} {lineage : List ClassValue}
    {fields : List (String × Value)} {c : ClassId} {cls : Class} (hk : e.kind = .method)
    (ho : Value.ObjectFits t lineage fields c) (hc : t.classes.class? c = some cls)
    (he : cls.members[name]? = some e') (hk' : e'.kind = .method) (hoff : e'.offset = e.offset)
    (hs : t.classes.isSubtype e'.ty e.ty) : Binding.Fits t name (.method (.object id lineage fields)) e
  | cls {name : String} {e : Entry} {cv : ClassValue} {ancestors : List ClassValue} {c : ClassId}
    (hk : e.kind = .cls) (hty : e.ty = .cls c) (hd : t.resolutions.declaration? cv.decl.id = some e)
    (hl : ClassValue.LineageFits t (cv :: ancestors) c) : Binding.Fits t name (.cls (cv :: ancestors)) e

/-- Frames have the names of the scopes, and their bindings fit the entries. -/
inductive Frame.AllFit (t : Tables) : List Frame → List Scope → Prop where
  | nil : Frame.AllFit t [] []
  | cons {f : Frame} {s : Scope} {env : List Frame} {scopes : List Scope}
    (hn : ∀ name : String, (f.lookup? name).isSome = s[name]?.isSome)
    (hb : ∀ (name : String) (e : Entry) (b : Binding), s[name]? = some e →
      f.lookup? name = some b → Binding.Fits t name b e)
    (h : Frame.AllFit t env scopes) : Frame.AllFit t (f :: env) (s :: scopes)

end

variable {t : Tables}

namespace Value

/-- A value of a type is one of any type above. -/
theorem HasType.sub (ht : t.classes.Lineal) {v : Value} {a b : Ty} (h : v.HasType t a)
    (hab : t.classes.isSubtype a b) : v.HasType t b := by
  cases h with
  | int hs => exact .int (ClassTable.isSubtype_trans ht hs hab)
  | bool hs => exact .bool (ClassTable.isSubtype_trans ht hs hab)
  | null hs => exact .null (ClassTable.isSubtype_trans ht hs hab)
  | object ho hs => exact .object ho (ClassTable.isSubtype_trans ht hs hab)
  | closure hd hf henv hs => exact .closure hd hf henv (ClassTable.isSubtype_trans ht hs hab)

/-! ### Values by their types -/

/-- What has the type of numbers counts as a number; Booleans do. -/
theorem HasType.int? {v : Value} (h : v.HasType t .int) : ∃ n, v.int? = some n := by
  cases h with
  | int hs => exact ⟨_, rfl⟩
  | bool hs => exact ⟨_, rfl⟩
  | null hs | object _ hs | closure _ _ _ hs =>
    simp [ClassTable.isSubtype, ClassTable.below, ClassTable.atomBelow, Signature.ty] at hs

theorem HasType.bool? {v : Value} (h : v.HasType t .bool) : ∃ b, v.bool? = some b := by
  cases h with
  | bool hs => exact ⟨_, rfl⟩
  | int hs | null hs | object _ hs | closure _ _ _ hs =>
    simp [ClassTable.isSubtype, ClassTable.below, ClassTable.atomBelow, Signature.ty] at hs

theorem HasType.eq_null {v : Value} (h : v.HasType t .null) : v = .null := by
  cases h with
  | null hs => rfl
  | int hs | bool hs | object _ hs | closure _ _ _ hs =>
    simp [ClassTable.isSubtype, ClassTable.below, ClassTable.atomBelow, Signature.ty] at hs

/-- What a reference holds is null or an object of a descendant. -/
theorem HasType.ref {v : Value} {c : ClassId} (h : v.HasType t (.ref c)) :
    v = .null ∨ ∃ id lineage fields d, v = .object id lineage fields ∧
      ObjectFits t lineage fields d ∧ t.classes.descends d c := by
  cases h with
  | null hs => exact .inl rfl
  | object ho hs =>
    exact .inr ⟨_, _, _, _, rfl, ho, by
      simpa [ClassTable.isSubtype, ClassTable.below, ClassTable.atomBelow] using hs⟩
  | int hs | bool hs | closure _ _ _ hs =>
    simp [ClassTable.isSubtype, ClassTable.below, ClassTable.atomBelow, Signature.ty] at hs

theorem not_hasType_cls {v : Value} {c : ClassId} (h : v.HasType t (.cls c)) : False := by
  cases h with
  | int hs | bool hs | null hs | object _ hs | closure _ _ _ hs =>
    simp [ClassTable.isSubtype, ClassTable.below, ClassTable.atomBelow, Signature.ty] at hs

/-- What has a function type is a function of a declared type below, with frames that fit. -/
theorem HasType.arrow {v : Value} {sig : Signature} (h : v.HasType t sig.ty) :
    ∃ (f : FunDecl) (env : List Frame) (Γ Γ' : Env) (sig' : Signature), v = .closure f env ∧
      Γ.Declares t.resolutions Γ' f.id f.name.text .func sig'.ty ∧
      f.Checked t Γ' sig' ∧ Frame.AllFit t env Γ.scopes.scopes ∧
      t.classes.isSubtype sig'.ty sig.ty := by
  cases h with
  | closure hd hf henv hs => exact ⟨_, _, _, _, _, rfl, hd, hf, henv, hs⟩
  | int hs | bool hs | null hs | object _ hs =>
    simp [ClassTable.isSubtype, ClassTable.below, ClassTable.atomBelow, Signature.ty] at hs

/-- A value takes as many words as its type. -/
theorem HasType.words_eq {v : Value} {ty : Ty} (h : v.HasType t ty) : v.words = ty.words := by
  cases h with
  | int hs | bool hs | null hs | object _ hs | closure _ _ _ hs =>
    exact ClassTable.words_eq_of_isSubtype hs

/-- Values of one type that is no function type can be compared. -/
theorem HasType.same? {v w : Value} {ty : Ty} (hv : v.HasType t ty) (hw : w.HasType t ty)
    (ha : ty.isArrow = false) : ∃ b, v.same? w = some b := by
  cases ty with
  | int =>
    obtain ⟨m, hm⟩ := hv.int?
    obtain ⟨n, hn⟩ := hw.int?
    cases v <;> cases w <;> simp_all [Value.same?, Value.int?]
  | bool =>
    obtain ⟨m, hm⟩ := hv.bool?
    obtain ⟨n, hn⟩ := hw.bool?
    cases v <;> cases w <;> simp_all [Value.same?, Value.int?, Value.bool?]
  | null =>
    rw [hv.eq_null, hw.eq_null]
    exact ⟨true, rfl⟩
  | ref c =>
    obtain rfl | ⟨_, _, _, _, rfl, -, -⟩ := hv.ref <;>
      obtain rfl | ⟨_, _, _, _, rfl, -, -⟩ := hw.ref <;> exact ⟨_, rfl⟩
  | cls c => exact (not_hasType_cls hv).elim
  | arrow ps r => cases ha

end Value

/-! ## Frames -/

namespace Frame

/-- A name is found in the frames where its entry is found in the scopes. -/
theorem AllFit.find? {name : String} {e : Entry} :
    ∀ {env : List Frame} {scopes : List Scope}, AllFit t env scopes →
      (ScopeStack.mk scopes).lookup? name = some e →
      ∃ i b s, Frame.find? name env = some (i, b) ∧ scopes[i]? = some s ∧ s[name]? = some e ∧
        b.Fits t name e := by
  intro env scopes hfit h
  induction scopes generalizing env with
  | nil => cases h
  | cons s scopes ih =>
    cases hfit with
    | @cons f _ env _ hn hb hrest =>
      simp only [ScopeStack.lookup?, List.findSome?_cons] at h
      cases hs : s[name]? with
      | some e' =>
        rw [hs] at h
        cases h
        obtain ⟨b, hb'⟩ := Option.isSome_iff_exists.1 ((hn name).trans (by rw [hs]; rfl))
        exact ⟨0, b, s, by rw [Frame.find?, hb'], rfl, hs, hb name e b hs hb'⟩
      | none =>
        rw [hs] at h
        -- A frame has no names but those of its scope, so the search goes on in both.
        have hnone : f.lookup? name = none := by
          rw [← Option.not_isSome_iff_eq_none, hn name, hs]
          simp
        obtain ⟨i, b, s', hf, hi, he, hfit⟩ := ih hrest h
        exact ⟨i + 1, b, s', by rw [Frame.find?, hnone, hf]; rfl, hi, he, hfit⟩

/-- A class is found in the frames where its entry is found in the scopes. -/
theorem AllFit.findClass? {name : String} {e : Entry} :
    ∀ {env : List Frame} {scopes : List Scope}, AllFit t env scopes →
      (ScopeStack.mk scopes).lookupClass? name = some e →
      ∃ cv ancestors c, Frame.findClass? name env = some (cv :: ancestors) ∧ e.ty = .cls c ∧
        t.resolutions.declaration? cv.decl.id = some e ∧
        ClassValue.LineageFits t (cv :: ancestors) c := by
  intro env scopes hfit h
  induction scopes generalizing env with
  | nil => cases h
  | cons s scopes ih =>
    cases hfit with
    | @cons f _ env _ hn hb hrest =>
      simp only [ScopeStack.lookupClass?, List.findSome?_cons] at h
      cases hf : s[name]?.filter (·.kind == .cls) with
      | some e' =>
        rw [hf] at h
        cases h
        rw [Option.filter_eq_some_iff] at hf
        obtain ⟨hs, hk⟩ := hf
        have hk : e.kind = .cls := by simpa using hk
        obtain ⟨b, hb'⟩ := Option.isSome_iff_exists.1 ((hn name).trans (by rw [hs]; rfl))
        cases hb name e b hs hb' with
        | value hv _ => rw [hk] at hv; cases hv
        | method hm => rw [hk] at hm; cases hm
        | @cls _ _ cv ancestors c _ hty hd hl =>
          exact ⟨cv, ancestors, c, by simp [Frame.findClass?, hb', Binding.lineage?], hty, hd, hl⟩
      | none =>
        rw [hf] at h
        obtain ⟨cv, ancestors, c, hfind, hty, hd, hl⟩ := ih hrest h
        refine ⟨cv, ancestors, c, ?_, hty, hd, hl⟩
        -- A name of another kind does not hide a class, in the frames as in the scopes.
        have hskip : (f.lookup? name).bind Binding.lineage? = none := by
          cases hl : f.lookup? name with
          | none => rfl
          | some b =>
            obtain ⟨e', he'⟩ := Option.isSome_iff_exists.1 ((hn name).symm.trans (by rw [hl]; rfl))
            have hk : e'.kind ≠ .cls := by
              intro hk
              simp [he', hk] at hf
            cases hb name e' b he' hl with
            | value _ _ => rfl
            | method _ => rfl
            | cls hk' => exact absurd hk' hk
        simp only [Frame.findClass?, List.findSome?_cons, hskip]
        exact hfind

/-- Bind a name whose entry is put into the innermost scope. -/
theorem AllFit.insert {env : List Frame} {s : Scope} {scopes : List Scope} {name : String} {b : Binding}
    {e : Entry} (h : AllFit t env (s :: scopes)) (hb : b.Fits t name e) :
    AllFit t (Frame.bind name b env) (s.insert name e :: scopes) := by
  cases h with
  | @cons f _ env _ hn hf hrest =>
    refine .cons ?_ ?_ hrest
    · intro n
      rw [Scope.getElem?_insert]
      by_cases heq : name = n
      · simp [Frame.lookup?, heq]
      · rw [if_neg heq, ← hn n]
        simp [Frame.lookup?, List.lookup_cons, beq_false_of_ne (Ne.symm heq)]
    · intro n e b' he hb'
      rw [Scope.getElem?_insert] at he
      by_cases heq : name = n
      · subst heq
        rw [if_pos rfl] at he
        cases he
        simp only [Frame.lookup?, List.lookup_cons_self, Option.some.injEq] at hb'
        exact hb' ▸ hb
      · rw [if_neg heq] at he
        simp only [Frame.lookup?, List.lookup_cons, beq_false_of_ne (Ne.symm heq)] at hb'
        exact hf n e b' he hb'

/-- Bind a declared name. -/
theorem AllFit.declare {r : Resolutions} {Γ Γ' : Env} {env : List Frame} {id : NodeId} {name : String}
    {kind : EntryKind} {ty : Ty} {b : Binding} (h : AllFit t env Γ.scopes.scopes)
    (hd : Γ.Declares r Γ' id name kind ty) (hb : b.Fits t name ⟨kind, Γ.level, Γ.nextLocal, ty⟩) :
    AllFit t (Frame.bind name b env) Γ'.scopes.scopes := by
  obtain ⟨s, outer, hs, -, hafter⟩ := hd.scopes
  rw [hs] at h
  rw [hafter]
  exact h.insert hb

/-- Bind the parameters of a function to arguments of their types. -/
theorem AllFit.declareParams {r : Resolutions} {place : Place} {outer : List Frame} :
    ∀ {ps : List (Param × Ty)} {args : List Value} {Γ : Env} {next : Int}
      {bindings : List (String × Binding)},
      List.Forall₂ (Value.HasType t) args (ps.map Prod.snd) →
      Findings.Recorded r (Γ.declareParams next ps).2 →
      AllFit t (⟨place, bindings⟩ :: outer) Γ.scopes.scopes →
      AllFit t
        (⟨place, ((ps.map (·.1.name.text)).zip (args.map Binding.value)).reverse ++ bindings⟩ :: outer)
        (Γ.declareParams next ps).1.scopes.scopes
  | [], _, _, _, _, _, _, h => by simpa [Env.declareParams] using h
  | (p, ty) :: ps, v :: args, Γ, next, bindings, .cons hv hargs, hr, h => by
    simp only [Env.declareParams, Findings.recorded_append] at hr ⊢
    obtain ⟨-, s, rest, hs, -, hafter⟩ := Env.declare_of_recorded hr.1
    rw [hs] at h
    have hfit : (Binding.value v).Fits t p.name.text ⟨.param, Γ.level, next + ty.words - 1, ty⟩ :=
      .value rfl hv
    have hbound := h.insert hfit
    have hscopes : (Γ.declare p.id p.name ⟨.param, Γ.level, next + ty.words - 1, ty⟩).1.scopes.scopes =
        s.insert p.name.text ⟨.param, Γ.level, next + ty.words - 1, ty⟩ :: rest := by rw [hafter]
    rw [← hscopes] at hbound
    simpa [Frame.bind] using AllFit.declareParams hargs hr.2 hbound

end Frame

end ObjLet
