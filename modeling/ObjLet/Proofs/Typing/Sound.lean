import ObjLet.Proofs.Typing.Object

/-!
# Type soundness

The evaluation of a program without errors is never stuck, and its value has the type of the program
(`Program.eval_sound`). `Eval.Sound` says this of any evaluation, with a property of its value. Calls are
bounded by fuel: expressions are sound if calls are (`Caller.Sound`), and calls with one more unit of fuel
are sound if those with less are.
-/

namespace ObjLet

def Outcome.Sound {α : Type} (P : α → Prop) : Outcome α → Prop
  | value a => P a
  | stuck => False
  | _ => True

/-- From every history, evaluation is not stuck, and its value has a property. -/
def Eval.Sound {α : Type} (x : Eval α) (P : α → Prop) : Prop := ∀ h, (x h).1.Sound P

namespace Eval

variable {α β : Type} {P : α → Prop} {Q : β → Prop}

theorem Sound.pure {a : α} (h : P a) : Sound (Pure.pure a) P := fun _ => h

/-- A step after a sound step. Where the first one stops early, the second is not run. -/
theorem Sound.bind {x : Eval α} {f : α → Eval β} (hx : Sound x P) (hf : ∀ a, P a → Sound (f a) Q) :
    Sound (x >>= f) Q := by
  intro h
  have hx := hx h
  change (Eval.andThen x f h).1.Sound Q
  unfold Eval.andThen
  cases hxh : x h with
  | mk o p =>
    rw [hxh] at hx
    cases o with
    | value a => exact hf a hx p.1
    | outOfFuel | divisionByZero | nullCall => trivial
    | stuck => exact hx

theorem Sound.mono {x : Eval α} {R : α → Prop} (hx : Sound x P) (h : ∀ a, P a → R a) : Sound x R := by
  intro hist
  have hx := hx hist
  cases ho : (x hist).1 <;> rw [ho] at hx <;> first | exact h _ hx | exact hx

theorem Sound.orStuck {a? : Option α} (h : ∃ a, a? = some a ∧ P a) : Sound (Eval.orStuck a?) P := by
  obtain ⟨a, rfl, ha⟩ := h
  exact .pure ha

theorem Sound.log (e : Event) : Sound (Eval.log e) fun _ => True := fun _ => trivial

theorem Sound.print (v : Value) : Sound (Eval.print v) fun _ => True := fun _ => trivial

theorem Sound.enter (f : NodeId) : Sound (Eval.enter f) fun _ => True := fun _ => trivial

theorem Sound.leave : Sound Eval.leave fun _ => True := fun _ => trivial

/-- Only a function value of an activation is noted, and noting is always possible. -/
theorem Sound.useClosure (site : NodeId) (env : List Frame) :
    Sound (Eval.useClosure site env) fun _ => True := by
  intro h
  unfold Eval.useClosure
  split
  · split <;> trivial
  · trivial

/-- A use can be noted where its frame is there. -/
theorem Sound.reach {site : NodeId} {env : List Frame} {i : Nat} {v : Value}
    (h : ∃ f, env[i]? = some f) : Sound (Eval.reach site env i v) fun _ => True := by
  obtain ⟨f, hf⟩ := h
  rw [Eval.reach, hf]
  exact .log _

end Eval

/-- Calls of clean functions are sound. -/
def Caller.Sound (t : Tables) (call : Caller) : Prop :=
  ∀ {f : FunDecl} {Γ : Env} {sig : Signature} {outer : List Frame} {args : List Value},
    f.Checked t Γ sig → Frame.AllFit t outer Γ.scopes.scopes →
    List.Forall₂ (Value.HasType t) args sig.params → Eval.Sound (call f outer args) (Value.HasType t · sig.ret)

open Eval

variable {t : Tables} {wrap : Int → Int} {call : Caller}

/-- A frame in which a name is found is one of the frames. -/
theorem Frame.find?_getElem? {name : String} {b : Binding} :
    ∀ {env : List Frame} {i : Nat}, Frame.find? name env = some (i, b) → ∃ f, env[i]? = some f
  | [], i, h => by cases h
  | f :: fs, i, h => by
    rw [Frame.find?] at h
    split at h
    · cases h
      exact ⟨f, rfl⟩
    · obtain ⟨⟨j, b'⟩, hj, heq⟩ := Option.map_eq_some_iff.1 h
      cases heq
      obtain ⟨f', hf'⟩ := Frame.find?_getElem? hj
      exact ⟨f', hf'⟩

/-- Arguments fit parameters of larger types, too. -/
theorem hasTypeAll_sub (ht : t.classes.Lineal) {vs : List Value} {as bs : List Ty}
    (h : List.Forall₂ (Value.HasType t) vs as)
    (hs : List.Forall₂ (fun a b => t.classes.isSubtype a b) as bs) :
    List.Forall₂ (Value.HasType t) vs bs := by
  induction h generalizing bs with
  | nil => cases hs; exact .nil
  | cons hv _ ih =>
    cases hs with
    | cons hab hs => exact .cons (hv.sub ht hab) (ih hs)

/-- A call of a method of an object is sound where its class has an entry for the method. -/
theorem Value.sound_callMethod (ht : t.classes.Lineal) (hcall : call.Sound t) {id : Nat}
    {lineage : List ClassValue} {fields : List (String × Value)} {d : ClassId} {cls : Class}
    (ho : Value.ObjectFits t lineage fields d) (hd : t.classes.class? d = some cls) {name : String}
    {e : Entry} (he : cls.members[name]? = some e) (hk : e.kind = .method) {sig : Signature}
    (hs : t.classes.isSubtype e.ty sig.ty) {args : List Value}
    (hargs : List.Forall₂ (Value.HasType t) args sig.params) :
    Eval.Sound (Value.callMethod call (.object id lineage fields) name args)
      (Value.HasType t · sig.ret) := by
  have hl : ClassValue.LineageFits t lineage d := by
    cases ho with
    | mk hl _ _ _ => exact hl
  obtain ⟨cv, ancestors, m, c', cls', Γ, msig, members, around, hfind, rfl, hty, hm, href, hpre⟩ :=
    hl.findMethod? ht hd he hk
  rw [hty] at hs
  obtain ⟨hret, hparams⟩ := ClassTable.isSubtype_signature.1 hs
  rw [Value.callMethod, hfind]
  exact (hcall hm.checked (hm.fits_scope ht ho hd href hpre id) (hasTypeAll_sub ht hargs hparams)).mono
    fun v hv => hv.sub ht hret

/-! ## Expressions -/

namespace Expr

variable {Γ : Env} {env : List Frame}

/-- An expression evaluates to values of its type. -/
def SoundIn (t : Tables) (wrap : Int → Int) (call : Caller) (env : List Frame) (e : Expr) : Prop :=
  ∀ ty, e.type? t = some ty → Eval.Sound (e.eval wrap call env) (Value.HasType t · ty)

/-- Arguments of calls have the types of the parameters, although they are evaluated from the last one on. -/
theorem sound_evalLastFirst (ht : t.classes.Lineal) (hΓ : Γ.Fits t) {args : List Expr}
    {params : List Ty} (hargs : ∀ a ∈ args, a.Checked t Γ) (hfit : ArgsFit t args params)
    (hs : ∀ a ∈ args, a.SoundIn t wrap call env) :
    Eval.Sound (evalLastFirst wrap call env args) (List.Forall₂ (Value.HasType t) · params) := by
  induction hfit with
  | nil => exact .pure .nil
  | @cons a p as ps hap _ ih =>
    obtain ⟨ha, has⟩ := List.forall_mem_cons.1 hargs
    obtain ⟨hsa, hsas⟩ := List.forall_mem_cons.1 hs
    obtain ⟨ty, hty⟩ := ha.exists_type hΓ
    refine (ih has hsas).bind fun vs hvs => (hsa ty hty).bind fun v hv => .pure ?_
    exact .cons (hv.sub ht (hap ty hty)) hvs

/-- Arguments of `new` have the types of the fields. -/
theorem sound_evalFirstLast (ht : t.classes.Lineal) (hΓ : Γ.Fits t) {args : List Expr}
    {params : List Ty} (hargs : ∀ a ∈ args, a.Checked t Γ) (hfit : ArgsFit t args params)
    (hs : ∀ a ∈ args, a.SoundIn t wrap call env) :
    Eval.Sound (evalFirstLast wrap call env args) (List.Forall₂ (Value.HasType t) · params) := by
  induction hfit with
  | nil => exact .pure .nil
  | @cons a p as ps hap _ ih =>
    obtain ⟨ha, has⟩ := List.forall_mem_cons.1 hargs
    obtain ⟨hsa, hsas⟩ := List.forall_mem_cons.1 hs
    obtain ⟨ty, hty⟩ := ha.exists_type hΓ
    refine (hsa ty hty).bind fun v hv => (ih has hsas).bind fun vs hvs => .pure ?_
    exact .cons (hv.sub ht (hap ty hty)) hvs

/-- A name is found in the frames, where it is bound to a value of its type. -/
theorem sound_ident (henv : Frame.AllFit t env Γ.scopes.scopes) {id : NodeId} {name : Name}
    (h : (Expr.ident id name).Checked t Γ) : (Expr.ident id name).SoundIn t wrap call env := by
  intro ty hty
  obtain ⟨e, he, huse, hk⟩ := h.ident
  have hty' : e.ty = ty := by simpa [type?, huse, hk] using hty
  subst hty'
  obtain ⟨i, b, s, hfind, -, -, hb⟩ := henv.find? he
  rw [Expr.eval, hfind]
  cases hb with
  | @value _ v _ _ hv =>
    refine (Sound.reach (Frame.find?_getElem? hfind)).bind fun _ _ => ?_
    split
    · exact (Sound.reach (Frame.find?_getElem? hfind)).bind fun _ _ => .pure hv
    · exact .pure hv
  | method hm => rw [hm] at hk; cases hk
  | cls hc _ _ _ => rw [hc] at hk; cases hk

/-- A call is sound: what is called is a function value of a subtype, or a method of the object at hand. -/
theorem sound_call (ht : t.classes.Lineal) (hcall : call.Sound t) (hΓ : Γ.Fits t)
    (henv : Frame.AllFit t env Γ.scopes.scopes) {id : NodeId} {callee : Name} {args : List Expr}
    {span : Span} (h : (Expr.call id callee args span).Checked t Γ)
    (hs : ∀ a ∈ args, a.SoundIn t wrap call env) :
    (Expr.call id callee args span).SoundIn t wrap call env := by
  intro ty hty
  obtain ⟨e, sig, he, huse, hsig, hargs, hfit⟩ := h.call
  have hty' : sig.ret = ty := by simpa [type?, huse, hsig] using hty
  subst hty'
  obtain ⟨i, b, s, hfind, -, -, hb⟩ := henv.find? he
  refine (sound_evalLastFirst ht hΓ hargs hfit hs).bind fun vs hvs => ?_
  rw [hfind]
  have hreach : ∀ v, Eval.Sound (Eval.reach id env i v) fun _ => True :=
    fun v => Sound.reach (Frame.find?_getElem? hfind)
  cases hb with
  | @value _ v _ _ hv =>
    rw [hsig] at hv
    obtain ⟨f, outer, Γ₀, Γ₁, sig', rfl, hd, hf, houter, hsub⟩ := hv.arrow
    obtain ⟨hret, hparams⟩ := ClassTable.isSubtype_signature.1 hsub
    -- A function can call itself, so it is bound in the frames in which its body runs.
    have hself : Value.HasType t (.closure f outer) sig'.ty :=
      .closure hd hf houter (ClassTable.isSubtype_refl _ _)
    have hframes := houter.declare hd (.value rfl hself)
    -- ?_ => A name that stands for a method is called on the object in whose method the call is.
    refine (hreach _).bind fun _ _ => (Sound.useClosure _ _).bind fun _ _ => ?_
    exact (hcall hf hframes (hasTypeAll_sub ht hvs hparams)).mono fun v hv => hv.sub ht hret
  | method hk ho hd hmem hk' hoff hsub =>
    refine (hreach _).bind fun _ _ => ?_
    rw [hsig] at hsub
    exact Value.sound_callMethod ht hcall ho hd hmem hk' hsub hvs
  | cls hk hty' _ _ =>
    rw [hsig] at hty'
    cases hty'

/-- The fields of a new object have the types of the layout, so the object fits its class. -/
theorem sound_new (ht : t.classes.Lineal) (hΓ : Γ.Fits t)
    (henv : Frame.AllFit t env Γ.scopes.scopes) {id : NodeId} {cls : Name} {args : List Expr}
    {span : Span} (h : (Expr.new id cls args span).Checked t Γ)
    (hs : ∀ a ∈ args, a.SoundIn t wrap call env) :
    (Expr.new id cls args span).SoundIn t wrap call env := by
  intro ty hty
  obtain ⟨e, c, l, he, huse, hc, hl, hargs, hfit⟩ := h.new hΓ
  have hty' : TyOf.ref c = ty := by simpa [type?, huse, hc, hl] using hty
  subst hty'
  refine (sound_evalFirstLast ht hΓ hargs hfit hs).bind fun vs hvs => ?_
  obtain ⟨cv, ancestors, c', hfind, hcls, -, hlin⟩ := henv.findClass? he
  have heq : c' = c := by
    unfold Entry.declaredClass? at hc
    rw [hcls] at hc
    split at hc
    · next heq' => cases heq'; cases hc; rfl
    · cases hc
  subst heq
  obtain ⟨final, hfinal⟩ := hlin.class?
  obtain ⟨ms, hlaid, -⟩ := hlin.laid ht hfinal
  rw [ClassTable.layout?, hfinal] at hl
  cases hl
  -- Arguments match the fields of the layout in number, and the lineage names the same fields.
  have hlen : (ClassValue.fieldNames (cv :: ancestors)).length = vs.length := by
    rw [hlaid.length_fields, hvs.length_eq]
  refine (Sound.orStuck ⟨_, hfind, rfl⟩).bind fun lineage' heq => ?_
  subst heq
  rw [if_pos hlen]
  intro hist
  refine .object (.mk hlin hfinal ?_ ?_) (ClassTable.isSubtype_refl _ _)
  · rw [List.map_fst_zip (Nat.le_of_eq hlen)]
  · intro n e' v he' hk hlook
    obtain ⟨before, after, hsplit, -⟩ := List.lookup_eq_some_iff.1 hlook
    have hmem : (n, v) ∈ (ClassValue.fieldNames (cv :: ancestors)).zip vs := by
      rw [hsplit]
      simp
    obtain ⟨i, hi⟩ := List.getElem?_of_mem hmem
    -- The value of a field is the argument at the position of its name.
    rw [List.getElem?_zip_eq_some] at hi
    obtain ⟨o, ty, -, hty, hentry⟩ := hlaid.field hi.1
    cases he'.symm.trans hentry
    obtain ⟨hv, rfl⟩ := List.getElem?_eq_some_iff.1 hi.2
    obtain ⟨hf, rfl⟩ := List.getElem?_eq_some_iff.1 hty
    exact hvs.get hv hf

/-- A method call is sound, whichever class of the lineage the method comes from. -/
theorem sound_methodCall (ht : t.classes.Lineal) (hcall : call.Sound t) (hΓ : Γ.Fits t)
    (henv : Frame.AllFit t env Γ.scopes.scopes) {id : NodeId} {object method : Name}
    {args : List Expr} {span : Span} (h : (Expr.methodCall id object method args span).Checked t Γ)
    (hs : ∀ a ∈ args, a.SoundIn t wrap call env) :
    (Expr.methodCall id object method args span).SoundIn t wrap call env := by
  intro ty hty
  obtain ⟨e, c, m, sig, he, hec, hm, hk, hsig, hmc, hargs, hfit⟩ := h.methodCall hΓ
  have hty' : sig.ret = ty := by simpa [type?, Tables.methodSignature?, hmc, hsig] using hty
  subst hty'
  obtain ⟨i, b, s, hfind, -, -, hb⟩ := henv.find? he
  refine (sound_evalLastFirst ht hΓ hargs hfit hs).bind fun vs hvs => ?_
  rw [hfind]
  cases hb with
  | @value _ v _ _ hv =>
    refine (Sound.reach (Frame.find?_getElem? hfind)).bind fun _ _ => ?_
    rw [hec] at hv
    obtain rfl | ⟨oid, lineage, fields, d, rfl, ho, hdesc⟩ := hv.ref
    · -- trivial => A call on `null` stops with an error of its own.
      exact fun _ => trivial
    -- The method of the static class is refined by that of the class of the object.
    obtain ⟨cls, hcls, hmem⟩ : ∃ cls, Γ.classes.class? c = some cls ∧
        cls.members[method.text]? = some m := by
      simp only [ClassTable.member?, ClassTable.members?, Option.bind_eq_some_iff,
        Option.map_eq_some_iff] at hm
      obtain ⟨_, ⟨cls, hcls, rfl⟩, hmem⟩ := hm
      exact ⟨cls, hcls, hmem⟩
    obtain ⟨clsC, hclsC, -, hrefC⟩ := hΓ.classes hcls
    have hl : ClassValue.LineageFits t lineage d := by
      cases ho with
      | mk hl _ _ _ => exact hl
    obtain ⟨clsD, hclsD⟩ := hl.class?
    obtain ⟨m', hm', hk', -, -, hsub'⟩ :=
      (hrefC.trans ht (hl.refines_of_descends ht hdesc hclsD hclsC)) _ _ hmem
    rw [hsig] at hsub'
    exact Value.sound_callMethod ht hcall ho hclsD hm' (hk'.trans hk) hsub' hvs
  | method hk' ho hd hmem hk'' hoff hsub =>
    obtain ⟨sig', hsig'⟩ := (hΓ.lookup? he).callable (.inr hk')
    rw [hec] at hsig'
    cases hsig'
  | cls hk' hty' _ _ =>
    rw [hec] at hty'
    cases hty'

variable {β : Type} {Q : β → Prop}

/-- An operand that has to be a number is one. -/
theorem SoundIn.int? (ht : t.classes.Lineal) (hΓ : Γ.Fits t) {e : Expr} (h : e.Checked t Γ)
    (hs : e.SoundIn t wrap call env) (hfit : ∀ ty, e.type? t = some ty → t.classes.isSubtype ty .int) :
    Eval.Sound (e.eval wrap call env) fun v => ∃ n, v.int? = some n := by
  obtain ⟨ty, hty⟩ := h.exists_type hΓ
  exact (hs ty hty).mono fun v hv => (hv.sub ht (hfit ty hty)).int?

/-- An operand or a condition that has to be a Boolean is one. -/
theorem SoundIn.bool? (ht : t.classes.Lineal) (hΓ : Γ.Fits t) {e : Expr} (h : e.Checked t Γ)
    (hs : e.SoundIn t wrap call env) (hfit : ∀ ty, e.type? t = some ty → t.classes.isSubtype ty .bool) :
    Eval.Sound (e.eval wrap call env) fun v => ∃ b, v.bool? = some b := by
  obtain ⟨ty, hty⟩ := h.exists_type hΓ
  exact (hs ty hty).mono fun v hv => (hv.sub ht (hfit ty hty)).bool?

/-- What is done with an operand that has to be a number may rely on it. -/
theorem sound_int (ht : t.classes.Lineal) (hΓ : Γ.Fits t) {e : Expr} (h : e.Checked t Γ)
    (hs : e.SoundIn t wrap call env) (hfit : ∀ ty, e.type? t = some ty → t.classes.isSubtype ty .int)
    {f : Int → Eval β} (hf : ∀ n, Eval.Sound (f n) Q) :
    Eval.Sound (e.eval wrap call env >>= fun v => orStuck v.int? >>= f) Q := by
  refine (hs.int? ht hΓ h hfit).bind fun v hv => ?_
  obtain ⟨n, hn⟩ := hv
  have hstuck : Eval.Sound (orStuck v.int?) fun _ => True := .orStuck ⟨n, hn, trivial⟩
  exact hstuck.bind fun n _ => hf n

/-- What is done with an operand that has to be a Boolean may rely on it. -/
theorem sound_bool (ht : t.classes.Lineal) (hΓ : Γ.Fits t) {e : Expr} (h : e.Checked t Γ)
    (hs : e.SoundIn t wrap call env) (hfit : ∀ ty, e.type? t = some ty → t.classes.isSubtype ty .bool)
    {f : Bool → Eval β} (hf : ∀ b, Eval.Sound (f b) Q) :
    Eval.Sound (e.eval wrap call env >>= fun v => orStuck v.bool? >>= f) Q := by
  refine (hs.bool? ht hΓ h hfit).bind fun v hv => ?_
  obtain ⟨b, hb⟩ := hv
  have hstuck : Eval.Sound (orStuck v.bool?) fun _ => True := .orStuck ⟨b, hb, trivial⟩
  exact hstuck.bind fun b _ => hf b

/-- Values of types that are comparable can be compared. -/
theorem same?_of_comparable (ht : t.classes.Lineal) {a b : Ty} {v w : Value} (hv : v.HasType t a)
    (hw : w.HasType t b) (hc : t.comparable a b) : ∃ r, v.same? w = some r := by
  simp only [Tables.comparable, Bool.and_eq_true, Bool.or_eq_true, Bool.not_eq_true'] at hc
  obtain ⟨⟨hna, hnb⟩, hab | hba⟩ := hc
  · exact (hv.sub ht hab).same? hw hnb
  · exact hv.same? (hw.sub ht hba) hna

/-- Operands of equality have comparable types, so equality is decided. -/
theorem sound_equal (ht : t.classes.Lineal) {left right : Expr} {a b : Ty}
    (hl : Eval.Sound (left.eval wrap call env) (Value.HasType t · a))
    (hr : Eval.Sound (right.eval wrap call env) (Value.HasType t · b)) (hc : t.comparable a b)
    {f : Bool → Eval β} (hf : ∀ b, Eval.Sound (f b) Q) :
    Eval.Sound (left.eval wrap call env >>= fun v => right.eval wrap call env >>= fun w =>
      orStuck (v.same? w) >>= f) Q := by
  refine hl.bind fun v hv => hr.bind fun w hw => ?_
  obtain ⟨b, hb⟩ := same?_of_comparable ht hv hw hc
  have hstuck : Eval.Sound (orStuck (v.same? w)) fun _ => True := .orStuck ⟨b, hb, trivial⟩
  exact hstuck.bind fun b _ => hf b

/-- The operands of a clean expression have types below the one that its operator asks for. -/
theorem Checked.operands {op : BinaryOp} {left right : Expr} {span : Span}
    (h : (Expr.binary op left right span).Checked t Γ) {want : Ty} (hop : op.operandType? = some want) :
    (∀ ty, left.type? t = some ty → t.classes.isSubtype ty want) ∧
      ∀ ty, right.type? t = some ty → t.classes.isSubtype ty want := by
  obtain ⟨-, -, hops⟩ := h.binary
  simpa only [Tables.fitOperands, hop, List.append_eq_nil_iff, Tables.fit_eq_nil] using hops

/-- The operands of a clean equation have comparable types. -/
theorem Checked.comparable (hΓ : Γ.Fits t) {left right : Expr} {span : Span}
    (h : (Expr.binary .equal left right span).Checked t Γ) :
    ∃ a b, left.type? t = some a ∧ right.type? t = some b ∧ t.comparable a b := by
  obtain ⟨hcl, hcr, hops⟩ := h.binary
  obtain ⟨a, ha⟩ := hcl.exists_type hΓ
  obtain ⟨b, hb⟩ := hcr.exists_type hΓ
  simp only [Tables.fitOperands, BinaryOp.operandType?, Tables.fitComparison, ha, hb] at hops
  split at hops
  · next hc => exact ⟨a, b, ha, hb, hc⟩
  · cases hops

/-- Operators are sound. Only division may stop, and that is not to be stuck. -/
theorem sound_binary (ht : t.classes.Lineal) (hΓ : Γ.Fits t) {op : BinaryOp} {left right : Expr}
    {span : Span} (h : (Expr.binary op left right span).Checked t Γ)
    (hl : left.SoundIn t wrap call env) (hr : right.SoundIn t wrap call env) :
    (Expr.binary op left right span).SoundIn t wrap call env := by
  intro ty hty
  cases hty
  obtain ⟨hcl, hcr, -⟩ := h.binary
  have hbool : ∀ b, Value.HasType t (.bool b) .bool := fun b => .bool (ClassTable.isSubtype_refl _ _)
  have hint : ∀ n, Value.HasType t (.int n) .int := fun n => .int (ClassTable.isSubtype_refl _ _)
  cases op with
  | add | sub | mul =>
    obtain ⟨hfl, hfr⟩ := h.operands rfl
    exact sound_int ht hΓ hcl hl hfl fun m => sound_int ht hΓ hcr hr hfr fun n => .pure (hint _)
  | div =>
    obtain ⟨hfl, hfr⟩ := h.operands rfl
    refine sound_int ht hΓ hcl hl hfl fun m => sound_int ht hΓ hcr hr hfr fun n => ?_
    rw [BinaryOp.arith]
    split
    · exact fun _ => trivial
    · exact .pure (hint _)
  | lessEqual =>
    obtain ⟨hfl, hfr⟩ := h.operands rfl
    exact sound_int ht hΓ hcl hl hfl fun m => sound_int ht hΓ hcr hr hfr fun n => .pure (hbool _)
  | greaterEqual =>
    obtain ⟨hfl, hfr⟩ := h.operands rfl
    exact sound_int ht hΓ hcr hr hfr fun n => sound_int ht hΓ hcl hl hfl fun m => .pure (hbool _)
  | equal =>
    obtain ⟨a, b, ha, hb, hc⟩ := h.comparable hΓ
    exact sound_equal ht (hl a ha) (hr b hb) hc fun _ => .pure (hbool _)
  | and =>
    obtain ⟨hfl, hfr⟩ := h.operands rfl
    refine sound_bool ht hΓ hcl hl hfl fun b => ?_
    cases b with
    | true => exact sound_bool ht hΓ hcr hr hfr fun _ => .pure (hbool _)
    | false => exact .pure (hbool _)
  | or =>
    obtain ⟨hfl, hfr⟩ := h.operands rfl
    refine sound_bool ht hΓ hcl hl hfl fun b => ?_
    cases b with
    | true => exact .pure (hbool _)
    | false => exact sound_bool ht hΓ hcr hr hfr fun _ => .pure (hbool _)

/-- Expressions are sound where calls are. -/
theorem sound (ht : t.classes.Lineal) (hcall : call.Sound t) (hΓ : Γ.Fits t)
    (henv : Frame.AllFit t env Γ.scopes.scopes) {e : Expr} (h : e.Checked t Γ) :
    e.SoundIn t wrap call env := by
  induction e using Expr.induction with
  | literal value span =>
    intro ty hty
    cases hty
    cases value with
    | int n => exact .pure (.int (ClassTable.isSubtype_refl _ _))
    | bool b => exact .pure (.bool (ClassTable.isSubtype_refl _ _))
    | null => exact .pure (.null (ClassTable.isSubtype_refl _ _))
  | ident id name => exact sound_ident henv h
  | call id callee args span ih =>
    obtain ⟨_, _, _, _, _, hargs, _⟩ := h.call
    exact sound_call ht hcall hΓ henv h fun a ha => ih a ha (hargs a ha)
  | new id cls args span ih =>
    obtain ⟨_, _, _, _, _, _, _, hargs, _⟩ := h.new hΓ
    exact sound_new ht hΓ henv h fun a ha => ih a ha (hargs a ha)
  | methodCall id object method args span ih =>
    obtain ⟨_, _, _, _, _, _, _, _, _, _, hargs, _⟩ := h.methodCall hΓ
    exact sound_methodCall ht hcall hΓ henv h fun a ha => ih a ha (hargs a ha)
  | binary op left right span ihl ihr =>
    obtain ⟨hcl, hcr, -⟩ := h.binary
    exact sound_binary ht hΓ h (ihl hcl) (ihr hcr)
  | unary op operand span ih =>
    obtain ⟨hc, hfit⟩ := h.unary
    intro ty hty
    cases op with
    | not =>
      cases hty
      exact sound_bool ht hΓ hc (ih hc) hfit fun _ => .pure (.bool (ClassTable.isSubtype_refl _ _))
  | cond condition thenExpr elseExpr span ihc iht ihe =>
    obtain ⟨hc, hct, hce, hfit, -⟩ := h.cond
    intro ty hty
    obtain ⟨a, ha⟩ := hct.exists_type hΓ
    obtain ⟨b, hb⟩ := hce.exists_type hΓ
    have hj : t.classes.join? a b = some ty := by simpa [type?, ha, hb] using hty
    -- Either branch has a type below the join, so it does not matter which is taken.
    obtain ⟨hat, hbt⟩ := ClassTable.le_join? hj
    refine sound_bool ht hΓ hc (ihc hc) hfit fun c => ?_
    cases c with
    | true => exact (iht hct a ha).mono fun v hv => hv.sub ht hat
    | false => exact (ihe hce b hb).mono fun v hv => hv.sub ht hbt
  | print value span ih =>
    intro ty hty
    exact (ih h.print ty hty).bind fun v hv => (Sound.print v).bind fun _ _ => .pure hv

end Expr

/-! ## Declarations and calls -/

/-- A clean class, with the frames around it and its ancestors, is a lineage. -/
theorem ClassDecl.Checked.sound_superclass (ht : t.classes.Lineal) {c : ClassDecl} {Γ Γ' : Env}
    {s : ClassSite} {final : Class} (h : c.Checked t Γ Γ' s final) {env : List Frame}
    (henv : Frame.AllFit t env Γ.scopes.scopes) {β : Type} {Q : β → Prop}
    {k : List ClassValue → Eval β}
    (hk : ∀ ancestors, ClassValue.LineageFits t (⟨c, env⟩ :: ancestors) s.old.length →
      Eval.Sound (k ancestors) Q) :
    Eval.Sound
      (match c.superclass with
        | none => pure [] >>= k
        | some sup => orStuck (Frame.findClass? sup.text env) >>= k) Q := by
  have hsuper := h.super
  cases hs : c.superclass with
  | none => exact hk [] (.root h henv hs)
  | some sup =>
    rw [hs] at hsuper
    cases hsuper with
    | @sub _ e p parent he hp hlt hparent hlaid hstart =>
    obtain ⟨cv, ancestors, c', hfind, hcls, -, hlin⟩ := henv.findClass? he
    have heq : c' = p := by
      unfold Entry.declaredClass? at hp
      rw [hcls] at hp
      split at hp
      · next heq' => cases heq'; cases hp; rfl
      · cases hp
    subst heq
    have hlp : t.classes.layout? c' = some parent.layout := by
      rw [ClassTable.layout?, hparent]
      rfl
    have hsup : final.layout.superclass = some c' := by
      rw [(ClassLayout.head_eq_iff.1 (h.head ht)).2.2.1, hstart, ← ht.id_eq hlp]
      rfl
    have hstuck : Eval.Sound (orStuck (Frame.findClass? sup.text env))
        fun ancestors => ClassValue.LineageFits t (⟨c, env⟩ :: ancestors) s.old.length :=
      .orStuck ⟨_, hfind, .sub h henv hlin hsup⟩
    exact hstuck.bind hk

/-- Clean declarations leave frames that fit the scopes after them. -/
theorem Decl.sound_evalAll (ht : t.classes.Lineal) (hcall : call.Sound t) {ds : List Decl} {Γ : Env}
    {env : List Frame} (h : Decl.CheckedAll t Γ ds) (henv : Frame.AllFit t env Γ.scopes.scopes) :
    Eval.Sound (Decl.evalAll wrap call env ds)
      fun env' => Frame.AllFit t env' (Decl.bindAll Γ ds).1.scopes.scopes := by
  induction ds generalizing Γ env with
  | nil => exact .pure henv
  | cons d ds ih =>
    obtain ⟨hd, hds⟩ := h.cons ht
    cases d with
    | var id name type init span =>
      obtain ⟨hinit, hfit, hdecl, -⟩ := hd.var
      obtain ⟨ty, hty⟩ := hinit.exists_type hd.fits
      refine (Expr.sound ht hcall hd.fits henv hinit ty hty).bind fun v hv => ?_
      exact ih hds (henv.declare hdecl (.value rfl (hv.sub ht (hfit ty hty))))
    | func f =>
      obtain ⟨hdecl, -, hf⟩ := hd.func
      -- The function value takes the frames in front of it, as the function was bound in front of its name.
      have hv : Value.HasType t (.closure f env) (f.signature Γ.classes).ty :=
        .closure hdecl hf henv (ClassTable.isSubtype_refl _ _)
      exact ih hds (henv.declare hdecl (.value rfl hv))
    | cls c =>
      obtain ⟨s, final, hc⟩ := hd.cls ht
      have hafter : ((Decl.cls c).bind Γ).1.scopes = s.around.scopes := by rw [hc.after]
      rw [Decl.evalAll]
      simp only [Decl.bindAll]
      generalize ((Decl.cls c).bind Γ).1 = after at hds hafter ⊢
      refine hc.sound_superclass ht henv fun ancestors hl => ?_
      have hframes := henv.declare hc.declares (.cls rfl rfl hc.declares.entry hl)
      rw [← hafter] at hframes
      exact ih hds hframes

/-- Running a clean function is sound where the calls in it are. -/
theorem FunDecl.sound_invoke (ht : t.classes.Lineal) (hcall : call.Sound t) :
    Caller.Sound t (FunDecl.invoke wrap call) := by
  intro f Γ sig outer args hf houter hargs
  obtain ⟨hparams, hdecls, hfits, hbody, hret⟩ := hf.body ht
  have hlen : f.params.length = args.length := by rw [hf.length, hargs.length_eq]
  rw [FunDecl.invoke, if_pos hlen]
  refine (Sound.enter f.id).bind fun a _ => ?_
  have hsnd : (f.params.zip sig.params).map Prod.snd = sig.params :=
    List.map_snd_zip (Nat.le_of_eq hf.length.symm)
  have hfst : (f.params.zip sig.params).map (fun p => p.1.name.text) = f.params.map (·.name.text) := by
    rw [show (fun p : Param × Ty => p.1.name.text) = (·.name.text) ∘ Prod.fst from rfl, ← List.map_map,
      List.map_fst_zip (Nat.le_of_eq hf.length)]
  -- The new frame has no names yet, as the scope of the function has none.
  have hempty : Frame.AllFit t (⟨.activation a, []⟩ :: outer) Γ.enterFrame.scopes.scopes := by
    refine .cons (fun n => ?_) (fun n e b he _ => ?_) houter
    · simp [Frame.lookup?]
    · simp at he
  have henv := Frame.AllFit.declareParams (by rw [hsnd]; exact hargs) hparams hempty
  rw [hfst, List.append_nil] at henv
  obtain ⟨ty, hty⟩ := hbody.exists_type hfits
  refine (Decl.sound_evalAll ht hcall hdecls henv).bind fun env henv' => ?_
  refine (Expr.sound ht hcall hfits henv' hbody ty hty).bind fun v hv => ?_
  exact Sound.leave.bind fun _ _ => .pure (hv.sub ht (hret ty hty))

/-- With any depth of calls, calls are sound. -/
theorem FunDecl.sound_call (ht : t.classes.Lineal) (fuel : Nat) :
    Caller.Sound t (FunDecl.call wrap fuel) := by
  induction fuel with
  -- exact fun _ _ _ _ => trivial => Without fuel a call stops, which is not to be stuck.
  | zero => exact fun _ _ _ _ => trivial
  | succ fuel ih => exact FunDecl.sound_invoke ht ih

/-! ## Programs -/

/-- A value is one of those that a type stands for: numbers and Booleans for `int`, null and the objects of
descendants for a class, functions of a declared type below for a function type. -/
def Value.Inhabits (t : Tables) : Value → Ty → Prop
  | .int _, .int | .bool _, .int | .bool _, .bool | .null, .null | .null, .ref _ => True
  | .object _ (c :: _) _, .ref d =>
    ∃ e a, t.resolutions.declaration? c.decl.id = some e ∧ e.declaredClass? = some a ∧
      t.classes.descends a d
  | .closure f _, .arrow ps r =>
    ∃ e, t.resolutions.declaration? f.id = some e ∧ t.classes.isSubtype e.ty (.arrow ps r)
  | _, _ => False

/-- A value of a type inhabits it, which is said without frames and environments. -/
theorem Value.HasType.inhabits {v : Value} {ty : Ty} (h : v.HasType t ty) : v.Inhabits t ty := by
  cases h with
  | int hs =>
    cases ty <;> simp_all [Value.Inhabits, ClassTable.isSubtype, ClassTable.below, ClassTable.atomBelow]
  | bool hs =>
    cases ty <;> simp_all [Value.Inhabits, ClassTable.isSubtype, ClassTable.below, ClassTable.atomBelow]
  | null hs =>
    cases ty <;> simp_all [Value.Inhabits, ClassTable.isSubtype, ClassTable.below, ClassTable.atomBelow]
  | @object id lineage fields c _ ho hs =>
    have hd : ∃ d, ty = .ref d ∧ t.classes.descends c d := by
      cases ty <;> simp_all [ClassTable.isSubtype, ClassTable.below, ClassTable.atomBelow]
    obtain ⟨d, rfl, hd⟩ := hd
    cases ho with
    | mk hl _ _ _ =>
    cases hl with
    | root hc _ _ => exact ⟨_, _, hc.declares.entry, rfl, hd⟩
    | sub hc _ _ _ => exact ⟨_, _, hc.declares.entry, rfl, hd⟩
  | @closure f env Γ Γ' sig _ hd hf henv hs =>
    obtain ⟨ps, r, rfl, -, -⟩ := ClassTable.below_arrow hs
    exact ⟨_, hd.entry, hs⟩

/-- A clean program has a type, and its evaluation yields values of it. -/
theorem Program.Checked.sound_eval {p : Program} (h : p.Checked t) (wrap : Int → Int) (fuel : Nat) :
    ∃ ty, p.type? t = some ty ∧ (p.eval wrap fuel).1.Sound (Value.HasType t · ty) := by
  obtain ⟨ty, hty⟩ := h.body.exists_type h.fits
  have hcall : Caller.Sound t (FunDecl.call wrap fuel) := FunDecl.sound_call h.lineal fuel
  have hempty : Frame.AllFit t [⟨.activation 0, []⟩] Env.initial.scopes.scopes := by
    refine .cons (fun n => ?_) (fun n e b he _ => ?_) .nil
    · simp [Frame.lookup?]
    · simp at he
  refine ⟨ty, hty, ?_⟩
  have hrun : Eval.Sound
      (Decl.evalAll wrap (FunDecl.call wrap fuel) [⟨.activation 0, []⟩] p.decls >>= fun env =>
        p.body.eval wrap (FunDecl.call wrap fuel) env) (Value.HasType t · ty) :=
    (Decl.sound_evalAll h.lineal hcall h.decls hempty).bind fun env henv =>
      Expr.sound h.lineal hcall h.fits henv h.body ty hty
  exact hrun {}

/-- Type soundness: where the node ids of a program are distinct, and binding and checking report no error,
its evaluation is never stuck, with any depth of calls, and a value that it yields inhabits the type of the
program. -/
theorem Program.eval_sound {p : Program} (hid : p.ids.Nodup) (hbind : p.bind.errors = [])
    (htype : p.typeErrors p.bind.tables = []) (wrap : Int → Int) (fuel : Nat) :
    ∃ ty, p.type? p.bind.tables = some ty ∧ (p.eval wrap fuel).1 ≠ .stuck ∧
      ∀ v, (p.eval wrap fuel).1 = .value v → v.Inhabits p.bind.tables ty := by
  obtain ⟨ty, hty, hs⟩ := (Program.checked hid hbind htype).sound_eval wrap fuel
  refine ⟨ty, hty, fun hstuck => ?_, fun v hv => ?_⟩
  · rw [hstuck] at hs
    exact hs
  · rw [hv] at hs
    exact Value.HasType.inhabits hs

/-- The sample satisfies what is required, so the theorem says something of it. -/
theorem Program.eval_sound_overriding :
    ∃ ty, overriding.type? overriding.bind.tables = some ty ∧ (overriding.eval id 1).1 ≠ .stuck ∧
      ∀ v, (overriding.eval id 1).1 = .value v → v.Inhabits overriding.bind.tables ty := by
  have hid : overriding.ids.Nodup := by decide +kernel
  have hbind : overriding.bind.errors = [] := List.isEmpty_iff.1 (by decide +kernel)
  have htype : overriding.typeErrors overriding.bind.tables = [] :=
    List.isEmpty_iff.1 (by decide +kernel)
  exact eval_sound hid hbind htype id 1

end ObjLet
