import ObjLet.Proofs.Code.Blocks
import ObjLet.Proofs.Class.Final

/-!
# Slots of dispatch tables

The methods of a clean class have different slots (`ClassDecl.Checked.methodAt?_eq_some`), since slots follow
names. Whatever the tables are, generating methods puts the label of the last method with a slot into that
slot and leaves the others alone (`FunDecl.genAll_slot`).
-/

namespace ObjLet

open Gen

variable {t : Tables} {mem : Int}

/-! ## Methods of a clean class -/

/-- The slot that is recorded for a method. -/
def Tables.slot? (t : Tables) (m : FunDecl) : Option Int :=
  (t.resolutions.declaration? m.id).map (·.offset)

/-- The method of a class that is recorded with a slot. -/
def ClassDecl.methodAt? (t : Tables) (c : ClassDecl) (slot : Nat) : Option FunDecl :=
  c.methods.find? fun m => t.slot? m = some (slot : Int)

namespace ClassBody.Checked

variable {s : ClassSite} {final : Class} {fs : List String}

/-- The slot of a method is the position of its name. -/
theorem slot_eq (ht : t.classes.Lineal) (methods : List FunDecl) :
    ∀ {b : ClassBody} {cur : Class} {ms : List String}, b.Checked t s final cur fs ms methods →
      ∀ m ∈ methods, ∃ i : Nat, t.slot? m = some (i : Int) ∧
        (ms ++ (methods.map (·.name.text)).filter (· ∉ s.inheritedMethods))[i]? = some m.name.text := by
  induction methods with
  | nil => exact fun _ => nofun
  | cons m methods ih =>
    intro b cur ms h
    obtain ⟨b', cur', h', -, -, e, he, hmem, hk, -⟩ := h.cons ht
    have hnames : ms ++ ((m :: methods).map (·.name.text)).filter (· ∉ s.inheritedMethods) =
        ms ++ [m.name.text].filter (· ∉ s.inheritedMethods) ++
          (methods.map (·.name.text)).filter (· ∉ s.inheritedMethods) := by
      rw [List.append_assoc, ← List.filter_append]
      rfl
    rw [hnames]
    refine List.forall_mem_cons.2 ⟨?_, ih h'⟩
    obtain ⟨-, hk'⟩ | ⟨hname, -⟩ := h'.built.laid.kind_cases hmem
    · rw [hk] at hk'
      cases hk'
    obtain ⟨i, sig, hi, -, hentry⟩ := h'.built.laid.entry_of_mem_methods hname
    cases hmem.symm.trans hentry
    refine ⟨i, by rw [Tables.slot?, he]; rfl, ?_⟩
    rw [List.getElem?_append_left (List.getElem?_eq_some_iff.1 hi).1, hi]

/-- A clean class declares no method name twice. -/
theorem nodup_names (ht : t.classes.Lineal) (methods : List FunDecl) :
    ∀ {b : ClassBody} {cur : Class} {ms : List String}, b.Checked t s final cur fs ms methods →
      (methods.map (·.name.text)).Nodup := by
  induction methods with
  | nil => exact fun _ => List.nodup_nil
  | cons m methods ih =>
    intro b cur ms h
    obtain ⟨b', cur', h', hgrow, -⟩ := h.cons ht
    refine List.nodup_cons.2 ⟨fun hmem => ?_, ih h'⟩
    refine (h'.grows ht).1.unmet _ hmem ?_
    rw [hgrow.declared]
    exact List.mem_append_left _ (by simp)

end ClassBody.Checked

/-- No two methods of a clean class have the same slot. -/
theorem ClassDecl.Checked.methodAt?_eq_some (ht : t.classes.Lineal) {env env' : Env} {c : ClassDecl}
    {s : ClassSite} {final : Class} (h : c.Checked t env env' s final) {m : FunDecl} {slot : Nat}
    (hm : m ∈ c.methods) (hslot : t.slot? m = some (slot : Int)) : c.methodAt? t slot = some m := by
  obtain ⟨b, cur, hbody, -, -⟩ := h.members
  have hnames := hbody.nodup_names ht
  cases hfind : c.methodAt? t slot with
  | none => exact absurd hslot (by simpa using List.find?_eq_none.1 hfind m hm)
  | some m' =>
    have hm' := List.mem_of_find?_eq_some hfind
    have hslot' : t.slot? m' = some (slot : Int) := by simpa using List.find?_some hfind
    -- Two methods with the slot would have one position, hence one name, and names are not declared twice.
    obtain ⟨i, hi, hname⟩ := hbody.slot_eq ht c.methods m hm
    obtain ⟨i', hi', hname'⟩ := hbody.slot_eq ht c.methods m' hm'
    have hsame : i = i' := by
      rw [hslot] at hi
      rw [hslot'] at hi'
      exact Int.natCast_inj.1 (Option.some.inj (hi.symm.trans hi'))
    rw [← hsame, hname] at hname'
    rw [List.inj_on_of_nodup_map hnames hm' hm (Option.some.inj hname').symm]

/-! ## Generating methods -/

/-- A method that is placed changes the table at its slot and nowhere else. -/
theorem placeMethod?_eq_some {table table' : List Label} {slot : Int} {entry : Label}
    (h : placeMethod? table slot entry = some table') :
    ∃ k : Nat, slot = k ∧ table'[k]? = some entry ∧ ∀ i : Nat, i ≠ k → table'[i]? = table[i]? := by
  unfold placeMethod? at h
  split at h
  · cases h
  next hpos =>
  refine ⟨slot.toNat, by omega, ?_⟩
  split at h
  · next hlt =>
    cases h
    exact ⟨by simp [hlt], fun i hi => List.getElem?_set_ne (Ne.symm hi)⟩
  split at h
  · next heq =>
    cases h
    refine ⟨by rw [heq]; exact List.getElem?_concat_length, fun i hi => ?_⟩
    rcases Nat.lt_or_ge i table.length with hlt | hge
    · rw [List.getElem?_append_left hlt]
    · rw [List.getElem?_eq_none (by simp; omega), List.getElem?_eq_none hge]
  · cases h

/-- A slot gets the label of the last method that is recorded with it, which is the label of its place among all
functions, or else keeps what it has. -/
theorem FunDecl.ensures_genAll_slot (i : Nat) (methods : List FunDecl) :
    ∀ {table : List Label} {st : GenState}, st.Known →
      Ensures (FunDecl.genAll t mem table methods) st fun table' _ =>
        (∃ pre m post, methods = pre ++ m :: post ∧ t.slot? m = some (i : Int) ∧
          table'[i]? = some ⟨.function, st.emitter.labels.functions + (FunDecl.functionsAll pre).length⟩) ∨
        ((∀ m ∈ methods, t.slot? m ≠ some (i : Int)) ∧ table'[i]? = table[i]?) := by
  induction methods with
  | nil => exact fun _ => .pure (.inr ⟨nofun, rfl⟩)
  | cons m methods ih =>
    intro table st hst
    rw [FunDecl.genAll]
    refine .bind (.orFail fun declared hd => ?_)
    refine (FunDecl.adds_gen m).bind hst fun s₁ blocks _ he => .bind (.orFail fun table₁ hplace => ?_)
    refine (ih (he.known hst).1).mono fun table' _ h => ?_
    have hslot : t.slot? m = some declared.offset := by rw [Tables.slot?, hd]; rfl
    obtain ⟨k, hk, hput, hsame⟩ := placeMethod?_eq_some hplace
    -- A later method with the slot wins; otherwise the slot keeps what this method puts there, or what there
    -- was.
    obtain ⟨pre, m', post, rfl, hm', hlabel⟩ | ⟨hno, hkeep⟩ := h
    · refine .inl ⟨m :: pre, m', post, rfl, hm', ?_⟩
      rw [hlabel, he.functionCount, functionsAll, List.length_append, Nat.add_assoc]
    · by_cases hik : i = k
      · subst hik
        exact .inl ⟨[], m, methods, rfl, hk ▸ hslot, hkeep.trans hput⟩
      · refine .inr ⟨List.forall_mem_cons.2 ⟨fun heq => hik ?_, hno⟩, hkeep.trans (hsame i hik)⟩
        exact Int.natCast_inj.1 ((Option.some.inj (heq.symm.trans hslot)).trans hk)

end ObjLet
