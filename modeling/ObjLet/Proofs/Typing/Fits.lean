import ObjLet.Proofs.Binding.Recorded
import ObjLet.Proofs.Class.Evolve

/-!
# Environments that fit the final tables

Types are checked with the tables of the whole program, while a name is bound in the environment of its
place, where classes are still missing or only partly built. `Env.Fits` says how the two go together:
entries know their level and have the type that their kind asks for, and every class of the environment
is in the final table, where a member may have got a subtype but no other place (`Scope.Refines`).
-/

namespace ObjLet

/-- The type of an entry is one that its kind can have. -/
structure Entry.Fits (t : ClassTable) (e : Entry) : Prop where
  cls : e.kind = .cls → ∃ c l, e.ty = .cls c ∧ t.layout? c = some l
  callable : e.kind = .func ∨ e.kind = .method → ∃ sig : Signature, e.ty = sig.ty

theorem Entry.Fits.declaredClass? {t : ClassTable} {e : Entry} (h : e.Fits t) (hk : e.kind = .cls) :
    ∃ c l, e.declaredClass? = some c ∧ e.ty = .cls c ∧ t.layout? c = some l := by
  obtain ⟨c, l, hty, hl⟩ := h.cls hk
  exact ⟨c, l, by simp [Entry.declaredClass?, hk, hty], hty, hl⟩

/-- Every name keeps its kind and its place; its type may become a subtype. -/
def Scope.Refines (t : ClassTable) (old new : Scope) : Prop :=
  ∀ (name : String) (e : Entry), old[name]? = some e → ∃ e', new[name]? = some e' ∧
    e'.kind = e.kind ∧ e'.level = e.level ∧ e'.offset = e.offset ∧ t.isSubtype e'.ty e.ty

theorem Scope.Refines.refl (t : ClassTable) (s : Scope) : s.Refines t s :=
  fun _ e he => ⟨e, he, rfl, rfl, rfl, t.isSubtype_refl e.ty⟩

theorem Scope.Refines.trans {t : ClassTable} (ht : t.Lineal) {a b c : Scope} (hab : a.Refines t b)
    (hbc : b.Refines t c) : a.Refines t c := by
  intro name e he
  obtain ⟨e', he', hk, hl, ho, hs⟩ := hab name e he
  obtain ⟨e'', he'', hk', hl', ho', hs'⟩ := hbc name e' he'
  exact ⟨e'', he'', hk'.trans hk, hl'.trans hl, ho'.trans ho, ClassTable.isSubtype_trans ht hs' hs⟩

/-- The environment of a place of a program, as the final tables see it. -/
structure Env.Fits (t : Tables) (env : Env) : Prop where
  nonempty : env.scopes.scopes ≠ []
  /-- An entry has the level of its scope. -/
  level : ∀ {i : Nat} {s : Scope} {name : String} {e : Entry}, env.scopes.scopes[i]? = some s →
    s[name]? = some e → e.level + i + 1 = env.scopes.depth
  entry : ∀ {s : Scope} {name : String} {e : Entry}, s ∈ env.scopes.scopes → s[name]? = some e →
    e.Fits t.classes
  /-- A class of the environment has become one of the final table. -/
  classes : ∀ {id : ClassId} {c : Class}, env.classes.class? id = some c →
    ∃ c', t.classes.class? id = some c' ∧ c'.layout.head = c.layout.head ∧
      c.members.Refines t.classes c'.members
  member : ∀ {id : ClassId} {c : Class} {name : String} {e : Entry},
    env.classes.class? id = some c → c.members[name]? = some e → e.Fits t.classes

namespace Env

variable {t : Tables} {env : Env}

theorem Fits.depth_pos (h : env.Fits t) : 0 < env.scopes.depth := List.length_pos_iff.2 h.nonempty

theorem Fits.level_succ (h : env.Fits t) : env.level + 1 = env.scopes.depth := by
  have := h.depth_pos
  simp only [Env.level, ScopeStack.level]
  omega

theorem Fits.member_of_mem (h : env.Fits t) {c : Class} (hc : c ∈ env.classes.classes)
    {name : String} {e : Entry} (he : c.members[name]? = some e) : e.Fits t.classes := by
  obtain ⟨i, hi⟩ := List.getElem?_of_mem hc
  have hid : env.classes.class? i = some c := hi
  exact h.member hid he

/-- A clean declaration puts the entry into the innermost scope, which did not have the name. -/
theorem declare_of_recorded {r : Resolutions} {id : NodeId} {name : Name} {e : Entry}
    (h : Findings.Recorded r (env.declare id name e).2) :
    r.declaration? id = some e ∧ ∃ s outer, env.scopes.scopes = s :: outer ∧
      s[name.text]? = none ∧
      (env.declare id name e).1 = { env with scopes := ⟨s.insert name.text e :: outer⟩ } := by
  unfold declare at h ⊢
  split at h
  · next scopes hd =>
    rw [Findings.recorded_cons] at h
    refine ⟨h.1, ?_⟩
    unfold ScopeStack.declare at hd
    split at hd
    · cases hd
    next s outer hs =>
    split at hd
    · cases hd
    · next hn =>
      cases hd
      exact ⟨s, outer, hs, hn, rfl⟩
  · simp only [Findings.recorded_cons] at h
    exact h.2.1.elim

/-- Declaring a fitting entry of the right level. -/
theorem Fits.declare (h : env.Fits t) (id : NodeId) (name : Name) {e : Entry}
    (hlevel : e.level = env.level) (he : e.Fits t.classes) : (env.declare id name e).1.Fits t := by
  unfold Env.declare
  split
  swap
  · exact h
  next scopes hd =>
  unfold ScopeStack.declare at hd
  split at hd
  · cases hd
  next s outer hs =>
  split at hd
  · cases hd
  cases hd
  have hdepth : env.scopes.depth = outer.length + 1 := by simp [ScopeStack.depth, hs]
  -- A rejected declaration changes nothing; from here on the name is new in the innermost scope.
  have hsucc := h.level_succ
  refine ⟨by simp, ?_, ?_, h.classes, h.member⟩
  · intro i s' n e' hi hn'
    have hlen : (ScopeStack.mk (s.insert name.text e :: outer)).depth = env.scopes.depth := by
      simp [ScopeStack.depth, hs]
    change _ = (ScopeStack.mk (s.insert name.text e :: outer)).depth
    rw [hlen]
    cases i with
    | zero =>
      simp only [List.getElem?_cons_zero, Option.some.injEq] at hi
      subst hi
      rw [Scope.getElem?_insert] at hn'
      split at hn'
      · cases hn'
        omega
      · exact h.level (i := 0) (by simp [hs]) hn'
    | succ i => exact h.level (i := i + 1) (by simpa [hs] using hi) hn'
  · intro s' n e' hmem hn'
    rcases List.mem_cons.1 hmem with rfl | hmem
    · rw [Scope.getElem?_insert] at hn'
      split at hn'
      · cases hn'
        exact he
      · exact h.entry (by simp [hs]) hn'
    · exact h.entry (by simp [hs, hmem]) hn'

theorem Fits.declareLocal (h : env.Fits t) (id : NodeId) (name : Name) {kind : EntryKind} {ty : Ty}
    (he : (Entry.mk kind env.level env.nextLocal ty).Fits t.classes) :
    (env.declareLocal id name kind ty).1.Fits t := by
  have h' : Fits t { env with nextLocal := env.nextLocal - ty.words } :=
    ⟨h.nonempty, h.level, h.entry, h.classes, h.member⟩
  exact h'.declare id name rfl he

/-- Entering a scope whose entries have the right level. -/
theorem Fits.push (h : env.Fits t) {s : Scope} (n : Int)
    (hlevel : ∀ (name : String) (e : Entry), s[name]? = some e → e.level = env.scopes.depth)
    (hs : ∀ (name : String) (e : Entry), s[name]? = some e → e.Fits t.classes) :
    Fits t { env with scopes := env.scopes.push s, nextLocal := n } := by
  refine ⟨by simp [ScopeStack.push], ?_, ?_, h.classes, h.member⟩
  · intro i s' name e hi he
    have hd : (env.scopes.push s).depth = env.scopes.depth + 1 := by
      simp [ScopeStack.depth, ScopeStack.push]
    change _ = (env.scopes.push s).depth
    rw [hd]
    cases i with
    | zero =>
      simp only [ScopeStack.push, List.getElem?_cons_zero, Option.some.injEq] at hi
      subst hi
      rw [hlevel name e he]
    | succ i =>
      have := h.level (i := i) hi he
      omega
  · intro s' name e hmem he
    rcases List.mem_cons.1 hmem with rfl | hmem
    · exact hs name e he
    · exact h.entry hmem he

theorem Fits.enterFrame (h : env.Fits t) : env.enterFrame.Fits t :=
  h.push _ (fun name e he => by simp at he) (fun name e he => by simp at he)

theorem Fits.declareParams (ps : List (Param × Ty)) :
    ∀ {env : Env} {next : Int}, env.Fits t → (env.declareParams next ps).1.Fits t := by
  induction ps with
  | nil => exact fun h => h
  | cons p ps ih =>
    intro env next h
    simp only [Env.declareParams]
    exact ih (h.declare _ _ rfl ⟨by rintro ⟨⟩, by rintro (h | h) <;> cases h⟩)

/-- The entry that a name stands for is in one of the scopes. -/
theorem lookup?_eq_some {s : ScopeStack} {name : String} {e : Entry} (h : s.lookup? name = some e) :
    ∃ (i : Nat) (sc : Scope), s.scopes[i]? = some sc ∧ sc[name]? = some e := by
  obtain ⟨sc, hmem, hsc⟩ := List.exists_of_findSome?_eq_some h
  obtain ⟨i, hi⟩ := List.getElem?_of_mem hmem
  exact ⟨i, sc, hi, hsc⟩

theorem lookupClass?_eq_some {s : ScopeStack} {name : String} {e : Entry}
    (h : s.lookupClass? name = some e) :
    ∃ (i : Nat) (sc : Scope), s.scopes[i]? = some sc ∧ sc[name]? = some e ∧ e.kind = .cls := by
  obtain ⟨sc, hmem, hsc⟩ := List.exists_of_findSome?_eq_some h
  obtain ⟨i, hi⟩ := List.getElem?_of_mem hmem
  rw [Option.filter_eq_some_iff] at hsc
  exact ⟨i, sc, hi, hsc.1, by simpa using hsc.2⟩

theorem Fits.lookup? (h : env.Fits t) {name : String} {e : Entry}
    (he : env.scopes.lookup? name = some e) : e.Fits t.classes := by
  obtain ⟨i, sc, hi, hsc⟩ := lookup?_eq_some he
  exact h.entry (List.mem_of_getElem? hi) hsc

theorem Fits.lookupClass? (h : env.Fits t) {name : String} {e : Entry}
    (he : env.scopes.lookupClass? name = some e) :
    ∃ c l, e.declaredClass? = some c ∧ e.ty = .cls c ∧ t.classes.layout? c = some l := by
  obtain ⟨i, sc, hi, hsc, hk⟩ := lookupClass?_eq_some he
  exact (h.entry (List.mem_of_getElem? hi) hsc).declaredClass? hk

end Env

end ObjLet
