import ObjLet.Entry
import Std.Data.TreeMap

/-!
# Scopes

A `Scope` holds the names declared at one nesting level, and a `ScopeStack` the scopes around a
point of the program, innermost first. The outermost scope has level 0. A name is found in the
innermost scope that declares it; a name is declared at most once in a scope.
-/

namespace ObjLet

/-- The names declared at one nesting level. -/
abbrev Scope := Std.TreeMap String Entry

theorem Scope.getElem?_insert (s : Scope) (name n : String) (entry : Entry) :
    (s.insert name entry)[n]? = if name = n then some entry else s[n]? := by
  simp [Std.TreeMap.getElem?_insert]

/-- What holds of the entries of a scope and of an inserted entry holds of all of them. -/
theorem Scope.forall_insert {P : String → Entry → Prop} {s : Scope}
    (h : ∀ (name : String) (entry : Entry), s[name]? = some entry → P name entry) {name : String} {entry : Entry}
    (he : P name entry) :
    ∀ (n : String) (e : Entry), (s.insert name entry)[n]? = some e → P n e := by
  intro n e hn
  rw [getElem?_insert] at hn
  split at hn
  · next heq =>
    cases hn
    rwa [← heq]
  · exact h n e hn

/-- The scopes around a point of the program. -/
structure ScopeStack where
  /-- Innermost scope first. -/
  scopes : List Scope

namespace ScopeStack

def empty : ScopeStack := ⟨[]⟩

def depth (s : ScopeStack) : Nat := s.scopes.length

/-- The level of the innermost scope, and 0 outside every scope. -/
def level (s : ScopeStack) : Nat := s.depth - 1

/-- Enter a scope that already holds some names. -/
def push (s : ScopeStack) (scope : Scope) : ScopeStack := ⟨scope :: s.scopes⟩

/-- Leave the innermost scope. -/
def pop? (s : ScopeStack) : Option (Scope × ScopeStack) :=
  match s.scopes with
  | [] => none
  | scope :: outer => some (scope, ⟨outer⟩)

/-- The entry of a name in the innermost scope. -/
def lookupLocal? (s : ScopeStack) (name : String) : Option Entry :=
  s.scopes.head?.bind (·[name]?)

/-- The entry of a name in the innermost scope that declares it. -/
def lookup? (s : ScopeStack) (name : String) : Option Entry :=
  s.scopes.findSome? (·[name]?)

/-- The entry of a name in the scope of a level. -/
def lookupAt? (s : ScopeStack) (level : Nat) (name : String) : Option Entry :=
  s.scopes.reverse[level]?.bind (·[name]?)

/-- The entry of the innermost class of a name. Names declared as something else are passed over. -/
def lookupClass? (s : ScopeStack) (name : String) : Option Entry :=
  s.scopes.findSome? fun scope => scope[name]?.filter (·.kind == .cls)

/-- Insert or replace a name in the innermost scope. -/
def overwrite (s : ScopeStack) (name : String) (entry : Entry) : ScopeStack :=
  match s.scopes with
  | [] => s
  | scope :: outer => ⟨scope.insert name entry :: outer⟩

/-- Declare a name in the innermost scope. Fails with the entry that stands in the way: the one the
scope already has for the name, or the new one itself outside every scope. -/
def declare (s : ScopeStack) (name : String) (entry : Entry) : Except Entry ScopeStack :=
  match s.scopes with
  | [] => .error entry
  | scope :: outer =>
    match scope[name]? with
    | some existing => .error existing
    | none => .ok ⟨scope.insert name entry :: outer⟩

@[simp] theorem level_push (s : ScopeStack) (scope : Scope) : (s.push scope).level = s.depth := by
  simp [level, push, depth]

theorem lookup?_push (s : ScopeStack) (scope : Scope) (name : String) :
    (s.push scope).lookup? name = scope[name]?.or (s.lookup? name) := by
  cases h : scope[name]? <;> simp [lookup?, push, h]

theorem lookupLocal?_declare {s s' : ScopeStack} {name : String} {entry : Entry}
    (h : s.declare name entry = .ok s') (n : String) :
    s'.lookupLocal? n = if name = n then some entry else s.lookupLocal? n := by
  unfold declare at h
  split at h
  · cases h
  · next scope outer hs =>
    split at h
    · cases h
    · cases h
      simp [lookupLocal?, hs, Scope.getElem?_insert]

/-- A property of all entries in the scopes. -/
def All (P : String → Entry → Prop) (s : ScopeStack) : Prop :=
  ∀ scope ∈ s.scopes, ∀ (name : String) (entry : Entry), scope[name]? = some entry → P name entry

namespace All

variable {P : String → Entry → Prop} {s : ScopeStack}

theorem insert {scope : Scope} {outer : List Scope} (h : s.All P) (hs : s.scopes = scope :: outer) {name : String}
    {entry : Entry} (he : P name entry) : All P ⟨scope.insert name entry :: outer⟩ := by
  unfold All at h
  rw [hs, List.forall_mem_cons] at h
  exact List.forall_mem_cons.2 ⟨Scope.forall_insert h.1 he, h.2⟩

theorem declare (h : s.All P) {name : String} {entry : Entry} (he : P name entry) {s' : ScopeStack}
    (hd : s.declare name entry = .ok s') : s'.All P := by
  unfold ScopeStack.declare at hd
  split at hd
  · cases hd
  · next scope outer hs =>
    split at hd
    · cases hd
    · cases hd
      exact h.insert hs he

theorem overwrite (h : s.All P) (name : String) {entry : Entry} (he : P name entry) : (s.overwrite name entry).All P := by
  unfold ScopeStack.overwrite
  split
  · exact h
  · next scope outer hs => exact h.insert hs he

end All

end ScopeStack

end ObjLet
