import Mathlib.Data.List.Forall2
import ObjLet.Class.Subtype
import ObjLet.Proofs.Renaming.Failure
import ObjLet.Tables

/-!
# Renamed tables

What a renaming does to what is known of names: maps have the same values under renamed keys (`Renames`), scopes
and virtual tables among them, and layouts keep everything but the name of the class. The relations are between
what the maps say and not between the maps, since the order of the keys may change.

Looking something up under a renamed name gives the same as under the old name, and putting the same in under a
renamed name keeps the tables related. Positions of classes are not renamed, so subtyping is the same.
-/

namespace ObjLet

/-- A map has the values of another one under renamed keys, and no others. -/
structure Renames {κ ν : Type} [Ord κ] (f : κ → κ) (old new : Std.TreeMap κ ν) : Prop where
  get : ∀ k, new[f k]? = old[k]?
  source : ∀ k v, new[k]? = some v → ∃ k', f k' = k
  size : new.size = old.size

namespace Renames

variable {κ ν : Type} [Ord κ] [Std.TransOrd κ] {f : κ → κ} {old new : Std.TreeMap κ ν}

theorem empty : Renames f (∅ : Std.TreeMap κ ν) ∅ where
  get _ := by simp
  source _ _ h := by simp at h
  size := rfl

/-- Keys that differ go on differing, so an insertion under the renamed key changes the same value. -/
theorem insert [Std.LawfulEqOrd κ] (hf : f.Injective) (h : Renames f old new) (k : κ) (v : ν) :
    Renames f (old.insert k v) (new.insert (f k) v) where
  get k' := by
    have hkey : compare (f k) (f k') = .eq ↔ compare k k' = .eq := by simp [hf.eq_iff]
    simp only [Std.TreeMap.getElem?_insert, hkey, h.get]
  source k' v' h' := by
    rw [Std.TreeMap.getElem?_insert] at h'
    split at h'
    · next heq => exact ⟨k, Std.compare_eq_iff_eq.1 heq⟩
    · exact h.source k' v' h'
  size := by
    have hmem : f k ∈ new ↔ k ∈ old := by
      simp only [Std.TreeMap.mem_iff_isSome_getElem?, h.get]
    simp only [Std.TreeMap.size_insert, Std.TreeMap.contains_iff_mem, hmem, h.size]

end Renames

variable {r : Renaming}

/-! ## Scopes -/

/-- Scope by scope, a renamed name has the same entry. -/
def ScopeStack.Renames (r : Renaming) (s s' : ScopeStack) : Prop :=
  List.Forall₂ (ObjLet.Renames r.name) s.scopes s'.scopes

namespace ScopeStack.Renames

variable {s s' : ScopeStack}

/-- Scopes are opened and closed at the same places, so levels need not be renamed. -/
theorem depth (h : s.Renames r s') : s'.depth = s.depth := h.length_eq.symm

theorem level (h : s.Renames r s') : s'.level = s.level := by
  rw [ScopeStack.level, ScopeStack.level, h.depth]

/-- The new scope has to be a renamed one too; empty scopes and the members of a class are. -/
theorem push (h : s.Renames r s') {scope scope' : Scope} (hs : ObjLet.Renames r.name scope scope') :
    (s.push scope).Renames r (s'.push scope') := .cons hs h

/-- A search that finds the same in related scopes finds the same in related stacks of them. -/
theorem findSome? {α : Type} {f f' : Scope → Option α} (h : s.Renames r s')
    (hf : ∀ {scope scope' : Scope}, ObjLet.Renames r.name scope scope' → f' scope' = f scope) :
    s'.scopes.findSome? f' = s.scopes.findSome? f := by
  obtain ⟨scopes⟩ := s
  obtain ⟨scopes'⟩ := s'
  change List.Forall₂ _ scopes scopes' at h
  induction h with
  | nil => rfl
  | cons hscope _ ih => simp only [List.findSome?_cons, hf hscope, ih]

/-- A name that is shadowed is shadowed under its new name as well. -/
theorem lookup? (h : s.Renames r s') (name : String) : s'.lookup? (r.name name) = s.lookup? name :=
  h.findSome? fun hscope => hscope.get name

/-- The search skips scopes by kinds of entries, which a renaming does not touch. -/
theorem lookupClass? (h : s.Renames r s') (name : String) : s'.lookupClass? (r.name name) = s.lookupClass? name :=
  h.findSome? fun hscope => by rw [hscope.get]

theorem lookupLocal? (h : s.Renames r s') (name : String) : s'.lookupLocal? (r.name name) = s.lookupLocal? name := by
  obtain ⟨scopes⟩ := s
  obtain ⟨scopes'⟩ := s'
  cases h with
  | nil => rfl
  | cons hscope _ => exact hscope.get name

/-- Only the innermost scope changes. -/
theorem overwrite (h : s.Renames r s') (name : String) (e : Entry) :
    (s.overwrite name e).Renames r (s'.overwrite (r.name name) e) := by
  obtain ⟨scopes⟩ := s
  obtain ⟨scopes'⟩ := s'
  cases h with
  | nil => exact .nil
  | cons hscope houter => exact .cons (hscope.insert r.name_injective name e) houter

/-- A renamed name is declared where the name is, and a duplicate where the name is one. -/
theorem declare (h : s.Renames r s') (name : String) (e : Entry) :
    (∃ t t', s.declare name e = .ok t ∧ s'.declare (r.name name) e = .ok t' ∧ t.Renames r t') ∨
      ∃ existing, s.declare name e = .error existing ∧ s'.declare (r.name name) e = .error existing := by
  obtain ⟨scopes⟩ := s
  obtain ⟨scopes'⟩ := s'
  cases h with
  | nil => exact .inr ⟨e, rfl, rfl⟩
  | @cons scope scope' _ _ hscope houter =>
    simp only [ScopeStack.declare, hscope.get]
    cases scope[name]? with
    | some existing => exact .inr ⟨existing, rfl, rfl⟩
    | none => exact .inl ⟨_, _, rfl, rfl, .cons (hscope.insert r.name_injective name e) houter⟩

end ScopeStack.Renames

/-! ## Classes -/

def ClassLayout.rename (r : Renaming) (l : ClassLayout) : ClassLayout := { l with name := r.name l.name }

namespace ClassLayout

variable (r : Renaming) (l : ClassLayout)

/-- A layout holds types and no names but that of its class, so whatever is done to its members commutes with
renaming it. -/
@[simp] theorem rename_addField (ty : Ty) : (l.addField ty).rename r = (l.rename r).addField ty := rfl

@[simp] theorem rename_addMethod (sig : Signature) : (l.addMethod sig).rename r = (l.rename r).addMethod sig := rfl

@[simp] theorem rename_setField (offset : Int) (ty : Ty) :
    (l.setField offset ty).rename r = (l.rename r).setField offset ty := by
  have hindex : (l.rename r).fieldIndex? offset = l.fieldIndex? offset := rfl
  unfold setField
  rw [hindex]
  cases l.fieldIndex? offset <;> rfl

@[simp] theorem rename_setMethod (slot : Int) (sig : Signature) :
    (l.setMethod slot sig).rename r = (l.rename r).setMethod slot sig := by
  unfold setMethod
  split <;> rfl

end ClassLayout

/-- A class under its new name, with renamed members. -/
structure Class.Renames (r : Renaming) (c c' : Class) : Prop where
  layout : c'.layout = c.layout.rename r
  members : ObjLet.Renames r.name c.members c'.members

/-- Class by class, at the same positions. -/
def ClassTable.Renames (r : Renaming) (t t' : ClassTable) : Prop :=
  List.Forall₂ (Class.Renames r) t.classes t'.classes

namespace ClassTable.Renames

variable {t t' : ClassTable}

/-- Classes keep their positions in the table. -/
theorem size (h : t.Renames r t') : t'.size = t.size := h.length_eq.symm

/-- At every position both tables have a class or neither has one. -/
theorem class?_cases (h : t.Renames r t') (id : ClassId) :
    (t.class? id = none ∧ t'.class? id = none) ∨
      ∃ c c', t.class? id = some c ∧ t'.class? id = some c' ∧ c.Renames r c' := by
  obtain ⟨classes⟩ := t
  obtain ⟨classes'⟩ := t'
  change List.Forall₂ _ classes classes' at h
  induction h generalizing id with
  | nil => exact .inl ⟨rfl, rfl⟩
  | @cons c c' _ _ hc _ ih =>
    cases id with
    | zero => exact .inr ⟨c, c', rfl, rfl, hc⟩
    | succ id => exact ih id

/-- A layout is found at the same position, with the renamed name in it. -/
theorem layout? (h : t.Renames r t') (id : ClassId) : t'.layout? id = (t.layout? id).map (·.rename r) := by
  rw [ClassTable.layout?, ClassTable.layout?]
  obtain ⟨hc, hc'⟩ | ⟨c, c', hc, hc', hren⟩ := h.class?_cases id
  · rw [hc, hc']
    rfl
  · rw [hc, hc']
    exact congrArg some hren.layout

/-- Without a class there are no members on either side. -/
theorem members (h : t.Renames r t') (id : ClassId) :
    ObjLet.Renames r.name ((t.members? id).getD ∅) ((t'.members? id).getD ∅) := by
  rw [ClassTable.members?, ClassTable.members?]
  obtain ⟨hc, hc'⟩ | ⟨c, c', hc, hc', hren⟩ := h.class?_cases id
  · rw [hc, hc']
    exact .empty
  · rw [hc, hc']
    exact hren.members

/-- A member is found under its renamed name, with the same entry. -/
theorem member? (h : t.Renames r t') (id : ClassId) (name : String) :
    t'.member? id (r.name name) = t.member? id name := by
  rw [ClassTable.member?, ClassTable.members?, ClassTable.member?, ClassTable.members?]
  obtain ⟨hc, hc'⟩ | ⟨c, c', hc, hc', hren⟩ := h.class?_cases id
  · rw [hc, hc']
    rfl
  · rw [hc, hc']
    exact hren.members.get name

/-- The first class of a name is the first one of its renamed name, since other names do not become equal to it. -/
theorem lookup? (h : t.Renames r t') (name : String) : t'.lookup? (r.name name) = t.lookup? name := by
  obtain ⟨classes⟩ := t
  obtain ⟨classes'⟩ := t'
  change List.Forall₂ _ classes classes' at h
  induction h with
  | nil => rfl
  | cons hc _ ih =>
    simp only [ClassTable.lookup?, List.findIdx?_cons, hc.layout, ClassLayout.rename, beq_iff_eq,
      r.name_injective.eq_iff] at ih ⊢
    rw [ih]

/-- Only of classes that have been declared: the name that stands for a missing class is not renamed. -/
theorem nameOf (h : t.Renames r t') {id : ClassId} (hid : id < t.size) : t'.nameOf id = r.name (t.nameOf id) := by
  have hl : t.layout? id = some t.classes[id].layout := by
    rw [ClassTable.layout?, ClassTable.class?, List.getElem?_eq_getElem hid]
    rfl
  rw [ClassTable.nameOf, ClassTable.nameOf, h.layout?, hl]
  rfl

theorem declare (h : t.Renames r t') (name : String) (sup : Option ClassId) :
    (t.declare name sup).2.Renames r (t'.declare (r.name name) sup).2 := by
  refine List.rel_append h (.cons ?_ .nil)
  rw [h.size]
  cases sup with
  | none => exact ⟨rfl, .empty⟩
  | some p =>
    rw [Option.bind_some, Option.bind_some]
    obtain ⟨hc, hc'⟩ | ⟨c, c', hc, hc', hren⟩ := h.class?_cases p
    · rw [hc, hc']
      exact ⟨rfl, .empty⟩
    · rw [hc, hc']
      exact ⟨by simp only [newClass, hren.layout]; rfl, hren.members⟩

/-- A class may be changed in any way that respects renaming. -/
theorem modify (h : t.Renames r t') (id : ClassId) {f f' : Class → Class}
    (hf : ∀ c c', c.Renames r c' → (f c).Renames r (f' c')) : (t.modify id f).Renames r (t'.modify id f') := by
  obtain ⟨classes⟩ := t
  obtain ⟨classes'⟩ := t'
  change List.Forall₂ _ classes classes' at h
  change List.Forall₂ _ (classes.modify id f) (classes'.modify id f')
  induction h generalizing id with
  | nil => cases id <;> exact .nil
  | cons hc hrest ih =>
    cases id with
    | zero => exact .cons (hf _ _ hc) hrest
    | succ id => exact .cons hc (ih id)

/-- Layouts are changed without looking at the name in them. -/
theorem modifyLayout (h : t.Renames r t') (id : ClassId) {f : ClassLayout → ClassLayout}
    (hf : ∀ l, (f l).rename r = f (l.rename r)) : (t.modifyLayout id f).Renames r (t'.modifyLayout id f) :=
  h.modify id fun c c' hc => ⟨by rw [hc.layout, hf], hc.members⟩

/-- Members go in under their renamed names. -/
theorem insertMember (h : t.Renames r t') (id : ClassId) (name : String) (e : Entry) :
    (t.insertMember id name e).Renames r (t'.insertMember id (r.name name) e) :=
  h.modify id fun _ _ hc => ⟨hc.layout, hc.members.insert r.name_injective name e⟩

/-! ### Subtyping -/

/-- Descent is a matter of positions. -/
theorem descends (h : t.Renames r t') (a b : ClassId) : t'.descends a b = t.descends a b := by
  rw [ClassTable.descends, ClassTable.descends, h.layout?, Option.any_map]
  rfl

theorem atomBelow (h : t.Renames r t') (a b : Ty) : t'.atomBelow a b = t.atomBelow a b := by
  cases a <;> cases b <;> first | rfl | exact h.descends _ _

mutual

/-- By recursion over both types; a renaming does not enter it, so the two sides take the same branches. -/
theorem below (h : t.Renames r t') (v : Variance) (a b : Ty) : t'.below v a b = t.below v a b := by
  cases a with
  | arrow ps ret =>
    cases b with
    | arrow qs ret' => simp only [ClassTable.below, below h v ret ret', allBelow h v.flip ps qs]
    | _ => cases v <;> exact h.atomBelow _ _
  | _ => cases b <;> cases v <;> exact h.atomBelow _ _

theorem allBelow (h : t.Renames r t') (v : Variance) (as bs : List Ty) : t'.allBelow v as bs = t.allBelow v as bs := by
  cases as with
  | nil => cases bs <;> rfl
  | cons a as =>
    cases bs with
    | nil => rfl
    | cons b bs => simp only [ClassTable.allBelow, below h v a b, allBelow h v as bs]

end

/-- Subtyping is the same in both tables. -/
theorem isSubtype (h : t.Renames r t') (a b : Ty) : t'.isSubtype a b = t.isSubtype a b := h.below .co a b

/-- Joins are found among ancestors, which are positions. -/
theorem join? (h : t.Renames r t') (a b : Ty) : t'.join? a b = t.join? a b := by
  have hsub : t'.isSubtype = t.isSubtype := by
    funext a b
    exact h.isSubtype a b
  unfold ClassTable.join?
  rw [hsub]
  congr 2
  cases a <;> cases b <;> try rfl
  change (t'.layout? _).bind _ = (t.layout? _).bind _
  rw [h.layout?, Option.bind_map]
  rfl

end ClassTable.Renames

/-! ## Tables -/

/-- The same is recorded under renamed node ids. -/
structure Resolutions.Renames (r : Renaming) (t t' : Resolutions) : Prop where
  uses : ObjLet.Renames r.node t.uses t'.uses
  methodCalls : ObjLet.Renames r.node t.methodCalls t'.methodCalls
  declarations : ObjLet.Renames r.node t.declarations t'.declarations

namespace Resolutions.Renames

variable {t t' : Resolutions}

/-- Nodes keep their resolutions under their new ids. -/
theorem use? (h : t.Renames r t') (id : NodeId) : t'.use? (r.node id) = t.use? id := h.uses.get id

theorem methodCall? (h : t.Renames r t') (id : NodeId) : t'.methodCall? (r.node id) = t.methodCall? id :=
  h.methodCalls.get id

theorem declaration? (h : t.Renames r t') (id : NodeId) : t'.declaration? (r.node id) = t.declaration? id :=
  h.declarations.get id

/-- A finding records the same under the renamed id, or nothing if it is an error. -/
theorem record (h : t.Renames r t') (f : Finding) : (t.record f).Renames r (t'.record (f.rename r)) := by
  cases f with
  | use id use => exact ⟨h.uses.insert r.node_injective id use, h.methodCalls, h.declarations⟩
  | methodCall id call => exact ⟨h.uses, h.methodCalls.insert r.node_injective id call, h.declarations⟩
  | declaration id e => exact ⟨h.uses, h.methodCalls, h.declarations.insert r.node_injective id e⟩
  | error => exact h

end Resolutions.Renames

/-- The tables that renamed findings fill. -/
theorem Findings.resolutions_rename (r : Renaming) (fs : Findings) :
    fs.resolutions.Renames r (fs.rename r).resolutions := by
  have hall : ∀ (fs : Findings) {t t' : Resolutions}, t.Renames r t' →
      (fs.foldl Resolutions.record t).Renames r ((fs.rename r).foldl Resolutions.record t') := by
    intro fs
    induction fs with
    | nil => exact fun h => h
    | cons f fs ih => exact fun h => ih (h.record f)
  exact hall fs ⟨.empty, .empty, .empty⟩

/-- Tables of a program and of the renamed program. -/
structure Tables.Renames (r : Renaming) (t t' : Tables) : Prop where
  resolutions : t.resolutions.Renames r t'.resolutions
  classes : t.classes.Renames r t'.classes

/-! ## Two renamings of one program

Positions do not come into tables. So where tables are renamed from common ones, the first of them keeping all
names and ids, the second are renamed from the first. -/

variable {m m' : Route → Span → Span}

/-- From two renamed maps of one map, the first of which keeps the keys, to a relation between the two. -/
theorem Renames.of_common {κ ν : Type} [Ord κ] {f : κ → κ} {common old new : Std.TreeMap κ ν}
    (h : Renames id common old) (h' : Renames f common new) : Renames f old new where
  get k := (h'.get k).trans (h.get k).symm
  source := h'.source
  size := h'.size.trans h.size.symm

/-- Names of classes are the same in the first table, so they are renamed once. -/
theorem Class.Renames.of_common {c₀ c c' : Class} (h : c₀.Renames (Renaming.refl.moving m) c)
    (h' : c₀.Renames (r.moving m') c') : c.Renames r c' where
  layout := by
    rw [h'.layout, h.layout]
    rfl
  members := h.members.of_common h'.members

theorem ClassTable.Renames.of_common {t₀ t t' : ClassTable} (h : t₀.Renames (Renaming.refl.moving m) t)
    (h' : t₀.Renames (r.moving m') t') : t.Renames r t' := by
  obtain ⟨classes₀⟩ := t₀
  obtain ⟨classes⟩ := t
  obtain ⟨classes'⟩ := t'
  change List.Forall₂ _ classes₀ classes at h
  change List.Forall₂ _ classes₀ classes' at h'
  change List.Forall₂ _ classes classes'
  induction h generalizing classes' with
  | nil =>
    cases h'
    exact .nil
  | cons hc _ ih =>
    cases h' with
    | cons hc' hrest' => exact .cons (hc.of_common hc') (ih _ hrest')

/-- The step that turns statements about tagged programs into statements about the programs themselves: positions
do not occur in tables. -/
theorem Tables.Renames.of_common {t₀ t t' : Tables} (h : t₀.Renames (Renaming.refl.moving m) t)
    (h' : t₀.Renames (r.moving m') t') : t.Renames r t' where
  resolutions :=
    ⟨h.resolutions.uses.of_common h'.resolutions.uses, h.resolutions.methodCalls.of_common h'.resolutions.methodCalls,
      h.resolutions.declarations.of_common h'.resolutions.declarations⟩
  classes := h.classes.of_common h'.classes

end ObjLet
