import ObjLet.Class.Table

/-!
# Subtyping

Booleans are integers, `null` is below every reference, references follow the class hierarchy, and
functions are covariant in the result and contravariant in the parameters. Nothing else is related.

`below` decides both directions by recursion on its first type: where a parameter turns the
direction around, the variance changes and the types stay in their places (`below_flip`). `join?` is
the least upper bound of two types.
-/

namespace ObjLet

/-- Which of two types has to be below the other: `co` the first, `contra` the second. -/
inductive Variance where
  | co
  | contra

def Variance.flip : Variance → Variance
  | co => contra
  | contra => co

namespace ClassTable

/-- Whether class `a` is class `b` or descends from it. -/
def descends (t : ClassTable) (a b : ClassId) : Bool :=
  a == b || (t.layout? a).any (·.isDescendantOf b)

/-- Subtyping on types other than function types. -/
def atomBelow (t : ClassTable) : Ty → Ty → Bool
  | .int, .int | .bool, .bool | .bool, .int | .null, .null | .null, .ref _ => true
  | .ref a, .ref b => t.descends a b
  | .cls a, .cls b => a == b
  | _, _ => false

mutual

def below (t : ClassTable) : Variance → Ty → Ty → Bool
  | v, .arrow ps r, .arrow qs s => below t v r s && allBelow t v.flip ps qs
  | .co, a, b => t.atomBelow a b
  | .contra, a, b => t.atomBelow b a

/-- `below` position by position, for lists of one length. -/
def allBelow (t : ClassTable) : Variance → List Ty → List Ty → Bool
  | _, [], [] => true
  | v, a :: as, b :: bs => below t v a b && allBelow t v as bs
  | _, _, _ => false

end

mutual

theorem below_flip (t : ClassTable) (v : Variance) (a b : Ty) :
    t.below v.flip a b = t.below v b a := by
  cases a with
  | arrow ps r =>
    cases b with
    | arrow qs s => simp only [below, below_flip t v r s, allBelow_flip t v.flip ps qs]
    | _ => cases v <;> rfl
  | _ => cases b <;> cases v <;> rfl

theorem allBelow_flip (t : ClassTable) (v : Variance) (as bs : List Ty) :
    t.allBelow v.flip as bs = t.allBelow v bs as := by
  cases as with
  | nil => cases bs <;> rfl
  | cons a as =>
    cases bs with
    | nil => rfl
    | cons b bs => simp only [allBelow, below_flip t v a b, allBelow_flip t v as bs]

end

/-- Whether a `sub` may stand where a `sup` is expected. -/
def isSubtype (t : ClassTable) (sub sup : Ty) : Bool := below t .co sub sup

/-- The least type above both, if there is one: the greater of two related types, or the nearest
common ancestor of two references. -/
def join? (t : ClassTable) (a b : Ty) : Option Ty :=
  if t.isSubtype a b then some b
  else if t.isSubtype b a then some a
  else match a, b with
    | .ref c, .ref _ =>
      (t.layout? c).bind fun l => (l.lineage.map TyOf.ref).find? (t.isSubtype b)
    | _, _ => none

end ClassTable

end ObjLet
