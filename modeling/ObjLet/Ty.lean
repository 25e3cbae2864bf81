/-!
# Types

`TyOf κ` are types whose classes are given by a `κ`. After name resolution classes are table
positions (`Ty`); in messages they are names (`TypeName`). Function values take two machine words,
everything else one.
-/

namespace ObjLet

/-- Position of a class in the class table. -/
abbrev ClassId := Nat

def ClassId.text (id : ClassId) : String := s!"class_{id}"

/-- Types over classes `κ`. `ref c` is the type of the instances of `c`, `cls c` that of the class
itself, and `null` that of the null reference. -/
inductive TyOf (κ : Type) where
  | int
  | bool
  | null
  | ref (c : κ)
  | cls (c : κ)
  | arrow (params : List (TyOf κ)) (ret : TyOf κ)

/-- A resolved type. -/
abbrev Ty := TyOf ClassId

/-- A type as shown to the user. -/
abbrev TypeName := TyOf String

namespace TyOf

variable {κ : Type}

mutual

def decEq [DecidableEq κ] : (a b : TyOf κ) → Decidable (a = b)
  | int, int | bool, bool | null, null => isTrue rfl
  | ref c, ref d | cls c, cls d =>
    if h : c = d then isTrue (h ▸ rfl) else isFalse fun e => h (by injection e)
  | arrow ps r, arrow qs s =>
    match decEqList ps qs, decEq r s with
    | isTrue h, isTrue k => isTrue (h ▸ k ▸ rfl)
    | isFalse h, _ => isFalse fun e => h (by injection e)
    | _, isFalse k => isFalse fun e => k (by injection e)
  | int, bool | int, null | int, ref _ | int, cls _ | int, arrow _ _
  | bool, int | bool, null | bool, ref _ | bool, cls _ | bool, arrow _ _
  | null, int | null, bool | null, ref _ | null, cls _ | null, arrow _ _
  | ref _, int | ref _, bool | ref _, null | ref _, cls _ | ref _, arrow _ _
  | cls _, int | cls _, bool | cls _, null | cls _, ref _ | cls _, arrow _ _
  | arrow _ _, int | arrow _ _, bool | arrow _ _, null | arrow _ _, ref _ | arrow _ _, cls _ =>
    isFalse nofun

def decEqList [DecidableEq κ] : (as bs : List (TyOf κ)) → Decidable (as = bs)
  | [], [] => isTrue rfl
  | a :: as, b :: bs =>
    match decEq a b, decEqList as bs with
    | isTrue h, isTrue k => isTrue (h ▸ k ▸ rfl)
    | isFalse h, _ => isFalse fun e => h (by injection e)
    | _, isFalse k => isFalse fun e => k (by injection e)
  | [], _ :: _ | _ :: _, [] => isFalse nofun

end

instance [DecidableEq κ] : DecidableEq (TyOf κ) := decEq

/-- Machine words of a value: a function value is its frame and its code address. -/
def words : TyOf κ → Nat
  | arrow _ _ => 2
  | _ => 1

/-- Machine words of a sequence of values. -/
def totalWords : List (TyOf κ) → Nat
  | [] => 0
  | t :: ts => t.words + totalWords ts

def isReference : TyOf κ → Bool
  | ref _ => true
  | _ => false

/-- The class whose instances have this type. -/
def class? : TyOf κ → Option κ
  | ref c => some c
  | _ => none

def isArrow : TyOf κ → Bool
  | arrow _ _ => true
  | _ => false

mutual

/-- The text of a type, given the texts of `ref c` and `cls c`. -/
def render (refText clsText : κ → String) : TyOf κ → String
  | int => "int"
  | bool => "bool"
  | null => "null"
  | ref c => refText c
  | cls c => clsText c
  | arrow ps r =>
    "(" ++ ", ".intercalate (renderAll refText clsText ps) ++ ") -> " ++ render refText clsText r

def renderAll (refText clsText : κ → String) : List (TyOf κ) → List String
  | [] => []
  | t :: ts => render refText clsText t :: renderAll refText clsText ts

end

mutual

/-- Replace every class. -/
def map {ι : Type} (f : κ → ι) : TyOf κ → TyOf ι
  | int => int
  | bool => bool
  | null => null
  | ref c => ref (f c)
  | cls c => cls (f c)
  | arrow ps r => arrow (mapAll f ps) (map f r)

def mapAll {ι : Type} (f : κ → ι) : List (TyOf κ) → List (TyOf ι)
  | [] => []
  | t :: ts => map f t :: mapAll f ts

end

theorem totalWords_append (ts us : List (TyOf κ)) :
    totalWords (ts ++ us) = totalWords ts + totalWords us := by
  induction ts with
  | nil => simp [totalWords]
  | cons t ts ih => simp [totalWords, ih, Nat.add_assoc]

theorem words_pos (t : TyOf κ) : 0 < t.words := by
  cases t <;> simp [words]

end TyOf

/-- The text of a type by class positions. -/
def Ty.text (t : Ty) : String :=
  TyOf.render (fun c => "ref " ++ ClassId.text c) (fun c => "class " ++ ClassId.text c) t

/-- The text of a type by class names. -/
def TypeName.text (t : TypeName) : String :=
  TyOf.render id ("class " ++ ·) t

/-- What a function or a method takes and returns. -/
structure Signature where
  params : List Ty
  ret : Ty
deriving DecidableEq

namespace Signature

def arity (s : Signature) : Nat := s.params.length

/-- The type of a function with this signature. -/
def ty (s : Signature) : Ty := .arrow s.params s.ret

/-- Machine words taken by the arguments. -/
def paramWords (s : Signature) : Nat := TyOf.totalWords s.params

def returnsFunction (s : Signature) : Bool := s.ret.isArrow

end Signature

/-- The signature of a function type. -/
def Ty.signature? : Ty → Option Signature
  | .arrow params ret => some ⟨params, ret⟩
  | _ => none

@[simp] theorem Ty.signature?_ty (s : Signature) : Ty.signature? s.ty = some s := rfl

theorem Ty.signature?_eq_some {t : Ty} {s : Signature} : Ty.signature? t = some s ↔ t = s.ty := by
  cases t <;> simp [Ty.signature?, Signature.ty]
  cases s; simp

end ObjLet
