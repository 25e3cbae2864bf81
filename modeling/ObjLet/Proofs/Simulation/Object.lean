import ObjLet.Proofs.Class.Laid
import ObjLet.Proofs.Simulation.Store

/-!
# Building an object

`Code.newObject` moves the values of the fields from the stack to the heap, last word first, puts the address
of the dispatch table above them and leaves the address of that word on the stack. The layout of the class counts
the fields down from there, so every word of every field is where its offset says
(`CodeUnit.Holds.run_newObject`). At its deepest the stack is three words below the values that have been
moved, so stack and heap must be four words apart; if they are not, the address of the dispatch table is lost.
-/

namespace ObjLet

variable {T : Target} {u : CodeUnit} {m m' : Machine}

/-! ## Fields -/

/-- The words of a value lie as far behind the first word of all values as its offset is below the first one. -/
theorem exists_word_of_offset {next o x : Int} {tys : List Ty} {values : List (List Int)} {v : List Int} {k j : Nat}
    (hvalues : List.Forall₂ (fun ty v => v.length = ty.words) tys values) (ho : (offsetsBelow next tys)[k]? = some o)
    (hv : values[k]? = some v) (hx : v[j]? = some x) :
    ∃ i : Nat, o - j = next - i ∧ values.flatten[i]? = some x := by
  induction hvalues generalizing next k with
  | nil => cases hv
  | @cons ty first tys values hfirst _ ih =>
    cases k with
    | zero =>
      cases ho
      cases hv
      refine ⟨j, rfl, ?_⟩
      rw [List.flatten_cons, List.getElem?_append_left (List.getElem?_eq_some_iff.1 hx).1, hx]
    | succ k =>
      obtain ⟨i, hi, hword⟩ := ih ho hv
      refine ⟨first.length + i, by omega, ?_⟩
      rw [List.flatten_cons, List.getElem?_append_right (by omega), Nat.add_sub_cancel_left, hword]

/-- The values of the fields take as many words as their types say. -/
theorem length_flatten_values {tys : List Ty} {values : List (List Int)}
    (hvalues : List.Forall₂ (fun ty v => v.length = ty.words) tys values) :
    values.flatten.length = TyOf.totalWords tys := by
  induction hvalues with
  | nil => rfl
  | cons hfirst _ ih => rw [List.flatten_cons, List.length_append, hfirst, ih, TyOf.totalWords]

/-! ## Code -/

/-- Words are moved from the stack to the heap one after the other. -/
theorem CodeUnit.Holds.run_heapStores {n : Nat} (h : u.Holds m.ip (List.replicate n Code.heapStore).flatten)
    (h0 : 0 ≤ m.hp) (hroom : m.hp + 2 ≤ m.sp) (hend : m.sp + n ≤ T.memory) :
    ∃ m', T.run u (List.replicate n Code.heapStore).flatten.length m = .ok m' ∧
      m'.ip = m.ip + (List.replicate n Code.heapStore).flatten.length ∧ m.Unloads n m' := by
  induction n generalizing m with
  | zero =>
    refine ⟨m, rfl, rfl, ?_⟩
    exact ⟨(Int.add_zero _).symm, (Int.add_zero _).symm, rfl, rfl, rfl, rfl, nofun, fun _ _ => rfl⟩
  | succ n ih =>
    rw [List.replicate_succ, List.flatten_cons] at h ⊢
    obtain ⟨m₁, hrun, hip, hfirst⟩ := h.left.run_heapStore (T := T) h0 hroom (by omega)
    have hsp := hfirst.sp
    have hhp := hfirst.hp
    obtain ⟨m₂, hrun₂, hip₂, hothers⟩ := ih (m := m₁) (hip ▸ h.right) (by omega) (by omega) (by omega)
    refine ⟨m₂, ?_, ?_, Nat.add_comm 1 n ▸ hfirst.trans hothers hroom⟩
    · rw [List.length_append, Target.run_add, hrun]
      exact hrun₂
    · rw [hip₂, hip, List.length_append, Nat.add_assoc]

/-- The word at an address is put on the heap, and where it is there on the stack. -/
theorem Code.takes_table {a : Int} (h0 : 0 ≤ m.hp) (hroom : m.hp + 4 ≤ m.sp) (hle : m.sp ≤ T.memory)
    (ha : T.InRange a) (hfree : a + 3 < m.sp ∨ m.sp ≤ a) :
    Takes T (m.sp - 3) ([.push a, .loadWord, .load .hp, .storeWord, .load .hp] ++ heapBump) m
      (((m.write m.hp (m.mem a)).pushed m.hp).setRegister .hp (m.hp + 1)) := by
  have hpush : Takes T (m.sp - 3) [.push a] m (m.pushed a) := .push ⟨h0, by omega, hle⟩ a
  have hload : Takes T (m.sp - 3) [.loadWord] (m.pushed a) (m.pushed (m.mem a)) :=
    .loadWord h0 hle (by omega) (by omega) ha (hfree.imp_left fun h => by omega)
  have haddress : Takes T (m.sp - 3) [.load .hp] (m.pushed (m.mem a)) ((m.pushed (m.mem a)).pushed m.hp) :=
    .load (m := m.pushed _) ⟨h0, show m.hp < m.sp - 1 by omega, show m.sp - 1 ≤ T.memory by omega⟩ .hp
  have hstore : Takes T (m.sp - 3) [.storeWord] ((m.pushed (m.mem a)).pushed m.hp)
      ((m.pushed (m.mem a)).popped.write m.hp (m.pushed (m.mem a)).top) :=
    .storeWord (m := m.pushed _) h0 (show m.hp < m.sp - 1 by omega) (show m.sp - 3 < m.sp - 1 by omega)
      (show m.sp - 1 < T.memory by omega) ⟨h0, by omega⟩
  rw [Machine.top_pushed] at hstore
  have hstored := hstore.congr ((Machine.Agrees.popped_pushed (by omega) _).write _ _)
  have hresult : Takes T (m.sp - 3) [.load .hp] (m.write m.hp (m.mem a)) ((m.write m.hp (m.mem a)).pushed m.hp) :=
    .load (m := m.write _ _) ⟨h0, show m.hp < m.sp by omega, hle⟩ .hp
  have hbump : Takes T (m.sp - 3) heapBump ((m.write m.hp (m.mem a)).pushed m.hp)
      (((m.write m.hp (m.mem a)).pushed m.hp).setRegister .hp (m.hp + 1)) :=
    takes_heapBump (m := (m.write _ _).pushed _) h0 (show m.sp - 1 ≤ T.memory by omega)
      (show m.hp + 2 ≤ m.sp - 1 by omega) (show m.sp - 3 + 2 ≤ m.sp - 1 by omega)
  exact (hpush.append (hload.append (haddress.append (hstored.append hresult)))).append hbump

/-! ## Objects -/

namespace Machine

/-- An address that an object of `n` words does not take, and that the stack does not reach while the object is
built. -/
def Spared (m : Machine) (n : Nat) (b : Int) : Prop :=
  (b < m.hp ∨ m.hp + n < b) ∧ (b + 1 < m.sp ∧ b + 3 < m.sp + n ∨ m.sp + n ≤ b)

/-- An object has been built from `n` words on the stack and the address of a dispatch table. -/
structure Builds (m : Machine) (n : Nat) (table : Int) (m' : Machine) : Prop where
  sp : m'.sp = m.sp + n - 1
  object : m'.top = m.hp + n
  hp : m'.hp = m.hp + n + 1
  fp : m'.fp = m.fp
  ra : m'.ra = m.ra
  tm : m'.tm = m.tm
  out : m'.out = m.out
  table : m'.mem (m.hp + n) = table
  word : ∀ i < n, m'.mem (m.hp + i) = m.mem (m.sp + i)
  rest : ∀ {b : Int}, m.Spared n b → m'.mem b = m.mem b

end Machine

/-- An object is built from the words on the stack, with the address of its dispatch table, read at `a`, on top. -/
theorem CodeUnit.Holds.run_newWords {n : Nat} {a : Int} (h : u.Holds m.ip (Code.newObject n a)) (h0 : 0 ≤ m.hp)
    (hroom : m.hp + 4 ≤ m.sp) (hend : m.sp + n ≤ T.memory) (ha : T.InRange a) (hspared : m.Spared n a) :
    ∃ m', T.run u (Code.newObject n a).length m = .ok m' ∧ m'.ip = m.ip + (Code.newObject n a).length ∧
      m.Builds n (m.mem a) m' := by
  rw [Code.newObject, List.append_assoc] at h ⊢
  obtain ⟨m₁, hrun₁, hip₁, hunload⟩ := h.left.run_heapStores (T := T) h0 (by omega) hend
  have hsp := hunload.sp
  have hhp := hunload.hp
  -- Neither the words that are moved nor the deepest point of the stack reach a spared address.
  have hdeep : ∀ {b : Int}, m.Spared n b → m₁.mem b = m.mem b :=
    fun hb => hunload.rest (hb.1.imp_right fun hb => by omega) (hb.2.imp_left And.left)
  have htable := Code.takes_table (T := T) (m := m₁) (a := a) (by omega) (by omega) (by omega) ha
    (hspared.2.imp (fun hb => by omega) fun hb => by omega)
  obtain ⟨m', hrun, hip, hlike⟩ := htable u m₁ (hip₁ ▸ h.right) (.refl _ _)
  have hkeep : ∀ {b : Int}, b ≠ m₁.hp → b < m₁.sp - 3 ∨ m₁.sp ≤ b → m'.mem b = m₁.mem b := by
    intro b hb hfree
    rw [hlike.mem (hfree.imp_right fun hfree => show m₁.sp - 1 ≤ b by omega)]
    exact (if_neg (show b ≠ m₁.sp - 1 by omega)).trans (if_neg hb)
  have htop : m'.top = m₁.hp := hlike.top.trans (if_pos rfl)
  have hsp' : m'.sp = m₁.sp - 1 := hlike.sp
  have hhp' : m'.hp = m₁.hp + 1 := hlike.hp
  refine ⟨m', ?_, ?_, by omega, htop.trans hhp, by omega, hlike.fp.trans hunload.fp, hlike.ra.trans hunload.ra,
    hlike.tm.trans hunload.tm, hlike.out.trans hunload.out, ?_, ?_, ?_⟩
  · rw [List.length_append, Target.run_add, hrun₁]
    exact hrun
  · rw [hip, hip₁, Nat.add_assoc, ← List.length_append]
  · rw [← hhp, ← hdeep hspared, hlike.mem (.inl (by omega))]
    exact (if_neg (show m₁.hp ≠ m₁.sp - 1 by omega)).trans (if_pos rfl)
  · intro i hi
    rw [hkeep (by omega) (.inl (by omega)), hunload.word i hi]
  · intro b hb
    obtain ⟨hheap, hstack⟩ := id hb
    rw [hkeep (by omega) (by omega), hdeep hb]

/-- An object is built as the layout of its class says: with the address of its dispatch table on top, and every word
of every field at the offset of the field, the further words below. Nothing else has changed that was on the heap or
on the stack. -/
theorem CodeUnit.Holds.run_newObject {l : ClassLayout} {values : List (List Int)} {c : Int}
    (h : u.Holds m.ip (Code.newObject l.fieldWords (T.memory + c)))
    (hvalues : List.Forall₂ (fun ty v => v.length = ty.words) l.fields values)
    (hstack : ∀ (i : Nat) (x : Int), values.flatten[i]? = some x → m.mem (m.sp + l.fieldWords - 1 - i) = x)
    (h0 : 0 ≤ m.hp) (hroom : m.hp + 4 ≤ m.sp) (hend : m.sp + l.fieldWords ≤ T.memory)
    (hslot : T.InRange (T.memory + c)) (hspared : m.Spared l.fieldWords (T.memory + c)) :
    ∃ m', T.run u (Code.newObject l.fieldWords (T.memory + c)).length m = .ok m' ∧
      m'.ip = m.ip + (Code.newObject l.fieldWords (T.memory + c)).length ∧
      m.Builds l.fieldWords (m.mem (T.memory + c)) m' ∧
      ∀ (k : Nat) (o : Int) (v : List Int) (j : Nat) (x : Int), l.fieldOffsets[k]? = some o → values[k]? = some v →
        v[j]? = some x → m'.mem (m'.top + o - j) = x := by
  obtain ⟨m', hrun, hip, hbuilds⟩ := h.run_newWords (T := T) h0 hroom hend hslot hspared
  refine ⟨m', hrun, hip, hbuilds, ?_⟩
  intro k o v j x ho hv hx
  obtain ⟨i, hi, hword⟩ := exists_word_of_offset hvalues ho hv hx
  have hlt := (List.getElem?_eq_some_iff.1 hword).1
  rw [length_flatten_values hvalues] at hlt
  have hfrom : (i : Int) < l.fieldWords := Int.ofNat_lt.2 hlt
  -- The last word on the stack is the first one moved, so the words are counted from the other end.
  have hmoved := hbuilds.word (l.fieldWords - 1 - i) (by omega)
  rw [show m.hp + (l.fieldWords - 1 - i : Nat) = m.hp + l.fieldWords + o - j by omega,
    show m.sp + (l.fieldWords - 1 - i : Nat) = m.sp + l.fieldWords - 1 - i by omega] at hmoved
  rw [hbuilds.object, hmoved, hstack i x hword]

/-- Fields of one word around a field of two. -/
def ClassLayout.mixed : ClassLayout where
  id := 0
  name := "Mixed"
  superclass := none
  fields := [.int, .arrow [.int] .int, .int]
  methods := []
  ancestors := []

/-- The values of the fields are on the stack, and the address of the dispatch table is in the first word of the
outermost frame. -/
def Machine.beforeMixed : Machine where
  ip := 0
  sp := 90
  fp := 100
  hp := 10
  ra := 0
  tm := 0
  mem b := if b = 93 then 1 else if b = 92 then 2 else if b = 91 then 3 else if b = 90 then 4
    else if b = 99 then 5 else 0
  out := []

/-- Three fields, of which the middle one has two words: the first word of each field is where its offset says,
and below it the second. -/
theorem CodeUnit.Holds.run_newObject_mixed :
    ∃ m', (Target.unbounded 100).run ⟨Code.newObject 4 99⟩ 33 Machine.beforeMixed = .ok m' ∧ m'.sp = 93 ∧
      m'.hp = 15 ∧ m'.mem 93 = 14 ∧ m'.mem 14 = 5 ∧ m'.mem 13 = 1 ∧ m'.mem 12 = 2 ∧ m'.mem 11 = 3 ∧
      m'.mem 10 = 4 ∧ m'.mem 99 = 5 := by
  have h : CodeUnit.Holds ⟨Code.newObject 4 99⟩ Machine.beforeMixed.ip (Code.newObject 4 99) := ⟨[], [], rfl, rfl⟩
  have hvalues : List.Forall₂ (fun (ty : Ty) (v : List Int) => v.length = ty.words) ClassLayout.mixed.fields
      [[1], [2, 3], [4]] := .cons rfl (.cons rfl (.cons rfl .nil))
  have hstack : ∀ (i : Nat) (x : Int), [[1], [2, 3], [4]].flatten[i]? = some x →
      Machine.beforeMixed.mem (90 + 4 - 1 - i) = x := by
    intro i x hx
    match i, hx with
    | 0, rfl | 1, rfl | 2, rfl | 3, rfl => rfl
  obtain ⟨m', hrun, -, hbuilds, hfields⟩ := run_newObject (T := .unbounded 100) (m := .beforeMixed) (c := -1)
    h hvalues hstack (by decide) (by decide) (by decide) (by decide) ⟨.inr (by decide), .inr (by decide)⟩
  have hsp : m'.sp = 93 := hbuilds.sp
  have htop : m'.top = 14 := hbuilds.object
  rw [htop] at hfields
  refine ⟨m', hrun, hsp, hbuilds.hp, hsp ▸ htop, hbuilds.table, ?_, ?_, ?_, ?_, ?_⟩
  · exact hfields 0 (-1) [1] 0 1 rfl rfl rfl
  · exact hfields 1 (-2) [2, 3] 0 2 rfl rfl rfl
  · exact hfields 1 (-2) [2, 3] 1 3 rfl rfl rfl
  · exact hfields 2 (-4) [4] 0 4 rfl rfl rfl
  · exact hbuilds.rest ⟨.inr (by decide), .inr (by decide)⟩

end ObjLet
