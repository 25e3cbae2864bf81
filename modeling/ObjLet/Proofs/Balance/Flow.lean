import Mathlib.Logic.Relation
import ObjLet.Proofs.Balance.Path

/-!
# Heights that flow through code

`Flows L a code jumps b` gives every position a height, from `a` in front of the code to `b` behind it, where
`L` gives the heights at labels. It goes by the code alone, and what it says of a position holds on all paths
to it (`Flows.acts`).

Code is put together from pieces that bring the stack from one height to another (`Code.Leads`). A piece
knows the heights at its own labels only, relative to any height below.
-/

namespace ObjLet

variable {code code' : Code} {jumps jumps' : List Effect} {L : Label → Nat} {a b h k : Nat}

namespace Code

/-! ## Positions -/

/-- Each jump takes the next of the effects that are given for calls. -/
theorem effect?_cons_zero (ins : Instruction) (code : Code) (jumps : List Effect) :
    effect? (ins :: code) jumps 0 = if ins = .jump then jumps[0]? else some ins.effect := by
  cases ins <;> simp [effect?]

/-- The jumps in front of a position. -/
def jumpsBefore (code : Code) (i : Nat) : Nat := (code.take i).count .jump

/-- Behind the first instructions, the jumps in front of them have used up their effects. -/
theorem effect?_drop (code : Code) (jumps : List Effect) (i : Nat) :
    effect? (code.drop i) (jumps.drop (code.jumpsBefore i)) 0 = effect? code jumps i := by
  simp [effect?, jumpsBefore]

theorem drop_jumpsBefore_succ {i : Nat} {ins : Instruction} (hi : code[i]? = some ins) :
    (jumps.drop (code.jumpsBefore i)).drop ([ins].count .jump) = jumps.drop (code.jumpsBefore (i + 1)) := by
  rw [List.drop_drop, jumpsBefore, jumpsBefore, List.take_add_one, hi, List.count_append]
  rfl

/-- Code is taken apart at a position, so that flows can be followed from it. -/
theorem drop_eq_cons {i : Nat} {ins : Instruction} (hi : code[i]? = some ins) :
    code.drop i = ins :: code.drop (i + 1) := by
  obtain ⟨hlt, rfl⟩ := List.getElem?_eq_some_iff.1 hi
  exact List.drop_eq_getElem_cons hlt

end Code

open Code

/-! ## Flows -/

/-- The code brings the stack from one height to another, with the heights `L` at labels. What comes behind
an unconditional branch has a height of its own. -/
inductive Flows (L : Label → Nat) : Nat → Code → List Effect → Nat → Prop where
  | nil {h : Nat} : Flows L h [] [] h
  | next {h k : Nat} {code : Code} {jumps : List Effect} {ins : Instruction} {e : Effect}
      (hf : ins.falls = true) (he : effect? (ins :: code) jumps 0 = some e) (hp : e.pops ≤ h)
      (hb : ∀ l, ins.branch? = some l → L l = h - e.pops + e.pushes)
      (hl : ∀ l, ins = .place l → L l = h)
      (hc : Flows L (h - e.pops + e.pushes) code (jumps.drop ([ins].count .jump)) k) :
      Flows L h (ins :: code) jumps k
  | branch {h h' k : Nat} {code : Code} {jumps : List Effect} {l : Label} (hl : L l = h)
      (hc : Flows L h' code jumps k) : Flows L h (.branch l :: code) jumps k

namespace Flows

theorem push {v : Int} (hc : Flows L (h + 1) code jumps k) : Flows L h (.push v :: code) jumps k :=
  .next rfl rfl (Nat.zero_le h) nofun nofun hc

/-- At a label the height must be the one that the branches to it count on. -/
theorem place {l : Label} (hl : L l = h) (hc : Flows L h code jumps k) :
    Flows L h (.place l :: code) jumps k := by
  refine .next rfl rfl (Nat.zero_le h) nofun (fun l' hl' => ?_) hc
  cases hl'
  exact hl

/-- A conditional branch pops two words whether it is taken or not. -/
theorem branchIf {ins : Instruction} {l : Label} (hins : ins = .branchEqual l ∨ ins = .branchLessEqual l)
    (hl : L l = h) (hc : Flows L h code jumps k) : Flows L (h + 2) (ins :: code) jumps k := by
  obtain rfl | rfl := hins <;>
  · refine .next rfl rfl (Nat.le_add_left 2 h) (fun l' hl' => ?_) nofun hc
    cases hl'
    exact hl

/-- Flows are put together at the height between them. -/
theorem append (h : Flows L a code jumps b) (h' : Flows L b code' jumps' k) :
    Flows L a (code ++ code') (jumps ++ jumps') k := by
  induction h with
  | nil => exact h'
  | @next h _ code jumps ins e hf he hp hb hl hc ih =>
    have hrest := ih h'
    by_cases hj : ins = .jump
    · subst hj
      cases jumps with
      | nil => simp [effect?_cons_zero] at he
      | cons e' jumps =>
        refine .next hf ?_ hp hb hl hrest
        rw [effect?_cons_zero] at he ⊢
        exact he
    · have hcount : [ins].count .jump = 0 := by simp [hj]
      refine .next hf ?_ hp hb hl ?_
      · rw [effect?_cons_zero, if_neg hj] at he ⊢
        exact he
      · rw [hcount, List.drop_zero] at hrest ⊢
        exact hrest
  | branch hl _ ih => exact .branch hl (ih h')

/-- There is an effect for each jump and no more. -/
theorem count_jump (h : Flows L a code jumps b) : code.count .jump = jumps.length := by
  induction h with
  | nil => rfl
  | @next h k code jumps ins e hf he hp hb hl hc ih =>
    rw [List.count_cons, ih, List.length_drop]
    by_cases hj : ins = .jump
    · subst hj
      cases jumps with
      | nil => simp [effect?_cons_zero] at he
      | cons e' jumps => simp
    · simp [hj]
  | branch _ _ ih => simpa [List.count_cons] using ih

/-- The height behind code tells that in front. -/
theorem start_eq {a' : Nat} (h : Flows L a code jumps b) (h' : Flows L a' code jumps b) : a = a' := by
  induction h generalizing a' with
  | nil => cases h'; rfl
  | next hf he hp hb hl hc ih =>
    cases h' with
    | next _ he' hp' _ _ hc' =>
      cases he.symm.trans he'
      have := ih hc'
      omega
    | branch => cases hf
  | branch hl hc =>
    cases h' with
    | next hf => cases hf
    | branch hl' _ => exact hl.symm.trans hl'

/-- What is left of the code behind an instruction that is passed. -/
theorem step {i : Nat} {ins : Instruction} {e : Effect}
    (h : Flows L a (code.drop i) (jumps.drop (code.jumpsBefore i)) b) (hi : code[i]? = some ins)
    (he : code.effect? jumps i = some e) :
    e.pops ≤ a ∧
      (ins.falls = true →
        Flows L (a - e.pops + e.pushes) (code.drop (i + 1)) (jumps.drop (code.jumpsBefore (i + 1))) b) ∧
      ∀ l, ins.branch? = some l → L l = a - e.pops + e.pushes := by
  rw [← effect?_drop] at he
  rw [← drop_jumpsBefore_succ hi]
  rw [drop_eq_cons hi] at h he
  cases h with
  | next hf he' hp hb hl hc =>
    cases he.symm.trans he'
    exact ⟨hp, fun _ => hc, hb⟩
  | branch hl hc =>
    rw [effect?_cons_zero, if_neg nofun] at he
    cases he
    refine ⟨Nat.zero_le _, nofun, fun l hl' => ?_⟩
    cases hl'
    exact hl

/-- The height at a label is that of `L`. -/
theorem at_place (h : Flows L a code jumps b) {j : Nat} {l : Label} (hj : code[j]? = some (.place l)) :
    Flows L (L l) (code.drop j) (jumps.drop (code.jumpsBefore j)) b := by
  induction h generalizing j with
  | nil => cases hj
  | @next h k code jumps ins e hf he hp hb hl hc ih =>
    cases j with
    | zero =>
      cases hj
      rw [hl l rfl]
      exact .next hf he hp hb hl hc
    | succ j =>
      have hrest := ih hj
      rw [List.drop_drop] at hrest
      rwa [List.drop_succ_cons, jumpsBefore, List.take_succ_cons, ← List.singleton_append,
        List.count_append]
  | @branch h h' k code jumps l' hl hc ih =>
    cases j with
    | zero => cases hj
    | succ j => exact ih hj

/-- Along a path the heights are those that flow. -/
theorem of_path (hflow : Flows L a code jumps b) {start h : Int} {i : Nat} (hp : code.Path jumps start i h) :
    ∃ n : Nat, h = start - a + n ∧ Flows L n (code.drop i) (jumps.drop (code.jumpsBefore i)) b := by
  induction hp with
  | start => exact ⟨a, by omega, hflow⟩
  | @step i j h e _ hg he ih =>
    obtain ⟨n, rfl, hn⟩ := ih
    obtain ⟨ins, hi, hgo⟩ := hg
    obtain ⟨hpops, hnext, hbranch⟩ := hn.step hi he
    refine ⟨n - e.pops + e.pushes, by omega, ?_⟩
    obtain ⟨hf, rfl⟩ | ⟨l, hl, hj⟩ := hgo
    · exact hnext hf
    · rw [← hbranch l hl]
      exact hflow.at_place hj

end Flows

/-! ## Passages -/

/-- Wherever the code stands, a path leads through it. -/
def Code.Passable (code : Code) : Prop :=
  ∀ pre post : Code, Relation.ReflTransGen (pre ++ code ++ post).Goes pre.length (pre.length + code.length)

/-- A passage needs a way through each part. -/
theorem Code.Passable.append (h : code.Passable) (h' : code'.Passable) : (code ++ code').Passable := by
  intro pre post
  have hfirst := h pre (code' ++ post)
  have hsecond := h' (pre ++ code) post
  rw [List.length_append] at hsecond ⊢
  rw [← Nat.add_assoc]
  simp only [List.append_assoc] at hfirst hsecond ⊢
  exact hfirst.trans hsecond

theorem Code.passable_nil : Code.Passable [] := fun _ _ => .refl

/-- Any instruction that does not branch away or jump can be passed. -/
theorem Code.passable_singleton (ins : Instruction) (hf : ins.falls = true) : Code.Passable [ins] :=
  fun pre post => .single ⟨ins, by simp, .inl ⟨hf, rfl⟩⟩

/-- A branch over code leads to its label. -/
theorem Code.passable_skip (l : Label) (code : Code) : Code.Passable (.branch l :: code ++ [.place l]) := by
  intro pre post
  have hplace : (pre ++ (Instruction.branch l :: code ++ [.place l]) ++
      post)[pre.length + (code.length + 1)]? = some (.place l) := by
    rw [List.append_assoc, List.getElem?_append_right (Nat.le_add_right _ _), Nat.add_sub_cancel_left]
    simp
  have hover : Code.Goes (pre ++ (.branch l :: code ++ [.place l]) ++ post) pre.length
      (pre.length + (code.length + 1)) := ⟨.branch l, by simp, .inr ⟨l, rfl, hplace⟩⟩
  refine .tail (.single hover) ⟨.place l, hplace, .inl ⟨rfl, ?_⟩⟩
  simp only [List.length_append, List.length_cons, List.length_nil]
  omega

/-- Every position on a way through the code is on a path. -/
theorem Code.exists_path (hcalls : code.count .jump = jumps.length) (start : Int) {i : Nat}
    (h : Relation.ReflTransGen code.Goes 0 i) : ∃ height, code.Path jumps start i height := by
  induction h with
  | refl => exact ⟨_, .start⟩
  | @tail i j _ hg ih =>
    obtain ⟨height, hp⟩ := ih
    obtain ⟨ins, hi, hgo⟩ := hg
    have he : ∃ e, code.effect? jumps i = some e := by
      rw [← effect?_drop, drop_eq_cons hi, effect?_cons_zero]
      by_cases hj : ins = .jump
      · rw [if_pos hj, List.getElem?_drop]
        refine ⟨_, List.getElem?_eq_getElem ?_⟩
        have hsplit : code.count .jump = code.jumpsBefore i + (code.drop i).count .jump := by
          rw [jumpsBefore, ← List.count_append, List.take_append_drop]
        rw [drop_eq_cons hi, hj, List.count_cons_self] at hsplit
        omega
      · exact ⟨_, if_neg hj⟩
    obtain ⟨e, he⟩ := he
    exact ⟨_, hp.step ⟨ins, hi, hgo⟩ he⟩

/-- Code through which heights flow acts as a whole. -/
theorem Flows.acts (h : Flows L a code jumps b) (hpass : code.Passable) : code.Acts jumps ⟨a, b⟩ where
  calls := h.count_jump
  ends {start height} := by
    have hend : ∀ {height : Int}, code.Path jumps start code.length height → height = start - a + b := by
      intro height hp
      obtain ⟨n, rfl, hn⟩ := h.of_path hp
      rw [List.drop_length] at hn
      generalize jumps.drop _ = left at hn
      cases hn
      rfl
    refine ⟨hend, ?_⟩
    rintro rfl
    have hway := hpass [] []
    rw [List.nil_append, List.append_nil, List.length_nil, Nat.zero_add] at hway
    obtain ⟨height, hp⟩ := Code.exists_path h.count_jump start hway
    rwa [← hend hp]
  joins hp hp' := by
    obtain ⟨n, rfl, hn⟩ := h.of_path hp
    obtain ⟨n', rfl, hn'⟩ := h.of_path hp'
    rw [hn.start_eq hn']
  above hp := by
    obtain ⟨n, rfl, -⟩ := h.of_path hp
    simp only
    omega
  within {start height i e} hp he := by
    obtain ⟨n, rfl, hn⟩ := h.of_path hp
    cases hi : code[i]? with
    | none => simp [effect?, hi] at he
    | some ins =>
      have hpops := (hn.step hi he).1
      simp only
      omega

end ObjLet
