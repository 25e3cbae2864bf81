import Mathlib.Data.List.Perm.Subperm
import ObjLet.Proofs.Balance.Balanced
import ObjLet.Proofs.Code.Emission

/-!
# Labels and blocks of a unit

Every unit that is generated, whatever the tables are, puts each label that it has taken exactly once and
refers to no other (`Program.generate_labels`). It is a main part and a block for each function
(`CodeUnit.Splits`) and there is one way only to see it so; but for calls and returns, control goes forward
within one of them (`Program.generate_blocks`).
-/

namespace ObjLet

variable {t : Tables} {mem : Int} {p : Program} {u : CodeUnit}

/-! ## Labels -/

/-- The labels of functions and of branches that come first. -/
def Label.firsts (functions branches : Nat) : List Label :=
  (List.range functions).map (Label.mk .function) ++ (List.range branches).map (Label.mk .branch)

/-- If as many labels are put as were handed out, all of them are. -/
theorem LabelSupply.Hands.perm_firsts {s : LabelSupply} {ls : List Label} (h : LabelSupply.Hands {} s ls)
    (hlen : ls.length = s.functions + s.branches) : ls.Perm (Label.firsts s.functions s.branches) := by
  refine (List.subperm_of_subset h.nodup fun l hl => ?_).perm_of_length_le ?_
  · have hb := h.between l hl
    obtain ⟨k, i⟩ := l
    cases k with
    | function => exact List.mem_append_left _ (List.mem_map_of_mem (List.mem_range.2 hb.2))
    | branch => exact List.mem_append_right _ (List.mem_map_of_mem (List.mem_range.2 hb.2))
  · simp [Label.firsts, hlen]

/-- A branch in self-contained code goes to a label in it. -/
theorem Code.Inner.place_mem {known : Label → Prop} {c : Code} (h : c.Inner known) {i : Instruction}
    (hi : i ∈ c) {l : Label} (hl : i.branch? = some l) : .place l ∈ c := by
  obtain ⟨before, after, hc⟩ := List.append_of_mem hi
  have hmem := h.forward.mem hc hl
  rw [List.append_nil] at hmem
  exact hc ▸ List.mem_append_right _ (List.mem_cons_of_mem _ hmem)

/-- Branches of a function stay in its block, because the code between its label and its last jump is inner. -/
theorem Code.IsBlock.place_mem {known : Label → Prop} {block : Code} (h : IsBlock known block) {i : Instruction}
    (hi : i ∈ block) {l : Label} (hl : i.branch? = some l) : .place l ∈ block := by
  obtain ⟨entry, body, -, hbody, rfl⟩ := h
  have hi' : i ∈ body := by
    simp only [prologue, List.mem_cons, List.mem_append, List.not_mem_nil, or_false] at hi
    obtain rfl | (((rfl | rfl) | hi) | rfl | rfl | rfl) := hi
    all_goals first | exact hi | cases hl
  exact List.mem_cons_of_mem _
    (List.mem_append_left _ (List.mem_append_right _ (hbody.place_mem hi' hl)))

/-- A label is an operand of a branch or of a push, and the two are closed for different reasons. -/
theorem Instruction.target?_cases {i : Instruction} {l : Label} (h : i.target? = some l) :
    i = .pushLabel l ∨ i.branch? = some l := by
  cases i <;> cases h
  · exact .inl rfl
  all_goals exact .inr rfl

/-- A function of a program becomes a block of its unit. -/
theorem Program.exists_block (h : p.generate t mem = .ok u) {k : Nat} {f : FunDecl}
    (hf : p.functions[k]? = some f) :
    ∃ before block after, u.code = before ++ block ++ after ∧ f.Becomes t mem ⟨.function, k⟩ block := by
  obtain ⟨main, blocks, s, hcode, -, he⟩ := exists_emission h
  obtain ⟨bodies, hperm, hbodies⟩ := he.become
  have hzip : (p.functions.zipIdx)[k]? = some (f, k) := by
    rw [List.getElem?_zipIdx, hf, Option.map_some, Nat.zero_add]
  obtain ⟨hlt, heq⟩ := List.getElem?_eq_some_iff.1 hzip
  have hblock := hbodies.get hlt (hbodies.length_eq ▸ hlt)
  rw [List.get_eq_getElem, heq] at hblock
  have hmem := hperm.mem_iff.2 (List.get_mem bodies ⟨k, hbodies.length_eq ▸ hlt⟩)
  obtain ⟨front, back, hblocks⟩ := List.append_of_mem hmem
  refine ⟨main ++ [.halt] ++ front.flatten, _, back.flatten, ?_, hblock⟩
  rw [hcode, hblocks]
  simp

/-- The labels of a unit are those of its parts, in the order in which the parts stand. -/
theorem CodeUnit.labels_of_parts {main : Code} {blocks : List Code}
    (h : u.code = main ++ [.halt] ++ blocks.flatten) : u.labels = main.placed ++ Code.placed blocks.flatten := by
  change Code.placed u.code = _
  rw [h]
  simp [Code.placed_cons, Instruction.placed?]

/-- In every unit that is generated, with whatever tables, the labels that are put are those of as many functions
as the program declares and two for each of its choices, each once, and no instruction refers to a label
that is not put. -/
theorem Program.generate_labels (h : p.generate t mem = .ok u) :
    u.labels.Perm (Label.firsts p.functions.length (2 * p.choices)) ∧
      ∀ i ∈ u.code, ∀ l, i.target? = some l → l ∈ u.labels := by
  obtain ⟨main, blocks, s, hcode, hmain, he⟩ := exists_emission h
  obtain ⟨hs, hblocks⟩ := he.known GenState.known_initial
  have hbranches : s.emitter.labels.branches = 2 * p.choices := by simpa using he.branchCount
  have hcount : s.emitter.labels.functions = p.functions.length := by simpa using he.functionCount
  have hfunctions : s.emitter.functions = blocks.flatten := by simpa using he.functions
  have hlabels := CodeUnit.labels_of_parts hcode
  have htaken : u.labels.length = s.emitter.labels.functions + s.emitter.labels.branches := by
    rw [hlabels, he.taken, hbranches, hcount, Nat.add_comm]
  refine ⟨hcount ▸ hbranches ▸ LabelSupply.Hands.perm_firsts (hlabels ▸ he.labels) htaken, ?_⟩
  have hknown : ∀ l, s.HasFunction l → .place l ∈ u.code := fun l hl => by
    rw [hcode, ← hfunctions]
    exact List.mem_append_right _ hl.2
  suffices hput : ∀ i ∈ u.code, ∀ l, i.target? = some l → .place l ∈ u.code from
    fun i hi l hl => Code.mem_placed.2 (hput i hi l hl)
  -- Labels that are pushed are known; those that are branched to are in the same block.
  intro i hi l hl
  rw [hcode, List.mem_append, List.mem_append] at hi
  obtain (hi | hi) | hi := hi
  · rcases Instruction.target?_cases hl with rfl | hb
    · exact hknown l (hmain.known_of_pushLabel hi)
    · rw [hcode]
      exact List.mem_append_left _ (List.mem_append_left _ (hmain.place_mem hi hb))
  · rw [List.mem_singleton.1 hi] at hl
    cases hl
  · obtain ⟨block, hblock, hi⟩ := List.mem_flatten.1 hi
    rcases Instruction.target?_cases hl with rfl | hb
    · exact hknown l ((hblocks block hblock).known_of_pushLabel hi)
    · rw [hcode]
      exact List.mem_append_right _
        (List.mem_flatten.2 ⟨block, hblock, (hblocks block hblock).place_mem hi hb⟩)

theorem Program.generate_labels_delegates :
    ∃ u, delegates.generate delegates.bind.tables 10000 = .ok u ∧
      u.labels.Perm (Label.firsts 4 4) ∧ ∀ i ∈ u.code, ∀ l, i.target? = some l → l ∈ u.labels := by
  have hid : delegates.ids.Nodup := by decide +kernel
  have hbind : delegates.bind.errors = [] := List.isEmpty_iff.1 (by decide +kernel)
  have htype : delegates.typeErrors delegates.bind.tables = [] := List.isEmpty_iff.1 (by decide +kernel)
  have hfunctions : delegates.functions.length = 4 := by decide +kernel
  have hchoices : delegates.choices = 2 := by decide +kernel
  obtain ⟨u, hu⟩ := (checked hid hbind htype).exists_generate 10000
  obtain ⟨hlabels, htargets⟩ := generate_labels hu
  rw [hfunctions, hchoices] at hlabels
  exact ⟨u, hu, hlabels, htargets⟩

/-! ## Blocks -/

/-- Branches lead forward within the code, and pushed labels are those of functions. -/
structure Code.Contained (c : Code) : Prop where
  forward : ∀ {before after : Code} {i : Instruction} {l : Label}, c = before ++ i :: after →
    i.branch? = some l → l.kind = .branch ∧ .place l ∈ after
  refers : ∀ {l : Label}, .pushLabel l ∈ c → l.kind = .function

/-- The main part of a unit halts at its end and nowhere else, and puts no label of a function. -/
structure Code.IsMain (c : Code) : Prop extends Contained c where
  places : ∀ {l : Label}, .place l ∈ c → l.kind = .branch
  halts : ∃ body : Code, c = body ++ [.halt] ∧ .halt ∉ body

/-- The block of a function starts with its label and the code that enters its frame, puts no other label of a
function, does not halt, and ends with the code that returns. -/
structure Code.IsFunction (entry : Label) (c : Code) : Prop extends Contained c where
  entry_kind : entry.kind = .function
  shape : ∃ body : Code, c = .place entry :: .copyFp :: .load .ra ::
    (body ++ [.load .tm, .load .ra, .jump])
  places : ∀ {l : Label}, .place l ∈ c.tail → l.kind = .branch
  runs : .halt ∉ c

/-- A unit is a main part and then the blocks of functions. -/
structure CodeUnit.Splits (u : CodeUnit) (main : Code) (blocks : List Code) : Prop where
  code : u.code = main ++ blocks.flatten
  main : main.IsMain
  blocks : ∀ b ∈ blocks, ∃ entry, Code.IsFunction entry b

/-- What names no label does not branch. -/
theorem Instruction.branch?_eq_none {i : Instruction} (h : i.target? = none) : i.branch? = none := by
  cases i with
  | branch | branchEqual | branchLessEqual => cases h
  | _ => rfl

namespace Code

variable {known : Label → Prop} {c : Code}

/-- Code without branches goes forward whatever follows it. -/
theorem forward_of_none {after : Code} (h : ∀ i ∈ c, i.branch? = none) : Forward after c := by
  induction c with
  | nil => exact forward_nil
  | cons i c ih =>
    obtain ⟨hi, hc⟩ := List.forall_mem_cons.1 h
    refine forward_cons.2 ⟨fun l hl => ?_, ih hc⟩
    rw [hi] at hl
    cases hl

/-- Code that refers to no labels may stand around self-contained code. -/
theorem Inner.contained (h : c.Inner known) (hk : ∀ l, known l → l.kind = .function) (before : Code) {after : Code}
    (hbefore : ∀ i ∈ before, i.target? = none) (hafter : ∀ i ∈ after, i.target? = none) :
    Contained (before ++ c ++ after) := by
  have hmem : ∀ {i : Instruction} {l : Label}, i ∈ before ++ c ++ after → i.target? = some l → i ∈ c := by
    intro i l hi hl
    rw [List.mem_append, List.mem_append] at hi
    obtain (hi | hi) | hi := hi
    · rw [hbefore i hi] at hl
      cases hl
    · exact hi
    · rw [hafter i hi] at hl
      cases hl
  have hforward : Forward [] (before ++ c ++ after) := by
    rw [forward_append, forward_append]
    exact ⟨⟨forward_of_none fun i hi => Instruction.branch?_eq_none (hbefore i hi), h.anywhere _⟩,
      forward_of_none fun i hi => Instruction.branch?_eq_none (hafter i hi)⟩
  refine ⟨fun {b a i l} hc hl => ⟨?_, by simpa using hforward.mem hc hl⟩, fun hl => ?_⟩
  · have hi : i ∈ before ++ c ++ after := hc ▸ List.mem_append_right _ List.mem_cons_self
    have htarget : i.target? = some l := by
      cases i with
      | branch | branchEqual | branchLessEqual => exact hl
      | _ => cases hl
    exact h.kind_of_branch (hmem hi htarget) hl
  · exact hk _ (h.known_of_pushLabel (hmem hl rfl))

/-- The main part is inner code and one `halt` behind it. -/
theorem Inner.isMain (h : c.Inner known) (hk : ∀ l, known l → l.kind = .function) :
    IsMain (c ++ [.halt]) where
  toContained := h.contained hk [] nofun (by decide)
  places hl := h.kind_of_place (by simpa using hl)
  halts := ⟨c, rfl, h.halt_notMem⟩

/-- What generation adds for a function is a function in the sense of the statement, with no mention of what is
known. -/
theorem IsBlock.exists_isFunction (h : IsBlock known c) (hk : ∀ l, known l → l.kind = .function) :
    ∃ entry, IsFunction entry c := by
  obtain ⟨entry, body, hentry, hbody, rfl⟩ := h
  refine ⟨entry, ?_, hentry, ⟨body, by simp [prologue]⟩, fun hl => hbody.kind_of_place ?_, ?_⟩
  · exact hbody.contained hk (.place entry :: prologue)
      (List.forall_mem_cons.2 ⟨rfl, by decide⟩) (by decide)
  · simpa [prologue] using hl
  · simpa [prologue] using hbody.halt_notMem

/-- A block starts with its label, so it is not empty. -/
theorem IsFunction.eq_cons {entry : Label} (h : IsFunction entry c) : c = .place entry :: c.tail := by
  obtain ⟨body, rfl⟩ := h.shape
  rfl

/-- The last instruction of a part of a unit: there is no way on but by a jump. -/
theorem IsMain.getLast? (h : IsMain c) : c.getLast? = some .halt := by
  obtain ⟨body, rfl, -⟩ := h.halts
  simp

/-- A block ends with the jump back to its caller, so control cannot run into the next one. -/
theorem IsFunction.getLast? {entry : Label} (h : IsFunction entry c) : c.getLast? = some .jump := by
  obtain ⟨body, rfl⟩ := h.shape
  simp [List.getLast?_cons, List.getLast?_append]

end Code

/-! ### There is one way to split a unit -/

namespace Code

/-- Code starts with the label of a function, if it is not empty. -/
def Enters (c : Code) : Prop := ∀ i ∈ c.head?, ∃ l, i = .place l ∧ l.kind = .function

/-- Behind the main part, code starts with the label of a function or is at its end. -/
theorem enters_flatten {blocks : List Code} (h : ∀ b ∈ blocks, ∃ entry, IsFunction entry b) :
    Enters blocks.flatten := by
  cases blocks with
  | nil => exact nofun
  | cons b bs =>
    obtain ⟨entry, hb⟩ := h b List.mem_cons_self
    obtain ⟨body, rfl⟩ := hb.shape
    intro i hi
    cases hi
    exact ⟨entry, rfl, hb.entry_kind⟩

/-- What stands before the first label of a function is determined. -/
theorem append_inj_of_enters {a a' b b' : Code} (ha : ∀ l, .place l ∈ a → l.kind = .branch)
    (ha' : ∀ l, .place l ∈ a' → l.kind = .branch) (hb : Enters b) (hb' : Enters b')
    (h : a ++ b = a' ++ b') : a = a' ∧ b = b' := by
  have hclash : ∀ {l : Label}, l.kind = .branch → l.kind = .function → False := fun hk hk' => by
    rw [hk] at hk'
    cases hk'
  induction a generalizing a' with
  | nil =>
    cases a' with
    | nil => exact ⟨rfl, h⟩
    | cons i a' =>
      obtain ⟨l, rfl, hl⟩ := hb i (by rw [show b = i :: (a' ++ b') from h]; rfl)
      exact (hclash (ha' l List.mem_cons_self) hl).elim
  | cons i a ih =>
    cases a' with
    | nil =>
      obtain ⟨l, rfl, hl⟩ := hb' i (by rw [show b' = i :: (a ++ b) from h.symm]; rfl)
      exact (hclash (ha l List.mem_cons_self) hl).elim
    | cons i' a' =>
      obtain ⟨rfl, hrest⟩ := List.cons.inj h
      obtain ⟨rfl, rfl⟩ := ih (fun l hl => ha l (List.mem_cons_of_mem _ hl))
        (fun l hl => ha' l (List.mem_cons_of_mem _ hl)) hrest
      exact ⟨rfl, rfl⟩

/-- By induction on both splits: the labels of functions are only at the fronts of blocks, so they say where each
block ends. -/
theorem flatten_inj {blocks blocks' : List Code} (h : ∀ b ∈ blocks, ∃ entry, IsFunction entry b)
    (h' : ∀ b ∈ blocks', ∃ entry, IsFunction entry b) (heq : blocks.flatten = blocks'.flatten) :
    blocks = blocks' := by
  induction blocks generalizing blocks' with
  | nil =>
    cases blocks' with
    | nil => rfl
    | cons b' bs' =>
      obtain ⟨entry, hb⟩ := h' b' List.mem_cons_self
      obtain ⟨body, rfl⟩ := hb.shape
      cases heq
  | cons b bs ih =>
    obtain ⟨⟨entry, hb⟩, hbs⟩ := List.forall_mem_cons.1 h
    cases blocks' with
    | nil =>
      obtain ⟨body, rfl⟩ := hb.shape
      cases heq
    | cons b' bs' =>
      obtain ⟨⟨entry', hb'⟩, hbs'⟩ := List.forall_mem_cons.1 h'
      rw [List.flatten_cons, List.flatten_cons, hb.eq_cons, hb'.eq_cons] at heq
      obtain ⟨hentry, heq⟩ := List.cons.inj heq
      obtain ⟨htail, hrest⟩ := append_inj_of_enters (fun l => hb.places) (fun l => hb'.places)
        (enters_flatten hbs) (enters_flatten hbs') heq
      rw [ih hbs hbs' hrest, hb.eq_cons.trans (by rw [hentry, htail, ← hb'.eq_cons])]

end Code

/-- The main part is what stands before the first label of a function. -/
theorem CodeUnit.Splits.unique {main main' : Code} {blocks blocks' : List Code} (h : u.Splits main blocks)
    (h' : u.Splits main' blocks') : main' = main ∧ blocks' = blocks := by
  obtain ⟨hmain, hblocks⟩ := Code.append_inj_of_enters (fun l => h'.main.places) (fun l => h.main.places)
    (Code.enters_flatten h'.blocks) (Code.enters_flatten h.blocks) (h'.code.symm.trans h.code)
  exact ⟨hmain, Code.flatten_inj h'.blocks h.blocks hblocks⟩

/-! ### Control stays in a block -/

namespace Code

/-- Two positions lie in the same one of consecutive parts of code. -/
def SamePart (parts : List Code) (i j : Nat) : Prop :=
  ∃ (before : List Code) (part : Code) (after : List Code), parts = before ++ part :: after ∧
    (before.flatten.length ≤ i ∧ i < before.flatten.length + part.length) ∧
    (before.flatten.length ≤ j ∧ j < before.flatten.length + part.length)

/-- Every position of a unit lies in one of its parts. -/
theorem exists_part {parts : List Code} {i : Nat} (h : i < parts.flatten.length) :
    ∃ (before : List Code) (part : Code) (after : List Code), parts = before ++ part :: after ∧
      before.flatten.length ≤ i ∧ i < before.flatten.length + part.length := by
  induction parts generalizing i with
  | nil => simp at h
  | cons part parts ih =>
    by_cases hi : i < part.length
    · exact ⟨[], part, parts, rfl, by simp, by simpa using hi⟩
    · rw [List.flatten_cons, List.length_append] at h
      obtain ⟨before, part', after, rfl, hle, hlt⟩ := ih (i := i - part.length) (by omega)
      refine ⟨part :: before, part', after, rfl, ?_, ?_⟩ <;>
        rw [List.flatten_cons, List.length_append] <;> omega

/-- A label that is put once stands at one position. -/
theorem index_eq_of_placed {code : Code} (h : code.placed.Nodup) {l : Label} {i j : Nat}
    (hi : code[i]? = some (.place l)) (hj : code[j]? = some (.place l)) : i = j := by
  induction code generalizing i j with
  | nil => simp at hi
  | cons x code ih =>
    rw [placed_cons] at h
    have hrest := (List.nodup_append.1 h).2.1
    have hfirst : x = .place l → ∀ k : Nat, code[k]? ≠ some (.place l) := by
      rintro rfl k hk
      exact (List.nodup_cons.1 h).1 (mem_placed.2 (List.mem_of_getElem? hk))
    cases i with
    | zero =>
      cases j with
      | zero => rfl
      | succ j => exact absurd hj (hfirst (by simpa using hi) j)
    | succ i =>
      cases j with
      | zero => exact absurd hi (hfirst (by simpa using hj) i)
      | succ j => rw [ih hrest hi hj]

variable {part : Code} {k : Nat} {i : Instruction}

/-- Control does not fall out of a part that ends with `halt` or a jump. -/
theorem succ_lt_of_falls (hlast : part.getLast? = some .halt ∨ part.getLast? = some .jump)
    (hi : part[k]? = some i) (hfalls : i.falls = true) (hjump : i ≠ .jump) : k + 1 < part.length := by
  have hk := (List.getElem?_eq_some_iff.1 hi).1
  rcases Nat.lt_or_ge (k + 1) part.length with hlt | hge
  · exact hlt
  have hend : part.getLast? = some i := by
    rw [List.getLast?_eq_getElem?, show part.length - 1 = k by omega, hi]
  obtain hlast | hlast := hlast
  · cases hend.symm.trans hlast
    cases hfalls
  · cases hend.symm.trans hlast
    exact absurd rfl hjump

/-- A branch in a part leads to a later place in it. -/
theorem Contained.exists_target (h : part.Contained) (hi : part[k]? = some i) {l : Label} (hl : i.branch? = some l) :
    ∃ m, k < m ∧ part[m]? = some (.place l) := by
  have hsplit : part = part.take k ++ i :: part.drop (k + 1) := by
    obtain ⟨hlt, rfl⟩ := List.getElem?_eq_some_iff.1 hi
    rw [List.getElem_cons_drop, List.take_append_drop]
  obtain ⟨m, hm⟩ := List.getElem?_of_mem (h.forward hsplit hl).2
  rw [List.getElem?_drop] at hm
  exact ⟨k + 1 + m, by omega, hm⟩

end Code

namespace CodeUnit.Splits

variable {main : Code} {blocks : List Code}

/-- Whichever part it is, no branch leaves it and its last instruction does not fall through. -/
theorem contained (h : u.Splits main blocks) {c : Code} (hc : c ∈ main :: blocks) :
    c.Contained ∧ (c.getLast? = some .halt ∨ c.getLast? = some .jump) := by
  rcases List.mem_cons.1 hc with rfl | hc
  · exact ⟨h.main.toContained, .inl h.main.getLast?⟩
  · obtain ⟨entry, hb⟩ := h.blocks c hc
    exact ⟨hb.toContained, .inr hb.getLast?⟩

/-- But for calls and returns, control goes forward within a part. -/
theorem goes_forward (h : u.Splits main blocks) (hl : u.labels.Nodup) {i j : Nat}
    (hjump : u.code[i]? ≠ some .jump) (hg : u.code.Goes i j) :
    i < j ∧ Code.SamePart (main :: blocks) i j := by
  obtain ⟨ins, hins, hgo⟩ := hg
  have hcode : u.code = (main :: blocks).flatten := h.code
  obtain ⟨before, part, after, hparts, hle, hlt⟩ :=
    Code.exists_part (hcode ▸ (List.getElem?_eq_some_iff.1 hins).1)
  obtain ⟨k, rfl⟩ := Nat.exists_eq_add_of_le hle
  have hk : k < part.length := by omega
  -- A position in the part is one in the unit.
  have hget : ∀ m < part.length, u.code[before.flatten.length + m]? = part[m]? := by
    intro m hm
    rw [hcode, hparts, List.flatten_append, List.flatten_cons,
      List.getElem?_append_right (Nat.le_add_right _ _), Nat.add_sub_cancel_left,
      List.getElem?_append_left hm]
  suffices hm : ∃ m, k < m ∧ m < part.length ∧ j = before.flatten.length + m by
    obtain ⟨m, hkm, hm, rfl⟩ := hm
    exact ⟨by omega, before, part, after, hparts, ⟨hle, hlt⟩, by omega, by omega⟩
  have hmem : part ∈ main :: blocks := hparts ▸ List.mem_append_right before List.mem_cons_self
  obtain ⟨hcontained, hlast⟩ := h.contained hmem
  have hpart : part[k]? = some ins := (hget k hk).symm.trans hins
  obtain ⟨hfalls, rfl⟩ | ⟨l, hbranch, hplace⟩ := hgo
  · have hne : ins ≠ .jump := fun heq => hjump (heq ▸ hins)
    exact ⟨k + 1, Nat.lt_succ_self k, Code.succ_lt_of_falls hlast hpart hfalls hne, rfl⟩
  · obtain ⟨m, hkm, hm⟩ := hcontained.exists_target hpart hbranch
    have hlt := (List.getElem?_eq_some_iff.1 hm).1
    exact ⟨m, hkm, hlt, (Code.index_eq_of_placed hl ((hget m hlt).trans hm) hplace).symm⟩

end CodeUnit.Splits

/-- Every unit that is generated, with whatever tables, is in one way a main part and blocks of functions. There
is one block for each function of the program, which is what that function becomes; and but for calls
and returns, control only goes forward, within the main part or within a block. -/
theorem Program.generate_blocks (h : p.generate t mem = .ok u) :
    ∃ (main : Code) (blocks : List Code), u.Splits main blocks ∧
      (∀ main' blocks', u.Splits main' blocks' → main' = main ∧ blocks' = blocks) ∧
      blocks.length = p.functions.length ∧
      (∃ bodies, blocks.Perm bodies ∧
        List.Forall₂ (fun f b => f.1.Becomes t mem ⟨.function, f.2⟩ b) p.functions.zipIdx bodies) ∧
      ∀ i j, u.code[i]? ≠ some .jump → u.code.Goes i j → i < j ∧ Code.SamePart (main :: blocks) i j := by
  obtain ⟨main, blocks, s, hcode, hmain, he⟩ := exists_emission h
  obtain ⟨-, hblocks⟩ := he.known GenState.known_initial
  have hk : ∀ l, s.HasFunction l → l.kind = .function := fun l hl => hl.1
  have hsplits : u.Splits (main ++ [.halt]) blocks :=
    ⟨hcode, hmain.isMain hk, fun b hb => (hblocks b hb).exists_isFunction hk⟩
  have hlabels : u.labels.Nodup := CodeUnit.labels_of_parts hcode ▸ he.labels.nodup
  obtain ⟨bodies, hperm, hbodies⟩ := he.become
  refine ⟨_, blocks, hsplits, fun _ _ => hsplits.unique, ?_, ⟨bodies, hperm, hbodies⟩,
    fun i j => hsplits.goes_forward hlabels⟩
  rw [hperm.length_eq, ← hbodies.length_eq, List.length_zipIdx]

theorem Program.generate_blocks_delegates :
    ∃ u, delegates.generate delegates.bind.tables 10000 = .ok u ∧ ∃ main blocks, u.Splits main blocks ∧
      blocks.length = 4 ∧ ∀ i j, u.code[i]? ≠ some .jump → u.code.Goes i j → i < j := by
  have hid : delegates.ids.Nodup := by decide +kernel
  have hbind : delegates.bind.errors = [] := List.isEmpty_iff.1 (by decide +kernel)
  have htype : delegates.typeErrors delegates.bind.tables = [] := List.isEmpty_iff.1 (by decide +kernel)
  have hfunctions : delegates.functions.length = 4 := by decide +kernel
  obtain ⟨u, hu⟩ := (checked hid hbind htype).exists_generate 10000
  obtain ⟨main, blocks, hsplits, -, hcount, -, hflow⟩ := generate_blocks hu
  rw [hfunctions] at hcount
  exact ⟨u, hu, main, blocks, hsplits, hcount, fun i j hjump hgoes => (hflow i j hjump hgoes).1⟩

end ObjLet
