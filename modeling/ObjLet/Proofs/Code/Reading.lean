import ObjLet.Code.Unit
import Std.Data.String.ToInt
import Mathlib.Data.List.Nodup
import Mathlib.Data.List.TakeWhile

/-!
# Reading code back

Assembly text can be read back: a unit is read from its text and from no other text
(`CodeUnit.text_determines`), so different code never has the same text.

Lines are told apart by their line breaks, which stand in no line. In a line, the operand is told from the
mnemonic by the space; without an operand, a placement is told from an instruction by the colon. An operand
of `push` is a label if it starts with a letter, and otherwise a number.
-/

namespace ObjLet

/-! ## Words -/

namespace Word

/-- What a word is read as, if it is also the word that is written for that. -/
def readBack? {α : Type} (read : String → Option α) (write : α → String) (word : List Char) : Option α :=
  (read (String.ofList word)).filter fun a => (write a).toList = word

/-- Reading and writing again decides whether a word is exactly what is written for a value, so other spellings
of it are refused. -/
theorem readBack?_eq_some_iff {α : Type} {read : String → Option α} {write : α → String}
    (h : ∀ a, read (write a) = some a) {word : List Char} {a : α} :
    readBack? read write word = some a ↔ (write a).toList = word := by
  rw [readBack?, Option.filter_eq_some_iff, decide_eq_true_eq]
  refine ⟨And.right, fun hword => ⟨?_, hword⟩⟩
  rw [← hword, String.ofList_toList, h]

/-- What a word stands for by a table of written things. -/
def lookUp? {α : Type} (table : List α) (write : α → String) (word : List Char) : Option α :=
  table.find? fun a => (write a).toList = word

/-- A table of different words can be read without knowing what the words are. -/
theorem lookUp?_eq_some_iff {α : Type} {table : List α} {write : α → String} (h : (table.map write).Nodup)
    {word : List Char} {a : α} : lookUp? table write word = some a ↔ a ∈ table ∧ (write a).toList = word := by
  constructor
  · intro hfind
    exact ⟨List.mem_of_find?_eq_some hfind, by simpa using List.find?_some hfind⟩
  · rintro ⟨hmem, rfl⟩
    obtain ⟨b, hb⟩ := Option.isSome_iff_exists.1
      (List.find?_isSome (p := fun b => (write b).toList = (write a).toList).2 ⟨a, hmem, by simp⟩)
    have hword : write b = write a := String.toList_inj.1 (by simpa using List.find?_some hb)
    rw [lookUp?, hb, List.inj_on_of_nodup_map h (List.mem_of_find?_eq_some hb) hmem hword]

/-! ## Numbers -/

/-- The index of a label. -/
def index? : List Char → Option Nat := readBack? String.toNat? toString

/-- A number that is pushed. -/
def value? : List Char → Option Int := readBack? String.toInt? toString

/-- Only canonical numerals are read: no leading zeros and no sign. -/
theorem index?_eq_some_iff {word : List Char} {n : Nat} : index? word = some n ↔ (toString n).toList = word :=
  readBack?_eq_some_iff fun _ => Nat.toNat?_repr _

/-- Only canonical numerals are read: no leading zeros and no `-0`. -/
theorem value?_eq_some_iff {word : List Char} {v : Int} : value? word = some v ↔ (toString v).toList = word :=
  readBack?_eq_some_iff fun _ => Int.toInt?_repr _

theorem isDigit_of_mem_index {n : Nat} {c : Char} (h : c ∈ (toString n).toList) : c.isDigit := by
  rw [Nat.toString_eq_repr, Nat.toList_repr] at h
  exact Nat.isDigit_of_mem_toDigits (by decide) (by decide) h

/-- Digits and a sign are all that a numeral is made of, so it contains no blank and no line break. -/
theorem isDigit_or_eq_of_mem_value {v : Int} {c : Char} (h : c ∈ (toString v).toList) : c.isDigit ∨ c = '-' := by
  rw [Int.toString_eq_repr, Int.repr_eq_if] at h
  split at h
  · exact .inl (isDigit_of_mem_index h)
  · rcases List.mem_append.1 (String.toList_append ▸ h) with h | h
    · exact .inr (by simpa using h)
    · exact .inl (isDigit_of_mem_index h)

theorem notMem_value {v : Int} {c : Char} (hc : ¬(c.isDigit ∨ c = '-')) : c ∉ (toString v).toList :=
  fun h => hc (isDigit_or_eq_of_mem_value h)

theorem not_isAlpha_of_isDigit {c : Char} (h : c.isDigit) : ¬c.isAlpha := by
  have hdigit : c.toNat ≤ '9'.toNat := (Char.isDigit_iff_toNat.1 h).2
  intro halpha
  rcases Bool.or_eq_true_iff.1 halpha with hupper | hlower
  · have hletter : 'A'.toNat ≤ c.toNat := (of_decide_eq_true hupper).1
    exact absurd (hletter.trans hdigit) (by decide)
  · have hletter : 'a'.toNat ≤ c.toNat := of_decide_eq_true (Bool.and_eq_true_iff.1 hlower).1
    exact absurd (hletter.trans hdigit) (by decide)

end Word

open Word

/-! ## Labels -/

def LabelKind.read? : List Char → Option LabelKind := lookUp? [branch, function] text

theorem LabelKind.read?_eq_some_iff {word : List Char} {k : LabelKind} :
    read? word = some k ↔ k.text.toList = word := by
  rw [read?, lookUp?_eq_some_iff (by decide)]
  cases k <;> simp

/-- The kind of a label is written in letters, and its number in digits. This is what separates the two. -/
theorem LabelKind.isAlpha_of_mem_text {k : LabelKind} : ∀ c ∈ k.text.toList, c.isAlpha :=
  List.all_eq_true.1 (by cases k <;> decide)

/-- A label is a kind, in letters, and then an index. -/
def Label.read? (word : List Char) : Option Label := do
  let kind ← LabelKind.read? (word.takeWhile Char.isAlpha)
  let index ← index? (word.dropWhile Char.isAlpha)
  return ⟨kind, index⟩

theorem Label.toList_text (l : Label) : l.text.toList = l.kind.text.toList ++ (toString l.index).toList :=
  String.toList_append

/-- Labels contain no blanks, line breaks or colons. -/
theorem Label.isAlphanum_of_mem_text {l : Label} {c : Char} (h : c ∈ l.text.toList) : c.isAlphanum := by
  rw [toList_text, List.mem_append] at h
  rw [Char.isAlphanum, Bool.or_eq_true]
  exact h.imp (LabelKind.isAlpha_of_mem_text c) isDigit_of_mem_index

theorem Label.notMem_text (l : Label) {c : Char} (hc : ¬c.isAlphanum) : c ∉ l.text.toList :=
  fun h => hc (isAlphanum_of_mem_text h)

/-- The letters at the front of a label are its kind. -/
theorem Label.takeWhile_text (l : Label) : l.text.toList.takeWhile Char.isAlpha = l.kind.text.toList := by
  rw [toList_text, List.takeWhile_append_of_pos LabelKind.isAlpha_of_mem_text,
    List.takeWhile_eq_nil_iff.2 fun _ => not_isAlpha_of_isDigit (isDigit_of_mem_index (List.get_mem _ _)),
    List.append_nil]

/-- What follows the letters of a label is its number. -/
theorem Label.dropWhile_text (l : Label) : l.text.toList.dropWhile Char.isAlpha = (toString l.index).toList := by
  rw [toList_text, List.dropWhile_append_of_pos LabelKind.isAlpha_of_mem_text]
  exact List.dropWhile_eq_self_iff.2 fun _ => not_isAlpha_of_isDigit (isDigit_of_mem_index (List.getElem_mem _))

/-- A label is read from exactly the text that is written for it. -/
theorem Label.read?_eq_some_iff {word : List Char} {l : Label} : read? word = some l ↔ l.text.toList = word := by
  constructor
  · intro h
    simp only [read?, Option.bind_eq_bind, Option.bind_eq_some_iff, LabelKind.read?_eq_some_iff,
      index?_eq_some_iff] at h
    obtain ⟨kind, hkind, index, hindex, hl⟩ := h
    obtain rfl : ⟨kind, index⟩ = l := Option.some.inj hl
    rw [toList_text, hkind, hindex, List.takeWhile_append_dropWhile]
  · rintro rfl
    rw [read?, takeWhile_text, dropWhile_text, LabelKind.read?_eq_some_iff.2 rfl, index?_eq_some_iff.2 rfl]
    rfl

/-- A label starts with a letter, and no number has one. -/
theorem Label.value?_text (l : Label) : value? l.text.toList = none := by
  refine Option.eq_none_iff_forall_ne_some.2 fun v h => ?_
  obtain ⟨c, hc⟩ := List.exists_mem_of_ne_nil l.kind.text.toList (by cases l.kind <;> decide)
  have hmem : c ∈ (toString v).toList := by
    rw [value?_eq_some_iff.1 h, toList_text]
    exact List.mem_append_left _ hc
  have halpha := LabelKind.isAlpha_of_mem_text c hc
  rcases isDigit_or_eq_of_mem_value hmem with hdigit | rfl
  · exact not_isAlpha_of_isDigit hdigit halpha
  · exact absurd halpha (by decide)

/-! ## Lines -/

namespace Instruction

/-- The instructions without an operand. -/
def plain : List Instruction :=
  [pop, arith .add, arith .sub, arith .mult, arith .div, jump, load .fp, load .ra, load .tm, load .hp,
    store .fp, store .ra, store .tm, store .hp, copyFp, loadWord, storeWord, print, halt]

/-- A line without a space: a label that is put if it ends with a colon, and otherwise an instruction. -/
def readWord? (word : List Char) : Option Instruction :=
  if word.getLast? = some ':' then (Label.read? word.dropLast).map place else lookUp? plain text word

/-- The instructions with a label as operand. -/
def labelled : List (String × (Label → Instruction)) :=
  [("push", pushLabel), ("b", branch), ("beq", branchEqual), ("bleq", branchLessEqual)]

/-- An instruction with an operand. Only `push` has a number as operand. -/
def readOperand? (word operand : List Char) : Option Instruction :=
  match value? operand with
  | some v => if "push".toList = word then some (push v) else none
  | none => do
    let (_, make) ← lookUp? labelled Prod.fst word
    return make (← Label.read? operand)

/-- A line of assembly. -/
def read? (line : List Char) : Option Instruction :=
  match line.splitOn ' ' with
  | [word] => readWord? word
  | [word, operand] => readOperand? word operand
  | _ => none

variable {i : Instruction} {word operand line : List Char}

/-- Mnemonics differ. There are finitely many, so this is decided. -/
theorem nodup_plain : (plain.map text).Nodup := by decide +kernel

theorem nodup_labelled : (labelled.map Prod.fst).Nodup := by decide

theorem toList_text_push (v : Int) : (push v).text.toList = "push".toList ++ ' ' :: (toString v).toList :=
  String.toList_append

/-- All instructions with a label as operand are written alike. -/
theorem toList_text_labelled {op : String × (Label → Instruction)} (h : op ∈ labelled) (l : Label) :
    (op.2 l).text.toList = op.1.toList ++ ' ' :: l.text.toList := by
  simp only [labelled, List.mem_cons, List.not_mem_nil, or_false] at h
  rcases h with rfl | rfl | rfl | rfl <;> exact String.toList_append

/-- Soundness for lines of one word: a mnemonic or a placed label. -/
theorem text_of_readWord? (h : readWord? word = some i) : i.text.toList = word := by
  rw [readWord?] at h
  split at h
  next hcolon =>
    obtain ⟨l, hl, rfl⟩ := Option.map_eq_some_iff.1 h
    rw [text, String.toList_append, Label.read?_eq_some_iff.1 hl]
    exact List.dropLast_append_getLast? _ hcolon
  next => exact ((lookUp?_eq_some_iff nodup_plain).1 h).2

/-- Soundness for lines of two words: a number or a label is the operand. -/
theorem text_of_readOperand? (h : readOperand? word operand = some i) : i.text.toList = word ++ ' ' :: operand := by
  rw [readOperand?] at h
  split at h
  next v hv =>
    obtain ⟨rfl, hi⟩ := Option.ite_none_right_eq_some.1 h
    obtain rfl : push v = i := Option.some.inj hi
    rw [toList_text_push, value?_eq_some_iff.1 hv]
  next =>
    simp only [Option.bind_eq_bind, Option.bind_eq_some_iff, lookUp?_eq_some_iff nodup_labelled,
      Label.read?_eq_some_iff] at h
    obtain ⟨op, ⟨hop, rfl⟩, l, rfl, hi⟩ := h
    obtain rfl : op.2 l = i := Option.some.inj hi
    exact toList_text_labelled hop l

/-- Soundness: a line is read only as the instruction whose text it is. -/
theorem text_of_read? (h : read? line = some i) : i.text.toList = line := by
  have hjoin : [' '].intercalate (line.splitOn ' ') = line := List.intercalate_splitOn ' '
  rw [← hjoin]
  rw [read?] at h
  split at h
  next hline => simpa [hline] using text_of_readWord? h
  next hline => simpa [hline, List.intercalate] using text_of_readOperand? h
  next => cases h

/-- Without a blank, a line is one word. -/
theorem read?_eq_readWord? (h : ' ' ∉ word) : read? word = readWord? word := by
  rw [read?, List.splitOn_eq_singleton h]

/-- With one blank, a line is a word and an operand. -/
theorem read?_eq_readOperand? (hword : ' ' ∉ word) (hoperand : ' ' ∉ operand) :
    read? (word ++ ' ' :: operand) = readOperand? word operand := by
  rw [read?, List.splitOn_append_cons_self_of_not_mem hword, List.splitOn_eq_singleton hoperand]

/-- Completeness is shown for each way to write an instruction. Here, the mnemonic is the whole line. -/
theorem read?_text_plain (h : i ∈ plain) : read? i.text.toList = some i := by
  have hshape : ∀ i ∈ plain, ' ' ∉ i.text.toList ∧ i.text.toList.getLast? ≠ some ':' := by decide +kernel
  obtain ⟨hspace, hcolon⟩ := hshape i h
  rw [read?_eq_readWord? hspace, readWord?, if_neg hcolon, lookUp?_eq_some_iff nodup_plain]
  exact ⟨h, rfl⟩

/-- A placed label is told apart from a mnemonic by its colon. -/
theorem read?_text_place (l : Label) : read? (place l).text.toList = some (place l) := by
  have htext : (place l).text.toList = l.text.toList ++ [':'] := String.toList_append
  have hspace : ' ' ∉ (place l).text.toList := by
    rw [htext, List.mem_append]
    rintro (h | h)
    · exact l.notMem_text (by decide) h
    · exact absurd h (by decide)
  rw [read?_eq_readWord? hspace, readWord?, htext, if_pos List.getLast?_concat, List.dropLast_concat,
    Label.read?_eq_some_iff.2 rfl]
  rfl

/-- A pushed number is told apart from a pushed label by `Label.value?_text`. -/
theorem read?_text_push (v : Int) : read? (push v).text.toList = some (push v) := by
  rw [toList_text_push, read?_eq_readOperand? (by decide) (notMem_value (by decide)), readOperand?,
    value?_eq_some_iff.2 rfl]
  exact if_pos rfl

theorem read?_text_labelled {op : String × (Label → Instruction)} (h : op ∈ labelled) (l : Label) :
    read? (op.2 l).text.toList = some (op.2 l) := by
  have hspace : ∀ word ∈ labelled.map Prod.fst, ' ' ∉ word.toList := by decide
  rw [toList_text_labelled h, read?_eq_readOperand? (hspace _ (List.mem_map_of_mem h)) (l.notMem_text (by decide)),
    readOperand?, l.value?_text, (lookUp?_eq_some_iff nodup_labelled).2 ⟨h, rfl⟩, Label.read?_eq_some_iff.2 rfl]
  rfl

/-- A line is read as the instruction that it was written for. -/
theorem read?_text (i : Instruction) : read? i.text.toList = some i := by
  cases i with
  | push v => exact read?_text_push v
  | place l => exact read?_text_place l
  | pushLabel l => exact read?_text_labelled (.head _) l
  | branch l => exact read?_text_labelled (.tail _ (.head _)) l
  | branchEqual l => exact read?_text_labelled (.tail _ (.tail _ (.head _))) l
  | branchLessEqual l => exact read?_text_labelled (.tail _ (.tail _ (.tail _ (.head _)))) l
  | arith op => exact read?_text_plain (by cases op <;> decide)
  | load r => exact read?_text_plain (by cases r <;> decide)
  | store r => exact read?_text_plain (by cases r <;> decide)
  | _ => exact read?_text_plain (by decide)

/-- Reading is the inverse of writing, line by line. -/
theorem read?_eq_some_iff : read? line = some i ↔ i.text.toList = line :=
  ⟨text_of_read?, fun h => h ▸ read?_text i⟩

/-- An instruction is one line. -/
theorem break_notMem_text (i : Instruction) : '\n' ∉ i.text.toList := by
  have append {s t : String} (hs : '\n' ∉ s.toList) (ht : '\n' ∉ t.toList) : '\n' ∉ (s ++ t).toList := by
    rw [String.toList_append, List.mem_append]
    exact not_or.2 ⟨hs, ht⟩
  cases i with
  | push v => exact append (by decide) (notMem_value (by decide))
  | place l => exact append (l.notMem_text (by decide)) (by decide)
  | pushLabel l | branch l | branchEqual l | branchLessEqual l =>
    exact append (by decide) (l.notMem_text (by decide))
  | arith op => cases op <;> decide
  | load r | store r => cases r <;> decide
  | _ => decide

theorem mapM_read?_eq_some_iff {lines : List (List Char)} {code : Code} :
    lines.mapM read? = some code ↔ code.map (·.text.toList) = lines := by
  induction lines generalizing code with
  | nil => cases code <;> simp
  | cons line lines ih =>
    simp only [List.mapM_cons, Option.bind_eq_bind, Option.bind_eq_some_iff, read?_eq_some_iff, ih,
      List.map_eq_cons_iff]
    constructor
    · rintro ⟨i, hline, rest, hrest, hcode⟩
      exact ⟨i, rest, (Option.some.inj hcode).symm, hline, hrest⟩
    · rintro ⟨i, rest, rfl, hline, hrest⟩
      exact ⟨i, hline, rest, hrest, rfl⟩

end Instruction

/-! ## Units -/

namespace CodeUnit

/-- The unit that a text is written for. Every line ends with a line break. -/
def read? (text : String) : Option CodeUnit :=
  let lines := text.toList.splitOn '\n'
  if lines.getLast? = some [] then (lines.dropLast.mapM Instruction.read?).map mk else none

/-- The text ends with a line break, so its lines are those of the code and an empty one. -/
theorem splitOn_text (u : CodeUnit) :
    u.text.toList.splitOn '\n' = u.code.map (·.text.toList) ++ [[]] := by
  obtain ⟨code⟩ := u
  rw [text, String.toList_join]
  induction code with
  | nil => simp
  | cons i code ih =>
    simp only [List.map_cons, List.flatMap_cons, String.toList_append, List.append_assoc]
    exact (List.splitOn_append_cons_self_of_not_mem i.break_notMem_text _).trans (congrArg _ ih)

/-- Only the text of a unit is read as the unit. -/
theorem text_of_read? {s : String} {u : CodeUnit} (h : read? s = some u) : u.text = s := by
  rw [read?] at h
  split at h
  next hlast =>
    obtain ⟨code, hcode, rfl⟩ := Option.map_eq_some_iff.1 h
    have hlines : (mk code).text.toList.splitOn '\n' = s.toList.splitOn '\n' := by
      rw [splitOn_text, Instruction.mapM_read?_eq_some_iff.1 hcode]
      exact List.dropLast_append_getLast? _ hlast
    have hjoin (text : List Char) : ['\n'].intercalate (text.splitOn '\n') = text := List.intercalate_splitOn '\n'
    rw [← String.toList_inj, ← hjoin (mk code).text.toList, hlines, hjoin]
  next => cases h

/-- Every unit is read back from its text. -/
theorem read?_text (u : CodeUnit) : read? u.text = some u := by
  have hcode : (u.code.map (·.text.toList)).mapM Instruction.read? = some u.code :=
    Instruction.mapM_read?_eq_some_iff.2 rfl
  rw [read?, splitOn_text]
  simp only [List.getLast?_concat, List.dropLast_concat, if_true, hcode, Option.map_some]

/-- The text of a unit determines its code. Reading gives back the unit that a text was written for, and accepts no
other text. -/
theorem text_determines :
    (∀ u v : CodeUnit, u.text = v.text ↔ u = v) ∧
      ∀ (s : String) (u : CodeUnit), read? s = some u ↔ u.text = s := by
  refine ⟨fun u v => ⟨fun h => ?_, congrArg text⟩, fun s u => ⟨text_of_read?, fun h => ?_⟩⟩
  · have hread : some u = some v := by rw [← read?_text u, h, read?_text v]
    exact Option.some.inj hread
  · exact h ▸ read?_text u

example : read? "push -1\npush function2\nhalt\nfunction2:\ncfp\n" =
    some ⟨[.push (-1), .pushLabel ⟨.function, 2⟩, .halt, .place ⟨.function, 2⟩, .copyFp]⟩ := by
  cbv

end CodeUnit

end ObjLet
