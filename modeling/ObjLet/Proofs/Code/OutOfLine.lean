import ObjLet.Code.Emitter
import Mathlib.Data.List.Nodup
import Mathlib.Data.List.Perm.Basic
import Mathlib.Data.List.Induction

/-!
# Code out of line

An emitter is used through a sequence of operations, in which functions are opened inside functions and code
goes on to be emitted on both sides of them. As long as the functions are properly nested, nothing is lost and
nothing is repeated: what was emitted in a function is one block of the unit, and what was emitted outside all
functions is its main part (`Emitter.finish_of_nested`).

Functions are numbered in the order in which they are opened. After any operations, the code at hand and the
code in the handles of the open functions are the parts of these functions, from the innermost to the main part
(`Emitter.Accounts`).
-/

namespace ObjLet

namespace Emitter

/-! ## Operations -/

inductive Operation where
  | emit (i : Instruction)
  | emitAll (code : Code)
  | freshBranch
  | freshFunction
  | begin (entry : Label)
  /-- Close the function with this number. -/
  | close (f : Nat)

namespace Operation

/-- What an operation adds to the function in which it is done. -/
def inside : Operation → Code
  | emit i => [i]
  | emitAll code => code
  | _ => []

/-- All that an operation emits: a function starts with its label. -/
def emitted : Operation → Code
  | begin entry => [.place entry]
  | op => op.inside

def entry? : Operation → Option Label
  | begin entry => some entry
  | _ => none

def closed? : Operation → Option Nat
  | close f => some f
  | _ => none

end Operation

/-- An emitter, with the handles of the functions that were opened, in order. -/
structure Session where
  emitter : Emitter := {}
  handles : List OpenFunction := []

def Session.step (s : Session) : Operation → Session
  | .emit i => { s with emitter := s.emitter.emit i }
  | .emitAll code => { s with emitter := s.emitter.emitAll code }
  | .freshBranch => { s with emitter := s.emitter.freshBranch.2 }
  | .freshFunction => { s with emitter := s.emitter.freshFunction.2 }
  | .begin entry =>
    let (handle, emitter) := s.emitter.begin entry
    ⟨emitter, s.handles ++ [handle]⟩
  | .close f =>
    match s.handles[f]? with
    | some handle => { s with emitter := s.emitter.finishFunction handle }
    | none => s

/-- What a sequence of operations makes of a new emitter. -/
def run (ops : List Operation) : Session := ops.foldl Session.step {}

/-- The labels of the functions that are opened, in order. -/
def entries (ops : List Operation) : List Label := ops.filterMap Operation.entry?

/-- The functions that are closed, in order. -/
def closed (ops : List Operation) : List Nat := ops.filterMap Operation.closed?

/-! ## Nesting -/

/-- The number of functions opened so far, and those that are still open, the innermost first. -/
structure Nesting where
  begun : Nat := 0
  pending : List Nat := []

namespace Nesting

def step (n : Nesting) : Operation → Nesting
  | .begin _ => ⟨n.begun + 1, n.begun :: n.pending⟩
  | .close _ => { n with pending := n.pending.tail }
  | _ => n

/-- Only the innermost open function is closed. -/
def Allows (n : Nesting) : Operation → Prop
  | .close f => n.pending.head? = some f
  | _ => True

def AllowsAll (n : Nesting) : List Operation → Prop
  | [] => True
  | op :: ops => n.Allows op ∧ (n.step op).AllowsAll ops

/-- What an operation emits in `f`, which must be the innermost open function; without an `f`, what it emits
outside all functions. -/
def emits (n : Nesting) (f : Option Nat) (op : Operation) : Code :=
  if n.pending.head? = f then op.inside else []

/-- What is emitted while `f` is the innermost open function, or outside all functions. -/
def emittedIn (f : Option Nat) (n : Nesting) : List Operation → Code
  | [] => []
  | op :: ops => n.emits f op ++ (n.step op).emittedIn f ops

/-- Whether operations are allowed is decided from left to right. This splits off the last one. -/
theorem allowsAll_append {ops more : List Operation} (n : Nesting) :
    n.AllowsAll (ops ++ more) ↔ n.AllowsAll ops ∧ (ops.foldl step n).AllowsAll more := by
  induction ops generalizing n with
  | nil => simp [AllowsAll]
  | cons first ops ih => simp [AllowsAll, ih, and_assoc]

theorem emittedIn_concat (f : Option Nat) {ops : List Operation} {op : Operation} (n : Nesting) :
    n.emittedIn f (ops ++ [op]) = n.emittedIn f ops ++ (ops.foldl step n).emits f op := by
  induction ops generalizing n with
  | nil => simp [emittedIn]
  | cons first ops ih => simp [emittedIn, ih]

end Nesting

/-- How functions are nested after `ops`. -/
def nesting (ops : List Operation) : Nesting := ops.foldl Nesting.step {}

/-- What `ops` emit while `f` is the innermost open function, or outside all functions. -/
def emittedIn (f : Option Nat) (ops : List Operation) : Code := Nesting.emittedIn f {} ops

/-- Functions are properly nested: each is closed once, the innermost first, and none is left open. -/
def Nested (ops : List Operation) : Prop := Nesting.AllowsAll {} ops ∧ (nesting ops).pending = []

/-- Sequences are taken apart at their end throughout, since that is where the next operation comes. These lemmas
say what it adds to each of the functions of a sequence. -/
@[simp] theorem run_concat (ops : List Operation) (op : Operation) : run (ops ++ [op]) = (run ops).step op := by
  simp [run]

@[simp] theorem nesting_concat (ops : List Operation) (op : Operation) :
    nesting (ops ++ [op]) = (nesting ops).step op := by
  simp [nesting]

@[simp] theorem entries_concat (ops : List Operation) (op : Operation) :
    entries (ops ++ [op]) = entries ops ++ op.entry?.toList := by
  cases h : op.entry? <;> simp [entries, h]

@[simp] theorem closed_concat (ops : List Operation) (op : Operation) :
    closed (ops ++ [op]) = closed ops ++ op.closed?.toList := by
  cases h : op.closed? <;> simp [closed, h]

theorem flatMap_emitted_concat (ops : List Operation) (op : Operation) :
    (ops ++ [op]).flatMap Operation.emitted = ops.flatMap Operation.emitted ++ op.emitted := by
  simp

/-- There is a handle for each function that was opened, open or closed. -/
theorem length_handles (ops : List Operation) : (run ops).handles.length = (entries ops).length := by
  induction ops using List.reverseRecOn with
  | nil => rfl
  | append_singleton ops op ih =>
    rw [run_concat, entries_concat]
    cases op with
    | close f => cases h : (run ops).handles[f]? <;> simp [Session.step, Operation.entry?, h, ih]
    | _ => simp [Session.step, Operation.entry?, ih]

/-- A handle holds the code as it was when the function was opened. -/
theorem exists_begin {ops : List Operation} {f : Nat} {handle : OpenFunction}
    (h : (run ops).handles[f]? = some handle) :
    ∃ before entry inner, ops = before ++ .begin entry :: inner ∧ (entries before).length = f ∧
      handle.outer = (run before).emitter.code := by
  induction ops using List.reverseRecOn with
  | nil => simp [run] at h
  | append_singleton ops op ih =>
    -- What holds before the last operation holds with it, unless it opens this very function.
    have extend (h : (run ops).handles[f]? = some handle) : ∃ before entry inner,
        ops ++ [op] = before ++ .begin entry :: inner ∧ (entries before).length = f ∧
          handle.outer = (run before).emitter.code := by
      obtain ⟨before, entry, inner, rfl, hlength, houter⟩ := ih h
      exact ⟨before, entry, inner ++ [op], by simp, hlength, houter⟩
    rw [run_concat] at h
    cases op with
    | begin entry =>
      simp only [Session.step, Emitter.begin, List.getElem?_append] at h
      split at h
      · exact extend h
      · rename_i hlt
        obtain ⟨hindex, rfl⟩ := List.getElem?_eq_some_iff.1 h
        refine ⟨ops, entry, [], rfl, ?_, by simp⟩
        simp only [List.length_singleton, length_handles] at hindex hlt ⊢
        omega
    | close g =>
      cases hg : (run ops).handles[g]? <;> simp only [Session.step, hg] at h <;> exact extend h
    | _ => exact extend h

/-! ## Parts -/

/-- The label with which a part starts. The main part has none. -/
def start (ops : List Operation) (f : Option Nat) : Code :=
  (f.bind fun f => (entries ops)[f]?).toList.map .place

/-- The main part, or the part of a function: its label and what is emitted in it. -/
def part (ops : List Operation) (f : Option Nat) : Code := start ops f ++ emittedIn f ops

/-- The open functions and the main part, from the inside out. -/
def Nesting.around (n : Nesting) : List (Option Nat) := n.pending.map some ++ [none]

/-- What an operation adds to a part. -/
def Nesting.adds (n : Nesting) (f : Option Nat) : Operation → Code
  | .begin entry => if f = some n.begun then [.place entry] else []
  | op => n.emits f op

/-- Functions are numbered as they are opened: those that are open and those that are closed are all of them,
and nothing is emitted in one before it is opened. -/
structure Numbered (ops : List Operation) : Prop where
  count : (entries ops).length = (nesting ops).begun
  perm : ((nesting ops).pending ++ closed ops).Perm (List.range (nesting ops).begun)
  unbegun : ∀ f, (nesting ops).begun ≤ f → emittedIn (some f) ops = []

@[simp] theorem emittedIn_concat (f : Option Nat) (ops : List Operation) (op : Operation) :
    emittedIn f (ops ++ [op]) = emittedIn f ops ++ (nesting ops).emits f op :=
  Nesting.emittedIn_concat f {}

namespace Numbered

variable {ops : List Operation}

/-- What is open has been opened. -/
theorem lt_of_pending (h : Numbered ops) {f : Nat} (hf : f ∈ (nesting ops).pending) : f < (nesting ops).begun :=
  List.mem_range.1 (h.perm.subset (List.mem_append_left _ hf))

/-- Nothing can be emitted in a function before it is opened. -/
theorem emits_of_le (h : Numbered ops) {f : Nat} (hf : (nesting ops).begun ≤ f) (op : Operation) :
    (nesting ops).emits (some f) op = [] := by
  refine if_neg fun hhead => ?_
  have := h.lt_of_pending (List.mem_of_head? hhead)
  omega

theorem nil : Numbered [] := ⟨rfl, .refl _, fun _ _ => rfl⟩

/-- Opening a function gives it the next number, and closing moves it from the open ones to the closed ones. -/
theorem concat (h : Numbered ops) {op : Operation} (ha : (nesting ops).Allows op) : Numbered (ops ++ [op]) := by
  have hle : (nesting ops).begun ≤ (nesting (ops ++ [op])).begun := by
    cases op <;> simp [Nesting.step]
  constructor
  case unbegun =>
    intro f hf
    have hf := Nat.le_trans hle hf
    rw [emittedIn_concat, h.unbegun f hf, h.emits_of_le hf, List.append_nil]
  all_goals rw [nesting_concat]
  case count =>
    cases op <;> simp [Nesting.step, Operation.entry?, h.count]
  case perm =>
    cases op with
    | begin entry =>
      simpa [Nesting.step, Operation.closed?, List.range_succ] using
        (h.perm.cons _).trans (List.perm_append_singleton _ _).symm
    | close f =>
      obtain ⟨rest, hrest⟩ := List.head?_eq_some_iff.1 ha
      have hperm := h.perm
      rw [hrest] at hperm
      simpa [Nesting.step, Operation.closed?, hrest] using
        (List.perm_append_singleton f (rest ++ closed ops)).trans hperm
    | _ => simpa [Nesting.step, Operation.closed?] using h.perm

/-- A part grows by what the operation adds to it. -/
theorem part_concat (h : Numbered ops) (op : Operation) (f : Option Nat) :
    part (ops ++ [op]) f = part ops f ++ (nesting ops).adds f op := by
  cases op with
  | begin entry =>
    have hemits : (nesting ops).emits f (.begin entry) = [] := by simp [Nesting.emits, Operation.inside]
    cases f with
    | none => simp [part, start, Nesting.adds, hemits]
    | some f =>
      obtain hlt | rfl | hgt := Nat.lt_trichotomy f (nesting ops).begun
      · have hold : (entries ops ++ [entry])[f]? = (entries ops)[f]? :=
          List.getElem?_append_left (h.count ▸ hlt)
        simp [part, start, Nesting.adds, hemits, Operation.entry?, hold, Nat.ne_of_lt hlt]
      · have hnone : (entries ops)[(nesting ops).begun]? = none := by simp [h.count]
        have hnew : (entries ops ++ [entry])[(nesting ops).begun]? = some entry := by simp [← h.count]
        simp [part, start, Nesting.adds, hemits, Operation.entry?, hnone, hnew, h.unbegun]
      · have hnone : (entries ops)[f]? = none := by simp [h.count, Nat.le_of_lt hgt]
        have hnew : (entries ops ++ [entry])[f]? = none := by simp [h.count]; omega
        simp [part, start, Nesting.adds, hemits, Operation.entry?, hnone, hnew, Nat.ne_of_gt hgt]
  | _ => simp [part, start, Nesting.adds, Operation.entry?]

/-- The part of the next function is empty, not even its label is there. -/
theorem part_of_unbegun (h : Numbered ops) : part ops (some (nesting ops).begun) = [] := by
  have hnone : (Emitter.entries ops)[(nesting ops).begun]? = none := by simp [h.count]
  simp [part, start, hnone, h.unbegun]

/-- The open functions, the main part and the closed functions are different. -/
theorem nodup (h : Numbered ops) : ((nesting ops).around ++ (closed ops).map some).Nodup := by
  have hperm : ((nesting ops).around ++ (closed ops).map some).Perm
      (none :: ((nesting ops).pending ++ closed ops).map some) := by
    simp [Nesting.around]
  have hsome := (h.perm.nodup_iff.2 List.nodup_range).map fun _ _ => Option.some.inj
  exact hperm.nodup_iff.2 (List.nodup_cons.2 ⟨by simp, hsome⟩)

/-- The function that is opened next is none of those that were opened before. -/
theorem ne_begun (h : Numbered ops) {g : Option Nat} (hg : g ∈ (nesting ops).around ++ (closed ops).map some) :
    g ≠ some (nesting ops).begun := by
  rintro rfl
  have hmem : (nesting ops).begun ∈ (nesting ops).pending ++ closed ops := by
    simpa [Nesting.around] using hg
  exact Nat.lt_irrefl _ (List.mem_range.1 (h.perm.subset hmem))

end Numbered

/-- The innermost open function, or the main part, and what is around it. -/
theorem Nesting.around_eq (n : Nesting) : ∃ outside, n.around = n.pending.head? :: outside := by
  cases h : n.pending <;> simp [Nesting.around, h]

/-! ## Operation after operation -/

/-- Where the code of a sequence of operations is. The current code is the part of the innermost open function,
its handle holds the part around it, and so on to the main part; the parts of the closed functions are finished. -/
structure Accounts (ops : List Operation) (outers : List Code) : Prop where
  numbered : Numbered ops
  handles : List.Forall₂ (fun f outer => (run ops).handles[f]? = some ⟨outer⟩) (nesting ops).pending outers
  parts : (run ops).emitter.code :: outers = (nesting ops).around.map (part ops)
  functions : (run ops).emitter.functions = (closed ops).flatMap fun f => part ops (some f)
  emitted : (((nesting ops).around ++ (closed ops).map some).flatMap (part ops)).Perm
    (ops.flatMap Operation.emitted)

namespace Accounts

variable {ops : List Operation} {outers : List Code} {op : Operation}

theorem nil : Accounts [] [] where
  numbered := .nil
  handles := .nil
  parts := rfl
  functions := rfl
  emitted := .refl _

/-- An operation that opens and closes nothing. -/
theorem plain (h : Accounts ops outers) (he : op.entry? = none) (hc : op.closed? = none)
    (ha : (nesting ops).Allows op) : Accounts (ops ++ [op]) outers := by
  obtain ⟨hcode, hfunctions, hhandles⟩ : (run (ops ++ [op])).emitter.code = (run ops).emitter.code ++ op.inside ∧
      (run (ops ++ [op])).emitter.functions = (run ops).emitter.functions ∧
      (run (ops ++ [op])).handles = (run ops).handles := by
    cases op <;> simp_all [Session.step, Operation.inside, Operation.entry?, Operation.closed?, emit, emitAll,
      Emitter.freshBranch, Emitter.freshFunction]
  have hnesting : nesting (ops ++ [op]) = nesting ops := by
    cases op <;> simp_all [Nesting.step, Operation.entry?, Operation.closed?]
  have hemitted : op.emitted = op.inside := by
    cases op <;> simp_all [Operation.emitted, Operation.entry?]
  have hadds (f) : (nesting ops).adds f op = (nesting ops).emits f op := by
    cases op <;> simp_all [Nesting.adds, Operation.entry?]
  have hclosed : closed (ops ++ [op]) = closed ops := by simp [hc]
  obtain ⟨outside, haround⟩ := (nesting ops).around_eq
  have hnodup := h.numbered.nodup
  rw [haround, List.cons_append, List.nodup_cons] at hnodup
  -- Only the part at hand grows.
  have hhead : part (ops ++ [op]) (nesting ops).pending.head? =
      part ops (nesting ops).pending.head? ++ op.inside := by
    rw [h.numbered.part_concat, hadds, Nesting.emits, if_pos rfl]
  have hrest : ∀ g ∈ outside ++ (closed ops).map some, part (ops ++ [op]) g = part ops g := by
    intro g hg
    rw [h.numbered.part_concat, hadds, Nesting.emits, if_neg, List.append_nil]
    rintro rfl
    exact hnodup.1 hg
  have hparts := h.parts
  rw [haround, List.map_cons, List.cons.injEq] at hparts
  constructor
  case numbered => exact h.numbered.concat ha
  case handles => rw [hhandles, hnesting]; exact h.handles
  case parts =>
    rw [hcode, hnesting, haround, List.map_cons, hhead, hparts.1, hparts.2]
    congr 1
    exact List.map_congr_left fun g hg => (hrest g (List.mem_append_left _ hg)).symm
  case functions =>
    rw [hfunctions, hclosed, h.functions]
    exact List.flatMap_congr fun f hf =>
      (hrest _ (List.mem_append_right _ (List.mem_map_of_mem hf))).symm
  case emitted =>
    have hemit := h.emitted
    rw [haround, List.cons_append, List.flatMap_cons] at hemit
    rw [hnesting, hclosed, haround, List.cons_append, List.flatMap_cons, hhead, List.flatMap_congr hrest,
      flatMap_emitted_concat, hemitted, List.append_assoc]
    refine .trans (List.perm_append_comm.append_left _) ?_
    rw [← List.append_assoc]
    exact hemit.append_right _

/-- The code at hand goes into the handle, and the label of the new function takes its place. No other part
changes. -/
theorem opened (h : Accounts ops outers) (entry : Label) :
    Accounts (ops ++ [.begin entry]) ((run ops).emitter.code :: outers) := by
  -- The new function has its label as code so far, and no other function gets any.
  have hnew : part (ops ++ [.begin entry]) (some (nesting ops).begun) = [.place entry] := by
    rw [h.numbered.part_concat, Nesting.adds, if_pos rfl, h.numbered.part_of_unbegun, List.nil_append]
  have hrest : ∀ g ∈ (nesting ops).around ++ (closed ops).map some,
      part (ops ++ [.begin entry]) g = part ops g := by
    intro g hg
    rw [h.numbered.part_concat, Nesting.adds, if_neg (h.numbered.ne_begun hg), List.append_nil]
  have haround : (nesting (ops ++ [.begin entry])).around =
      some (nesting ops).begun :: (nesting ops).around := by
    simp [Nesting.around, Nesting.step]
  have hclosed : closed (ops ++ [.begin entry]) = closed ops := by simp [Operation.closed?]
  have hhandles : (run (ops ++ [.begin entry])).handles = (run ops).handles ++ [⟨(run ops).emitter.code⟩] := by
    simp [Session.step, Emitter.begin]
  constructor
  case numbered => exact h.numbered.concat trivial
  case handles =>
    rw [hhandles, nesting_concat, Nesting.step]
    constructor
    · simp [← h.numbered.count, ← length_handles]
    · exact h.handles.imp fun f outer hf => by
        rw [List.getElem?_append_left (List.getElem?_eq_some_iff.1 hf).1, hf]
  case parts =>
    rw [haround, List.map_cons, hnew, h.parts,
      List.map_congr_left fun g hg => hrest g (List.mem_append_left _ hg)]
    simp [Session.step, Emitter.begin]
  case functions =>
    have hfunctions : (run (ops ++ [.begin entry])).emitter.functions = (run ops).emitter.functions := by
      simp [Session.step, Emitter.begin]
    rw [hfunctions, hclosed, h.functions]
    exact List.flatMap_congr fun f hf =>
      (hrest _ (List.mem_append_right _ (List.mem_map_of_mem hf))).symm
  case emitted =>
    rw [haround, hclosed, List.cons_append, List.flatMap_cons, hnew, List.flatMap_congr hrest,
      flatMap_emitted_concat]
    exact (h.emitted.append_left _).trans List.perm_append_comm

/-- The code goes on where it was when the function was opened. -/
theorem close (h : Accounts ops outers) {f : Nat} (ha : (nesting ops).Allows (.close f)) :
    ∃ outer rest, outers = outer :: rest ∧ (run ops).handles[f]? = some ⟨outer⟩ ∧
      Accounts (ops ++ [.close f]) rest := by
  obtain ⟨pending, hpending⟩ := List.head?_eq_some_iff.1 ha
  obtain ⟨outer, rest, hhandle, hhandles, rfl⟩ := List.forall₂_cons_left_iff.1 (hpending ▸ h.handles)
  refine ⟨outer, rest, rfl, hhandle, ?_⟩
  have hstep : run (ops ++ [.close f]) =
      { run ops with emitter := (run ops).emitter.finishFunction ⟨outer⟩ } := by
    rw [run_concat, Session.step, hhandle]
  -- Closing emits nothing. It moves what has been emitted to the finished functions.
  have hpart (g) : part (ops ++ [.close f]) g = part ops g := by
    have hadds : (nesting ops).adds g (.close f) = [] := by simp [Nesting.adds, Nesting.emits, Operation.inside]
    rw [h.numbered.part_concat, hadds, List.append_nil]
  have haround : (nesting ops).around = some f :: (nesting (ops ++ [.close f])).around := by
    simp [Nesting.around, Nesting.step, hpending]
  have hclosed : closed (ops ++ [.close f]) = closed ops ++ [f] := by simp [Operation.closed?]
  have hparts := h.parts
  rw [haround, List.map_cons, List.cons.injEq] at hparts
  constructor
  case numbered => exact h.numbered.concat ha
  case handles =>
    rw [hstep, nesting_concat]
    simpa [Nesting.step, hpending] using hhandles
  case parts =>
    rw [hstep, List.map_congr_left fun g _ => hpart g]
    exact hparts.2
  case functions =>
    rw [hstep, hclosed, List.flatMap_append]
    simp [finishFunction, hpart, h.functions, hparts.1]
  case emitted =>
    have hemitted := h.emitted
    rw [haround] at hemitted
    rw [hclosed, List.flatMap_congr fun g _ => hpart g, flatMap_emitted_concat]
    refine .trans (.flatMap_right _ ?_) (hemitted.trans (.of_eq (List.append_nil _).symm))
    rw [List.map_append, ← List.append_assoc]
    exact List.perm_append_singleton _ _

end Accounts

/-- Operations that close the innermost open function only are accounted for, each as it is done. -/
theorem exists_accounts {ops : List Operation} (h : Nesting.AllowsAll {} ops) : ∃ outers, Accounts ops outers := by
  induction ops using List.reverseRecOn with
  | nil => exact ⟨[], .nil⟩
  | append_singleton ops op ih =>
    obtain ⟨hops, hop, -⟩ := (Nesting.allowsAll_append {}).1 h
    obtain ⟨outers, haccounts⟩ := ih hops
    cases op with
    | begin entry => exact ⟨_, haccounts.opened entry⟩
    | close f =>
      obtain ⟨_, rest, _, _, hclose⟩ := haccounts.close hop
      exact ⟨rest, hclose⟩
    | _ => exact ⟨outers, haccounts.plain rfl rfl hop⟩

/-! ## The unit -/

/-- A function that is closed was opened, and the code goes on where it was right before. -/
theorem Nested.resumes {front after : List Operation} {f : Nat} (h : Nested (front ++ .close f :: after)) :
    ∃ before entry inner, front = before ++ .begin entry :: inner ∧ (entries before).length = f ∧
      (run (front ++ [.close f])).emitter.code = (run before).emitter.code := by
  obtain ⟨hfront, hclose, -⟩ := (Nesting.allowsAll_append {}).1 h.1
  obtain ⟨outers, haccounts⟩ := exists_accounts hfront
  obtain ⟨outer, rest, -, hhandle, -⟩ := haccounts.close hclose
  obtain ⟨before, entry, inner, hsplit, hlength, houter⟩ := exists_begin hhandle
  refine ⟨before, entry, inner, hsplit, hlength, ?_⟩
  rw [run_concat, Session.step, hhandle]
  exact houter

/-- The part of a function that was opened is a block under its label. -/
theorem Numbered.exists_entry {ops : List Operation} (h : Numbered ops) {f : Nat} (hf : f ∈ closed ops) :
    ∃ entry, (entries ops)[f]? = some entry ∧
      part ops (some f) = .place entry :: emittedIn (some f) ops := by
  have hlt : f < (entries ops).length :=
    h.count ▸ List.mem_range.1 (h.perm.subset (List.mem_append_right _ hf))
  exact ⟨_, List.getElem?_eq_getElem hlt, by simp [part, start, List.getElem?_eq_getElem hlt]⟩

/-- Of properly nested operations nothing is lost and nothing is repeated. The unit is what was emitted outside
all functions, and then one block for each function, in the order in which they were closed: its label and what
was emitted while it was the innermost open one. So each instruction that was emitted is in the unit once. When a
function is closed, the current code is what it was right before the function was opened. -/
theorem finish_of_nested {ops : List Operation} (h : Nested ops) :
    (∃ blocks, (run ops).emitter.finish.code = emittedIn none ops ++ blocks.flatten ∧
      List.Forall₂ (fun f block => ∃ entry, (entries ops)[f]? = some entry ∧
        block = .place entry :: emittedIn (some f) ops) (closed ops) blocks) ∧
    (closed ops).Perm (List.range (entries ops).length) ∧
    (run ops).emitter.finish.code.Perm (ops.flatMap Operation.emitted) ∧
    ∀ front f after, ops = front ++ .close f :: after →
      ∃ before entry inner, front = before ++ .begin entry :: inner ∧ (entries before).length = f ∧
        (run (front ++ [.close f])).emitter.code = (run before).emitter.code := by
  obtain ⟨outers, haccounts⟩ := exists_accounts h.1
  obtain ⟨hnumbered, -, hparts, hfunctions, hemitted⟩ := haccounts
  -- No function is open, so the current code is the main part.
  have haround : (nesting ops).around = [none] := by simp [Nesting.around, h.2]
  have hmain : part ops none = emittedIn none ops := by simp [part, start]
  rw [haround] at hparts hemitted
  have hcode : (run ops).emitter.code = emittedIn none ops := by
    rw [← hmain]
    exact (List.cons.inj hparts).1
  have hfinish : (run ops).emitter.finish.code =
      emittedIn none ops ++ ((closed ops).map fun f => part ops (some f)).flatten := by
    rw [finish, hcode, hfunctions, List.flatMap_def]
  refine ⟨⟨_, hfinish, ?_⟩, ?_, ?_, ?_⟩
  · exact List.forall₂_map_right_iff.2 (List.forall₂_same.2 fun f hf => hnumbered.exists_entry hf)
  · rw [hnumbered.count]
    simpa [h.2] using hnumbered.perm
  · rw [hfinish, ← hmain, ← List.flatMap_def]
    simpa [List.flatMap_map] using hemitted
  · rintro front f after rfl
    exact h.resumes

/-- A function in a function, with code on both sides of each. -/
def nestedPair : List Operation :=
  [.emit (.push 0), .freshFunction, .begin ⟨.function, 0⟩, .emit .copyFp, .freshFunction, .begin ⟨.function, 1⟩,
    .emit (.load .ra), .close 1, .emit (.pushLabel ⟨.function, 1⟩), .close 0,
    .emitAll [.pushLabel ⟨.function, 0⟩, .halt]]

theorem finish_nestedPair :
    Nested nestedPair ∧
      (run nestedPair).emitter.finish.code =
        [.push 0, .pushLabel ⟨.function, 0⟩, .halt, .place ⟨.function, 1⟩, .load .ra, .place ⟨.function, 0⟩, .copyFp,
          .pushLabel ⟨.function, 1⟩] ∧
      (run nestedPair).emitter.finish.code.Perm (nestedPair.flatMap Operation.emitted) := by
  have hnested : Nested nestedPair := by
    simp [Nested, nestedPair, nesting, Nesting.AllowsAll, Nesting.Allows, Nesting.step]
  exact ⟨hnested, rfl, (finish_of_nested hnested).2.2.1⟩

end Emitter

end ObjLet
