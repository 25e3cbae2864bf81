import ObjLet.Proofs.Links.Calls
import ObjLet.Proofs.Links.Heap
import ObjLet.Proofs.Simulation.Object

/-!
# New objects

An object is built on the heap from the values of its fields, and a ledger keeps where it lies (`Ledger.grow`). The
layout of its class counts the fields down from the address of the dispatch table, so every field is where its
offset says (`Loaded.rep_object`).
-/

namespace ObjLet

/-- A ledger with a new object, which has words and above them the address of a dispatch table. -/
def Ledger.grow (W : Ledger) (id : Nat) (vs : List Int) (d : Int) : Ledger where
  base p := if p = .object id then some (W.heap.length + vs.length : Nat) else W.base p
  around := W.around
  word := W.word
  heap := W.heap ++ (vs ++ [d])

namespace Ledger

variable {W : Ledger} {id : Nat} {vs : List Int} {d : Int}

/-- A new object lies behind its fields, at the address of its table's word. -/
theorem base_grow_self : (W.grow id vs d).base (.object id) = some (W.heap.length + vs.length : Nat) := if_pos rfl

theorem base_grow_of_ne {p : Place} (h : p ≠ .object id) : (W.grow id vs d).base p = W.base p := if_neg h

theorem base_grow_activation {n : Nat} : (W.grow id vs d).base (.activation n) = W.base (.activation n) :=
  base_grow_of_ne fun h => nomatch h

/-- An object that was not known before may be added to a ledger. -/
theorem le_grow (h : W.base (.object id) = none) : W.Le (W.grow id vs d) where
  base {p} {b} hb := by
    rw [base_grow_of_ne ?_, hb]
    rintro rfl
    rw [h] at hb
    cases hb
  around := fun ha => ha
  word := fun hw => hw
  heap := List.prefix_append _ _

/-- The address of the dispatch table is at the base of the new object. -/
theorem heapCell_grow_table : HeapCell (W.grow id vs d).heap (W.heap.length + vs.length : Nat) d := by
  refine ⟨W.heap.length + vs.length, ?_, rfl⟩
  rw [grow, ← List.append_assoc, ← List.length_append, List.getElem?_concat_length]

/-- The words of the fields are below. -/
theorem heapCell_grow_word (W : Ledger) (id : Nat) (d : Int) {i : Nat} {x : Int} (hx : vs.reverse[i]? = some x) :
    HeapCell (W.grow id vs d).heap ((W.heap.length + vs.length : Nat) - 1 - i) x := by
  have hlt := (List.getElem?_eq_some_iff.1 hx).1
  rw [List.length_reverse] at hlt
  rw [List.getElem?_reverse hlt] at hx
  refine ⟨W.heap.length + (vs.length - 1 - i), ?_, by omega⟩
  rw [grow, List.getElem?_append_right (Nat.le_add_right _ _), Nat.add_sub_cancel_left,
    List.getElem?_append_left (by omega)]
  exact hx

end Ledger

namespace Loaded

variable {L : Loaded} {p q : Stage} {W : Ledger}

/-- Objects are numbered as they are created, so the next one is new to the ledger. -/
theorem Stands.fresh (h : L.Stands p) : p.ledger.base (.object p.history.objects) = none := by
  cases hb : p.ledger.base (.object p.history.objects) with
  | none => rfl
  | some b => exact absurd (h.object hb).1 (Nat.lt_irrefl _)

/-- A new object stands behind the others. -/
theorem Stands.grow (h : L.Stands p) {vs : List Int} {d : Int} {ip : Nat} {c : Snapshot} (ws : List Int)
    (hs : c.stack = ws ++ p.snapshot.stack) (hh : c.heap = p.snapshot.heap ++ (vs ++ [d])) :
    L.Stands ⟨p.ledger.grow p.history.objects vs d, { p.history with objects := p.history.objects + 1 }, ip, c⟩ := by
  -- An object that is known afterwards is the new one, behind all others, or was known before.
  have hold : ∀ {id : Nat} {b : Int},
      (p.ledger.grow p.history.objects vs d).base (.object id) = some b →
        (id = p.history.objects ∧ b = (p.ledger.heap.length + vs.length : Nat)) ∨
        (p.ledger.base (.object id) = some b ∧ id < p.history.objects ∧ 0 ≤ b ∧ b < p.ledger.heap.length) := by
    intro id b hb
    by_cases heq : id = p.history.objects
    · subst heq
      rw [Ledger.base_grow_self] at hb
      exact .inl ⟨rfl, (Option.some.inj hb).symm⟩
    · rw [Ledger.base_grow_of_ne (by simpa using heq)] at hb
      exact .inr ⟨hb, h.object hb⟩
  have hlen : (p.ledger.grow p.history.objects vs d).heap.length = p.ledger.heap.length + vs.length + 1 := by
    simp [Ledger.grow]
    omega
  refine ⟨?_, fun n hn o x hw => ?_, h.around, h.old, fun {n} hn => ?_, fun {id b} hb => ?_,
    fun {id id' b} hb hb' => ?_,
    ?_, h.outermost.2⟩
  · change c.heap = p.ledger.heap ++ (vs ++ [d])
    rw [hh, h.heap]
  · obtain ⟨b, hb, hc⟩ := h.cell n hn hw
    refine ⟨b, Ledger.base_grow_activation.trans hb, ?_⟩
    change L.target.StackCell c.stack (b + o) x
    rw [hs]
    exact hc.append ws
  · obtain ⟨hb, ha, hw⟩ := h.new hn
    exact ⟨Ledger.base_grow_activation.trans hb, ha, hw⟩
  · change id < p.history.objects + 1 ∧ 0 ≤ b ∧ b < (p.ledger.grow p.history.objects vs d).heap.length
    rw [hlen]
    rcases hold hb with ⟨rfl, rfl⟩ | ⟨-, hid, h0, hlt⟩
    · omega
    · omega
  · rcases hold hb with ⟨rfl, rfl⟩ | ⟨hb₁, hid, h0, hlt⟩ <;> rcases hold hb' with ⟨rfl, heq⟩ | ⟨hb₂, hid', h0', hlt'⟩
    · rfl
    · omega
    · omega
    · exact h.distinct hb₁ hb₂
  · exact Ledger.base_grow_activation.trans h.outermost.1

/-- Values take the words of their types. -/
theorem length_words {args : List Value} {words : List (List Int)} {tys : List Ty}
    (hreps : List.Forall₂ (L.Rep W) args words) (htypes : List.Forall₂ (Value.HasType L.tables) args tys) :
    List.Forall₂ (fun ty v => v.length = ty.words) tys words := by
  induction hreps generalizing tys with
  | nil =>
    cases htypes
    exact .nil
  | cons hrep _ ih =>
    cases htypes with
    | cons hty htys => exact .cons (by rw [hrep.length, hty.words_eq]) (ih htys)

/-- Fields have the widths of their types, also with their words in reverse. -/
theorem length_reverse_words {args : List Value} {words : List (List Int)} {tys : List Ty}
    (hreps : List.Forall₂ (L.Rep W) args words) (htypes : List.Forall₂ (Value.HasType L.tables) args tys) :
    List.Forall₂ (fun ty v => v.length = ty.words) tys (words.map List.reverse) :=
  List.forall₂_map_right_iff.2 ((length_words hreps htypes).imp fun _ _ h => by rwa [List.length_reverse])

/-- Arguments are pushed from the first to the last and stored from the last to the first, so each field has its
words in reverse, but the fields stand in order. -/
theorem reverse_flatten_reverse (words : List (List Int)) :
    words.reverse.flatten.reverse = (words.map List.reverse).flatten := by
  rw [List.reverse_flatten, List.map_reverse, List.reverse_reverse]

/-- Every field is where its offset says. -/
theorem rep_object {lineage : List ClassValue} {c : ClassId} {cls : Class} {d : Int} {args : List Value}
    {words : List (List Int)} {id : Nat} (hid : W.base (.object id) = none) (hl : L.Heritage W lineage (some c))
    (hc : L.tables.classes.class? c = some cls) (ht : L.TableAt W.heap c d)
    (htypes : List.Forall₂ (Value.HasType L.tables) args cls.layout.fields)
    (hreps : List.Forall₂ (L.Rep W) args words) :
    L.Rep (W.grow id words.reverse.flatten d) (.object id lineage ((ClassValue.fieldNames lineage).zip args))
      [(W.heap.length + words.reverse.flatten.length : Nat)] := by
  have hle : W.Le (W.grow id words.reverse.flatten d) := Ledger.le_grow hid
  obtain ⟨ms, hlaid, -⟩ := hl.fits.laid L.lineal hc
  refine .object Ledger.base_grow_self (hl.mono hle) hc Ledger.heapCell_grow_table (ht.mono hle)
    fun name e v he hk hv => ?_
  obtain ⟨before, after, hsplit, -⟩ := List.lookup_eq_some_iff.1 hv
  have hmem : (name, v) ∈ (ClassValue.fieldNames lineage).zip args := by
    rw [hsplit]
    simp
  obtain ⟨k, hi⟩ := List.getElem?_of_mem hmem
  rw [List.getElem?_zip_eq_some] at hi
  obtain ⟨o, ty, ho, -, hentry⟩ := hlaid.field hi.1
  cases he.symm.trans hentry
  obtain ⟨ws, hws, hrep⟩ : ∃ ws, words[k]? = some ws ∧ L.Rep W v ws := by
    obtain ⟨hlt, rfl⟩ := List.getElem?_eq_some_iff.1 hi.2
    have hlt' : k < words.length := hreps.length_eq ▸ hlt
    exact ⟨_, List.getElem?_eq_getElem hlt', hreps.get hlt hlt'⟩
  refine .value (hrep.mono hle) fun j x hx => ?_
  have hlt := (List.getElem?_eq_some_iff.1 hx).1
  -- Fields go down from the address while arguments go up, so the words of a field are found in the reversed
  -- list.
  obtain ⟨i, hoff, hword⟩ := exists_word_of_offset (v := ws.reverse) (j := ws.length - 1 - j)
    (length_reverse_words hreps htypes) ho
    (by rw [List.getElem?_map, hws]; rfl)
    (by rw [List.getElem?_reverse (by omega)]; rwa [show ws.length - 1 - (ws.length - 1 - j) = j by omega])
  rw [← reverse_flatten_reverse] at hword
  refine ⟨_, Ledger.base_grow_self, ?_⟩
  have hcell := Ledger.heapCell_grow_word W id d hword
  rwa [show ((W.heap.length + words.reverse.flatten.length : Nat) : Int) - 1 - i =
    (W.heap.length + words.reverse.flatten.length : Nat) + (o + 1 - ws.length + j) by omega] at hcell

/-- The machine builds the object that a `new` creates, from the values on the stack. -/
theorem Tracks.create {fuel : Nat} (hp : L.Stands p) (hq : L.Stands q) (hf : p.Follows p.history.live q)
    {lineage : List ClassValue} {c : ClassId} {cls : Class} {d offset : Int} {args : List Value}
    {words : List (List Int)} (hl : L.Heritage q.ledger lineage (some c)) (hc : L.tables.classes.class? c = some cls)
    (hd : q.ledger.word 0 offset d) (ht : L.TableAt q.ledger.heap c d)
    (htypes : List.Forall₂ (Value.HasType L.tables) args cls.layout.fields)
    (hreps : List.Forall₂ (L.Rep q.ledger) args words)
    (hs : q.snapshot.stack = words.reverse.flatten ++ p.snapshot.stack) (hfp : q.snapshot.fp = p.snapshot.fp)
    {site : NodeId}
    (hsits : L.listing.Sits q.ip (Code.ending (.created site)
      (Code.newObject words.reverse.flatten.length (L.target.memory + offset)))) :
    L.Tracks fuel q (Eval.create site lineage ((ClassValue.fieldNames lineage).zip args)) fun v =>
      L.Pushes p (q.ip + (Code.ending (.created site)
        (Code.newObject words.reverse.flatten.length (L.target.memory + offset))).size) p.snapshot.fp p.snapshot.stack
        (L.Rep · v) := by
  -- The dispatch table is found in the outermost frame, at the slot of the class.
  have htable : L.target.StackCell p.snapshot.stack (L.target.memory + offset) d := by
    obtain ⟨b, hb, hcell⟩ := hp.cell 0 hp.outermost.2 (hf.word 0 hp.outermost.2 hd)
    cases hb.symm.trans hp.outermost.1
    exact hcell
  have hgoes := Target.Goes.newObject (c := q.snapshot) htable hsits
  have hclear : L.Stands { q with snapshot := { q.snapshot with stack := p.snapshot.stack } } :=
    hp.restack hq hf [] rfl rfl
  have hrep := rep_object hq.fresh hl hc ht htypes hreps
  have hbase : ((q.snapshot.heap.length + words.reverse.flatten.length : Nat) : Int) =
      (q.ledger.heap.length + words.reverse.flatten.length : Nat) := by rw [hq.heap]
  have hle : q.ledger.Le (q.ledger.grow q.history.objects words.reverse.flatten d) := Ledger.le_grow hq.fresh
  rw [← Eval.bind_pure (Eval.create _ _ _)]
  refine .of_succ (.event rfl hle (.of_stack hs hgoes) (fun s hat W hW => .created ?_) (.pure ?_))
  · -- What is shown is the address of the new object, which is where the ledger puts it.
    have htop := hat.word (i := 0) rfl
    rw [Int.natCast_zero, Int.add_zero, hbase] at htop
    exact htop.trans (Ledger.origin_eq (hW.base Ledger.base_grow_self)).symm
  · refine ⟨rfl, hfp, hclear.grow [_] rfl rfl, ⟨hf.ledger.trans hle, hf.live, hf.word⟩, _, hrep, ?_⟩
    rw [← hbase]
    rfl

end Loaded

end ObjLet
