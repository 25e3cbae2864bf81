import ObjLet.Proofs.Code.Marked
import ObjLet.Proofs.Meaning.Eval

/-!
# Where access links lead

The law that the way to a declaration keeps, as it is seen from outside. A run of the unit of a program shows the
marked instructions that it has completed, and the evaluation of the program lists its events. `Event.ShownBy` says
that a marked state goes with an event, given where the frames of activations and the objects lie: a frame is set
up and an object built at its origin, and a way ends at the origin of the place that holds the declaration, from
which the offset of its entry leads to its value. `Shows` compares the two lists.

Objects have no access link. So a way that crosses the frame of an object leads astray, and nothing is said of what
comes after it (`Event.Stray`); nor after a call of a function value whose frame is gone.
-/

namespace ObjLet

/-- A site is bound to a use; of a method call, it is that of its object. -/
def Tables.UsedAt (t : Tables) (site : NodeId) (use : Resolution) : Prop :=
  t.resolutions.use? site = some use ∨ ∃ call, t.resolutions.methodCall? site = some call ∧ call.object = use

/-- A value lies at an address. Of a function value it is the upper word that lies there. -/
def Value.LiesAt (ls : Listing) (origin : Place → Int) (mem : Int → Int) (a : Int) : Value → Prop
  | .int n => mem a = n
  | .bool b => mem a = if b then 1 else 0
  | .null => mem a = -1
  | .object id _ _ => mem a = origin (.object id)
  | .closure f env => (∃ frame, env.head? = some frame ∧ mem a = origin frame.place) ∧
      ∃ ip : Nat, mem (a - 1) = ip ∧ ls.markAt ip = some (.entered f.id)

/-- A marked state goes with an event. -/
inductive Event.ShownBy (t : Tables) (ls : Listing) (origin : Place → Int) : Event → Mark × Machine → Prop where
  | entered {f : NodeId} {a : Nat} {s : Machine} (h : s.fp = origin (.activation a)) :
    ShownBy t ls origin (.entered f a) (.entered f, s)
  | created {site : NodeId} {id : Nat} {s : Machine} (h : s.top = origin (.object id)) :
    ShownBy t ls origin (.created site id) (.created site, s)
  /-- The way to a value ends where its offset counts from. -/
  | reached {site : NodeId} {place : Place} {v : Value} {use : Resolution} {s : Machine}
    (huse : t.UsedAt site use) (hk : use.entry.kind ≠ .method) (htop : s.top = origin place)
    (hv : v.LiesAt ls origin s.mem (s.top + use.entry.offset)) :
    ShownBy t ls origin (.reached site place v false) (.reached site, s)
  /-- The way to a method ends at the object itself. -/
  | self {site : NodeId} {id : Nat} {lineage : List ClassValue} {fields : List (String × Value)} {use : Resolution}
    {s : Machine} (huse : t.UsedAt site use) (hk : use.entry.kind = .method) (htop : s.top = origin (.object id)) :
    ShownBy t ls origin (.reached site (.object id) (.object id lineage fields) false) (.reached site, s)

/-- What comes after the event is not what the program means. -/
inductive Event.Stray : Event → Prop where
  | crossed (site : NodeId) (place : Place) (v : Value) : Stray (.reached site place v true)
  | outlived (site : NodeId) : Stray (.outlived site)

/-- A run shows the first events one by one, up to one that is stray. -/
inductive Shows (t : Tables) (ls : Listing) (origin : Place → Int) : List Event → List (Mark × Machine) → Prop where
  | nil {es : List Event} : Shows t ls origin es []
  | cons {e : Event} {es : List Event} {o : Mark × Machine} {obs : List (Mark × Machine)}
    (he : e.ShownBy t ls origin o) (h : Shows t ls origin es obs) : Shows t ls origin (e :: es) (o :: obs)
  | stray {e : Event} {es : List Event} {obs : List (Mark × Machine)} (he : e.Stray) : Shows t ls origin (e :: es) obs

/-- In the first steps of a run the stack does not take up the word at the end of the heap. -/
def Target.Clear (T : Target) (u : CodeUnit) (n : Nat) (s : Machine) : Prop :=
  ∀ k ≤ n, ∀ s', T.run u k s = .ok s' → s'.hp < s'.sp

variable {t : Tables} {ls : Listing} {origin : Place → Int} {es es' : List Event} {obs obs' : List (Mark × Machine)}

namespace Shows

/-- If only the first events are shown, events at the end do not matter. -/
theorem append_right (h : Shows t ls origin es obs) (es' : List Event) : Shows t ls origin (es ++ es') obs := by
  induction h with
  | nil => exact .nil
  | cons he _ ih => exact .cons he ih
  | stray he => exact .stray he

/-- Events that were all shown, and then the first of those that follow. -/
theorem append (hes : List.Forall₂ (Event.ShownBy t ls origin) es obs) (h : Shows t ls origin es' obs') :
    Shows t ls origin (es ++ es') (obs ++ obs') := by
  induction hes with
  | nil => exact h
  | cons he _ ih => exact .cons he ih

/-- A part of what a run has shown. -/
theorem of_append (hes : List.Forall₂ (Event.ShownBy t ls origin) es (obs ++ obs')) : Shows t ls origin es obs := by
  induction obs generalizing es with
  | nil => exact .nil
  | cons o obs ih =>
    obtain - | ⟨he, hes⟩ := hes
    exact .cons he (ih hes)

end Shows

namespace Target.Clear

variable {T : Target} {u : CodeUnit} {m n : Nat} {s s' : Machine}

/-- A run that keeps clear of the heap does so from every state on its way. -/
theorem right (h : T.Clear u (m + n) s) (hrun : T.run u m s = .ok s') : T.Clear u n s' := by
  intro k hk s'' hs''
  refine h (m + k) (by omega) s'' ?_
  rw [Target.run_add, hrun]
  exact hs''

end Target.Clear

end ObjLet
