import ObjLet.Proofs.Links.Law
import ObjLet.Proofs.Links.Ledger
import ObjLet.Proofs.Links.Passage

/-!
# Runs that keep track of an evaluation

An evaluation and a run of the machine are followed side by side, from one `Stage` to the next. `Loaded.Tracks`
says that the run shows the events of the evaluation: all of them, and the machine is where the evaluation's value
leaves it, or else the first ones, as far as a number of steps goes. There is one rule for each way in which
evaluations are put together, and one for each way in which the machine goes on.
-/

namespace ObjLet

/-- How far evaluation and machine have come. -/
structure Stage where
  ledger : Ledger
  history : History
  ip : Nat
  snapshot : Snapshot

namespace Eval

variable {α β : Type}

/-- Where the first evaluation has a value, the events of both follow each other. -/
theorem bind_of_value {x : Eval α} {f : α → Eval β} {h h' : History} {a : α} {es : List Event}
    (hx : x h = (.value a, h', es)) :
    (x >>= f) h = ((f a h').1, (f a h').2.1, es ++ (f a h').2.2) := by
  change andThen x f h = _
  rw [andThen, hx]

/-- Used to bring a last step into the form of the rules below. -/
theorem bind_pure (x : Eval α) : x >>= Pure.pure = x := by
  funext h
  change andThen x Pure.pure h = x h
  unfold andThen
  split
  · next a h' es hx =>
    rw [hx]
    change (_, _, es ++ []) = _
    rw [List.append_nil]
  all_goals next h' es hx => exact hx.symm

/-- The events of the first evaluation come first. -/
theorem exists_events_bind (x : Eval α) (f : α → Eval β) (h : History) :
    ∃ es, ((x >>= f) h).2.2 = (x h).2.2 ++ es := by
  change ∃ es, (andThen x f h).2.2 = _
  unfold andThen
  split
  · next a h' es hx => exact ⟨(f a h').2.2, by rw [hx]⟩
  all_goals next h' es hx => exact ⟨[], by rw [hx, List.append_nil]⟩

end Eval

/-- Where places lie, as far as is known. -/
def Ledger.origin (W : Ledger) (p : Place) : Int := (W.base p).getD 0

/-- Where a place is known, its origin is its base. -/
theorem Ledger.origin_eq {W : Ledger} {p : Place} {b : Int} (h : W.base p = some b) : W.origin p = b := by
  rw [origin, h]
  rfl

namespace Loaded

variable {α β : Type}

/-- States that a run has shown go with events, under every later ledger. -/
def Matches (L : Loaded) (W : Ledger) (es : List Event) (obs : List (Mark × Machine)) : Prop :=
  ∀ W', W.Le W' → List.Forall₂ (Event.ShownBy L.tables L.listing W'.origin) es obs

/-- From a machine on, every run of at most some steps shows the first of some events. -/
def Keeps (L : Loaded) (fuel : Nat) (W : Ledger) (s : Machine) (es : List Event) : Prop :=
  ∀ n ≤ fuel, ∀ obs s', L.target.Runs L.listing n s obs s' → L.target.Clear L.listing.unit n s →
    Shows L.tables L.listing W.origin es obs

/-- The machine keeps track of an evaluation, and where it comes to a value, the last stage goes with it. -/
def Tracks (L : Loaded) (fuel : Nat) (p : Stage) (x : Eval α) (Q : α → Stage → Prop) : Prop :=
  ∀ s, s.At L.target p.ip p.snapshot →
    (∃ a q es n obs s', x p.history = (.value a, q.history, es) ∧ p.ledger.Le q.ledger ∧
      L.target.Runs L.listing n s obs s' ∧ L.Matches q.ledger es obs ∧ s'.At L.target q.ip q.snapshot ∧ Q a q) ∨
    ∃ W, p.ledger.Le W ∧ L.Keeps fuel W s (x p.history).2.2

variable {L : Loaded} {fuel : Nat} {p q : Stage} {x : Eval α} {f : α → Eval β} {P : α → Stage → Prop}
  {Q : β → Stage → Prop}

theorem Matches.nil (W : Ledger) : L.Matches W [] [] := fun _ _ => .nil

/-- The states of a run are matched with events piece by piece; a later ledger serves for all of them. -/
theorem Matches.append {W W' : Ledger} {es es' : List Event} {obs obs' : List (Mark × Machine)}
    (h : L.Matches W es obs) (hle : W.Le W') (h' : L.Matches W' es' obs') :
    L.Matches W' (es ++ es') (obs ++ obs') :=
  fun W'' hW => List.rel_append (h W'' (hle.trans hW)) (h' W'' hW)

/-- A run that is blocked shows nothing more, and nothing is what it has shown since. -/
theorem Keeps.of_blocked {W : Ledger} {s s' : Machine} {n : Nat} {es : List Event}
    (hrun : L.target.Runs L.listing n s [] s') (hb : L.target.Blocked L.listing s') : L.Keeps fuel W s es := by
  intro m _ obs s'' hruns hclear
  rcases Nat.lt_or_ge m n with hlt | hge
  · obtain ⟨rest, hnil, -⟩ := hruns.split hrun (Nat.le_of_lt hlt)
    obtain ⟨rfl, -⟩ := List.append_eq_nil_iff.1 hnil.symm
    exact .nil
  · obtain ⟨rest, rfl, hrest⟩ := hrun.split hruns hge
    rcases hb with hb | ⟨e, he⟩
    · have := hclear n hge s' hrun.run_eq
      omega
    · generalize m - n = k at hrest
      cases hrest with
      | refl => exact .nil
      | step hs _ => cases he.symm.trans hs

/-- Events that come later do not matter to a run that does not come so far. -/
theorem Keeps.append_right {W : Ledger} {s : Machine} {es : List Event} (h : L.Keeps fuel W s es)
    (es' : List Event) : L.Keeps fuel W s (es ++ es') :=
  fun n hn obs s' hruns hclear => (h n hn obs s' hruns hclear).append_right es'

/-- What a run has shown already does not count. -/
theorem Keeps.prepend {W W' : Ledger} {s s' : Machine} {n : Nat} {es es' : List Event} {obs : List (Mark × Machine)}
    (hrun : L.target.Runs L.listing n s obs s') (hm : L.Matches W' es obs) (hle : W'.Le W)
    (h : L.Keeps fuel W s' es') : L.Keeps (n + fuel) W s (es ++ es') := by
  intro m hm' obs' s'' hruns hclear
  have hes := hm W hle
  rcases Nat.lt_or_ge m n with hlt | hge
  · obtain ⟨rest, rfl, -⟩ := hruns.split hrun (Nat.le_of_lt hlt)
    exact (Shows.of_append hes).append_right es'
  · obtain ⟨rest, rfl, hrest⟩ := hrun.split hruns hge
    refine .append hes (h (m - n) (by omega) rest s'' hrest ?_)
    rw [← Nat.add_sub_of_le hge] at hclear
    exact hclear.right hrun.run_eq

theorem Keeps.mono {fuel' : Nat} {W : Ledger} {s : Machine} {es : List Event} (h : L.Keeps fuel W s es)
    (hle : fuel' ≤ fuel) : L.Keeps fuel' W s es :=
  fun n hn => h n (Nat.le_trans hn hle)

/-- The machine does not go on when all events have been shown. -/
theorem Keeps.of_ended {W : Ledger} {s s' s'' : Machine} {m n : Nat} {es : List Event} {obs : List (Mark × Machine)}
    (hruns : L.target.Runs L.listing n s obs s') (hm : L.Matches W es obs)
    (hrun : L.target.Runs L.listing m s' [] s'') (hb : L.target.Blocked L.listing s'') : L.Keeps fuel W s es := by
  have hrest : L.Keeps fuel W s' [] := .of_blocked hrun hb
  have hall := hrest.prepend hruns hm (.refl W)
  rw [List.append_nil] at hall
  exact hall.mono (Nat.le_add_left ..)

/-! ## Evaluations -/

namespace Tracks

/-- No step is taken and no event happens. -/
theorem pure {a : α} (h : P a p) : L.Tracks fuel p (Pure.pure a) P :=
  fun s hs => .inl ⟨a, p, [], 0, [], s, rfl, .refl _, .refl s, .nil _, hs, h⟩

theorem mono {R : α → Stage → Prop} (hx : L.Tracks fuel p x P) (h : ∀ a q, p.ledger.Le q.ledger → P a q → R a q) :
    L.Tracks fuel p x R := by
  intro s hs
  refine (hx s hs).imp_left ?_
  rintro ⟨a, q, es, n, obs, s', heq, hle, hruns, hm, hs', hp⟩
  exact ⟨a, q, es, n, obs, s', heq, hle, hruns, hm, hs', h a q hle hp⟩

/-- The rule for evaluations in sequence. If the first one is blocked, so is the whole; if it ends, the second
one starts in the stage where it ends. -/
theorem bind (hx : L.Tracks fuel p x P)
    (hf : ∀ a q, p.ledger.Le q.ledger → P a q → L.Tracks fuel q (f a) Q) : L.Tracks fuel p (x >>= f) Q := by
  intro s hs
  obtain ⟨a, q, es, n, obs, s', heq, hle, hruns, hm, hs', hp⟩ | ⟨W, hle, hkeeps⟩ := hx s hs
  · rw [Eval.bind_of_value heq]
    obtain ⟨b, r, es', n', obs', s'', heq', hle', hruns', hm', hs'', hq⟩ | ⟨W, hle', hkeeps⟩ := hf a q hle hp s' hs'
    · refine .inl ⟨b, r, es ++ es', n + n', obs ++ obs', s'', ?_, hle.trans hle', hruns.append hruns',
        hm.append hle' hm', hs'', hq⟩
      rw [heq']
    · exact .inr ⟨W, hle.trans hle', (hkeeps.prepend hruns hm hle').mono (Nat.le_add_left ..)⟩
  · obtain ⟨es, hes⟩ := Eval.exists_events_bind x f p.history
    refine .inr ⟨W, hle, ?_⟩
    rw [hes]
    exact hkeeps.append_right es

/-- What is known of the values of an evaluation holds of those that are computed. -/
theorem and_sound {R : α → Prop} (hx : L.Tracks fuel p x P) (hs : Eval.Sound x R) :
    L.Tracks fuel p x fun a q => R a ∧ P a q := by
  intro s hat
  refine (hx s hat).imp_left ?_
  rintro ⟨a, q, es, n, obs, s', heq, hle, hruns, hm, hs', hp⟩
  have hr := hs p.history
  rw [heq] at hr
  exact ⟨a, q, es, n, obs, s', heq, hle, hruns, hm, hs', hr, hp⟩

/-- In no step nothing is shown. -/
theorem zero : L.Tracks 0 p x P := by
  intro s _
  refine .inr ⟨p.ledger, .refl _, fun n hn obs s' hruns _ => ?_⟩
  cases Nat.le_zero.1 hn
  cases hruns
  exact .nil

/-- A bound on steps may be lowered, which the calls of a function do. -/
theorem of_succ (h : L.Tracks (fuel + 1) p x P) : L.Tracks fuel p x P := by
  intro s hs
  refine (h s hs).imp_right ?_
  rintro ⟨W, hle, hkeeps⟩
  exact ⟨W, hle, hkeeps.mono (Nat.le_succ _)⟩

/-- After a stray event nothing is to be shown. -/
theorem stray {e : Event} {es : List Event} (h : (x p.history).2.2 = e :: es) (he : e.Stray) : L.Tracks fuel p x P := by
  intro s _
  refine .inr ⟨p.ledger, .refl _, fun _ _ _ _ _ _ => ?_⟩
  rw [h]
  exact .stray he

/-! ## The machine -/

/-- The machine does not go on. -/
theorem blocked (h : L.target.Passes L.listing none (·.At L.target p.ip p.snapshot) fun _ => False) :
    L.Tracks fuel p x P := by
  intro s hs
  obtain ⟨n, s', hrun, hb⟩ | ⟨n, s', -, hfalse⟩ := h s hs
  · exact .inr ⟨p.ledger, .refl _, .of_blocked hrun hb⟩
  · exact hfalse.elim

/-- A run shows the events of an evaluation as far as it goes, if the machine does not go on at the end. -/
theorem keeps (hx : L.Tracks fuel p x fun _ q =>
      L.target.Passes L.listing none (·.At L.target q.ip q.snapshot) fun _ => False)
    {s : Machine} (hs : s.At L.target p.ip p.snapshot) :
    ∃ W, p.ledger.Le W ∧ L.Keeps fuel W s (x p.history).2.2 := by
  obtain ⟨a, q, es, n, obs, s', heq, hle, hruns, hm, hs', hend⟩ | hkeeps := hx s hs
  swap
  · exact hkeeps
  obtain ⟨m, s'', hrun, hb⟩ | ⟨m, s'', -, hfalse⟩ := hend s' hs'
  · rw [heq]
    exact ⟨q.ledger, hle, .of_ended hruns hm hrun hb⟩
  · exact hfalse.elim

/-- The machine goes first where nothing is evaluated. -/
theorem pass {ip : Nat} {c : Snapshot} (h : L.target.Goes L.listing none p.ip p.snapshot ip c)
    (hx : L.Tracks fuel { p with ip, snapshot := c } x P) : L.Tracks fuel p x P := by
  intro s hs
  obtain ⟨n, s', hrun, hb⟩ | ⟨n, s', hrun, hs'⟩ := h s hs
  · exact .inr ⟨p.ledger, .refl _, .of_blocked hrun hb⟩
  obtain ⟨a, q, es, n', obs, s'', heq, hle, hruns, hm, hs'', hp⟩ | ⟨W, hle, hkeeps⟩ := hx s' hs'
  · exact .inl ⟨a, q, es, n + n', obs, s'', heq, hle, hrun.append hruns, hm, hs'', hp⟩
  · exact .inr ⟨W, hle, (hkeeps.prepend hrun (.nil p.ledger) hle).mono (Nat.le_add_left ..)⟩

/-- The machine goes on when all is evaluated. -/
theorem follow {R : α → Stage → Prop} (hx : L.Tracks fuel p x P)
    (h : ∀ a q, p.ledger.Le q.ledger → P a q → ∃ ip c, L.target.Goes L.listing none q.ip q.snapshot ip c ∧
      R a { q with ip, snapshot := c }) : L.Tracks fuel p x R := by
  intro s hs
  obtain ⟨a, q, es, n, obs, s', heq, hle, hruns, hm, hs', hp⟩ | hkeeps := hx s hs
  swap
  · exact .inr hkeeps
  obtain ⟨ip, c, hgoes, hr⟩ := h a q hle hp
  obtain ⟨m, s'', hrun, hb⟩ | ⟨m, s'', hrun, hs''⟩ := hgoes s' hs'
  · rw [heq]
    exact .inr ⟨q.ledger, hle, .of_ended hruns hm hrun hb⟩
  · have hall := hruns.append hrun
    rw [show none.toList.map (·, s'') = ([] : List (Mark × Machine)) from rfl, List.append_nil] at hall
    exact .inl ⟨a, { q with ip, snapshot := c }, es, n + m, obs, s'', heq, hle, hall, hm, hs'', hr⟩

/-- More is known of the words of places than before. -/
theorem learn {W : Ledger} (hle : p.ledger.Le W) (hx : L.Tracks fuel { p with ledger := W } x P) :
    L.Tracks fuel p x P := by
  intro s hs
  refine (hx s hs).imp ?_ ?_
  · rintro ⟨a, q, es, n, obs, s', heq, hle', hrest⟩
    exact ⟨a, q, es, n, obs, s', heq, hle.trans hle', hrest⟩
  · rintro ⟨W', hle', hkeeps⟩
    exact ⟨W', hle.trans hle', hkeeps⟩

/-- Something is evaluated that no event tells of. -/
theorem skip {a : α} {h : History} {W : Ledger} (hx : x p.history = (.value a, h, [])) (hle : p.ledger.Le W)
    (hf : L.Tracks fuel { p with history := h, ledger := W } (f a) Q) : L.Tracks fuel p (x >>= f) Q := by
  intro s hs
  rw [Eval.bind_of_value hx]
  obtain ⟨b, q, es, n, obs, s', heq, hle', hruns, hm, hs', hq⟩ | ⟨W', hle', hkeeps⟩ := hf s hs
  · exact .inl ⟨b, q, es, n, obs, s', by rw [heq]; rfl, hle.trans hle', hruns, hm, hs', hq⟩
  · exact .inr ⟨W', hle.trans hle', hkeeps⟩

/-- The machine shows an event. For this it takes a step. -/
theorem event {a : α} {e : Event} {h : History} {W : Ledger} {m : Mark} {ip : Nat} {c : Snapshot}
    (hx : x p.history = (.value a, h, [e])) (hle : p.ledger.Le W)
    (hgoes : L.target.Goes L.listing (some m) p.ip p.snapshot ip c)
    (hm : ∀ s, s.At L.target ip c → ∀ W', W.Le W' → e.ShownBy L.tables L.listing W'.origin (m, s))
    (hf : L.Tracks fuel ⟨W, h, ip, c⟩ (f a) Q) : L.Tracks (fuel + 1) p (x >>= f) Q := by
  intro s hs
  rw [Eval.bind_of_value hx]
  obtain ⟨n, s', hrun, hb⟩ | ⟨n, s', hrun, hs'⟩ := hgoes s hs
  · exact .inr ⟨p.ledger, .refl _, .of_blocked hrun hb⟩
  have hmatches : L.Matches W [e] [(m, s')] := fun W' hW => .cons (hm s' hs' W' hW) .nil
  have hpos : 1 ≤ n := by
    rcases Nat.eq_zero_or_pos n with rfl | hpos
    · cases hrun
    · exact hpos
  obtain ⟨b, q, es, n', obs, s'', heq, hle', hruns, hm', hs'', hq⟩ | ⟨W', hle', hkeeps⟩ := hf s' hs'
  · refine .inl ⟨b, q, [e] ++ es, n + n', [(m, s')] ++ obs, s'', by rw [heq], hle.trans hle', hrun.append hruns,
      hmatches.append hle' hm', hs'', hq⟩
  · exact .inr ⟨W', hle.trans hle', (hkeeps.prepend hrun hmatches hle').mono (by omega)⟩

end Tracks

end Loaded

end ObjLet
