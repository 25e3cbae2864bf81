import ObjLet.Proofs.Links.Frame
import ObjLet.Proofs.Simulation.Preserves

/-!
# Access links lead to declarations

The machine keeps track of calls of any depth (`Loaded.serves_call`), and with them of programs: a run of the unit
of a program shows the events of its evaluation, where the way of every use ends at the place that holds the
declaration (`Program.links_lead`). So it goes on up to a use in a method of something that is declared around its
class, where the way leads across an object, which has no access link; and up to a call of a function value whose
frame is gone.
-/

namespace ObjLet

open Code Eval Loaded

variable {L : Loaded} {fuel : Nat} {call : Caller} {p q : Stage}

/-! ## Calls -/

/-- A function result is recognized by its two words. -/
theorem Signature.returnsFunction_eq (sig : Signature) : sig.returnsFunction = decide (sig.ret.words = 2) := by
  rw [Signature.returnsFunction]
  cases sig.ret <;> rfl

namespace Loaded

/-- With calls one level deeper, what is called is served if what it calls is. -/
theorem serves_invoke (ht : call.Sound L.tables) (hcall : L.Serves fuel call) :
    L.Serves (fuel + 1) (FunDecl.invoke L.target.wrap call) := by
  intro f Γ sig a outer args words p r link ctl ws hf hframed htypes hreps hclear hip hstack hra hr
  have hp : L.Stands p := hclear.of_under (link :: words.flatten ++ [ctl]) (by
    rw [hstack, List.append_assoc]
    rfl)
  obtain ⟨-, hdecls, hfits, hbody, hret⟩ := hf.checked.body L.lineal
  obtain ⟨ty, hty⟩ := hbody.exists_type hfits
  obtain ⟨code, hcode, hs⟩ := hf.code
  cases hcode with
  | @mk _ e sig' ds bs he hsig hds hbs =>
  -- The code was made with the signature in the tables, which is the one of the call.
  obtain rfl : sig' = sig := by
    obtain ⟨e', he', hsig'⟩ := hf.checked.entry
    cases he.symm.trans he'
    exact Signature.ty_inj (hsig.symm.trans hsig')
  have hhead : Listing.size (⟨.copyFp, some (.entered f.id)⟩ :: ⟨.load .ra, none⟩ :: ds) = 2 + ds.size := by
    rw [Listing.size_executed rfl, Listing.size_executed rfl]
    omega
  have hpos : 0 <
      Listing.size (plain (epilogue sig'.paramWords (L.tables.frameWords f.decls) sig'.returnsFunction)) := by
    rw [epilogue, plain_append, Listing.size_append]
    exact Nat.lt_of_lt_of_le (by decide) (Nat.le_add_left 4 _)
  rw [← hip] at hs
  have hle := hs.le
  have hresult := hs.left.right
  have hend := hs.right
  simp only [Listing.size_append, hhead, ← Nat.add_assoc] at hle hresult hend
  have hlen : f.params.length = args.length := by rw [hf.checked.length, htypes.length_eq]
  rw [FunDecl.invoke, if_pos hlen]
  refine .enterFrame hf.checked hframed htypes hreps hp hstack hs.left.left fun q₁ hq₁ => ?_
  have hlocals := (hs.left.left.next rfl).next rfl
  -- The new activation is not among those that the caller may still look at.
  have hnew : p.history.activations ∉ p.history.live := fun hn => Nat.lt_irrefl _ (hp.old _ hn)
  have hzero : outer = [] → p.history.activations = 0 := by
    rintro rfl
    obtain ⟨g, hg, -⟩ := hframed.head
    cases hg
  have hsub : p.history.live ⊆ q₁.history.live := by
    rw [hq₁.inside.live]
    exact List.subset_cons_self _ _
  rw [show p.ip + 1 + 1 = q₁.ip from hq₁.ip.symm] at hlocals
  rw [← hq₁.ip] at hle hresult hend
  refine (Decl.tracks_evalAll ht hcall f.decls hdecls hds hlocals (by omega) hq₁.scope hq₁.stands (fun _ => hq₁.slot)
    hzero hsub hnew).bind fun env q₂ _ hq₂ => ?_
  -- Local declarations and the body run inside of the new activation; it is left at the end.
  have hinside₂ := hq₁.inside.follows hq₂.follows (List.Subset.refl _)
  rw [← hq₂.ip] at hle hresult hend
  have hvalue : Eval.Sound (f.body.eval L.target.wrap call env) (Value.HasType L.tables · ty) :=
    Expr.sound L.lineal ht hfits hq₂.scope.framed.typed hbody ty hty
  refine ((Expr.tracked ht hcall hfits hq₂.scope.framed.typed hbody hbs hresult (by omega) hq₂.scope
    hq₂.stands).and_sound hvalue).bind ?_
  rintro v q₃ - ⟨htyped, hq₃⟩
  have hinside₃ := hinside₂.follows hq₃.follows (by rw [hinside₂.live]; exact List.subset_cons_self _ _)
  obtain ⟨locals, hlocalWords, hstack₂⟩ := hq₂.pushed
  obtain ⟨vs, hrep, hstack₃⟩ := hq₃.words
  have hparams : sig'.paramWords = words.flatten.length := (length_flatten_values (length_words hreps htypes)).symm
  -- The epilogue was chosen by the result type; the result has as many words.
  have hreturns : sig'.returnsFunction = decide (vs.length = 2) := by
    rw [Signature.returnsFunction_eq, hrep.length, (htyped.sub L.lineal (hret ty hty)).words_eq]
  rw [← hq₃.ip, hparams, ← hlocalWords, hreturns] at hend
  have hstack' : q₃.snapshot.stack = vs ++ (locals ++ (r : Int) :: link :: (words.flatten ++ ctl :: ws)) := by
    rw [hstack₃, hstack₂, hq₁.stack, hstack, hra]
  refine .leaveFrame hclear hinside₃ hq₃.stands hrep hstack' ?_ hr hend
  have hfp := hq₁.fp
  rw [hstack, List.length_cons, List.length_append, List.length_cons] at hfp
  rw [hq₃.fp, hq₂.fp]
  omega

/-- With any depth of calls, calls are served. -/
theorem serves_call (L : Loaded) (fuel : Nat) : L.Serves fuel (FunDecl.call L.target.wrap fuel) := by
  induction fuel with
  | zero => exact fun _ _ _ _ _ _ _ _ _ => .zero
  | succ fuel ih => exact serves_invoke (FunDecl.sound_call L.lineal fuel) ih

/-! ## Programs -/

end Loaded

/-- At the start only the outermost frame has a base. -/
def Ledger.start (T : Target) : Ledger where
  base p := if p = .activation 0 then some (T.memory : Int) else none
  around n := if n = 0 then some [] else none
  word _ _ _ := False
  heap := []

def Stage.start (T : Target) (ip : Nat) (c : Snapshot) : Stage := ⟨.start T, {}, ip, c⟩

namespace Loaded

/-- Before the first declaration the outermost activation is the only place, and the heap is empty. -/
theorem Stands.start (L : Loaded) {ip : Nat} {c : Snapshot} (hh : c.heap = []) :
    L.Stands (.start L.target ip c) where
  heap := hh
  cell _ _ _ _ := False.elim
  around n hn := by
    cases List.mem_singleton.1 hn
    exact ⟨[], rfl, nofun⟩
  old n hn := by
    cases List.mem_singleton.1 hn
    exact Nat.zero_lt_one
  new {n} hn := by
    have hne : n ≠ 0 := Nat.ne_of_gt hn
    exact ⟨if_neg fun heq => hne (Place.activation.inj heq), if_neg hne, fun _ _ => id⟩
  object := nofun
  distinct := nofun
  outermost := ⟨rfl, List.mem_singleton_self 0⟩

/-- No names are declared yet, so there is nothing to be found. -/
theorem Scoped.start (L : Loaded) {ip : Nat} {c : Snapshot} (hf : c.fp = L.target.memory) :
    L.Scoped .initial [⟨.activation 0, []⟩] (.start L.target ip c) := by
  have hlinks : (Ledger.start L.target).Links (.activation 0) [] := by
    rintro n ⟨⟩
    exact ⟨rfl, nofun⟩
  refine ⟨Env.fits_initial _, ⟨.cons (fun n => ?_) (fun n e b he _ => ?_) .nil,
    .cons rfl (fun n e b he _ => ?_) hlinks .nil, fun f hf m hm => ?_, _, rfl, ?_⟩, _, _, _, rfl⟩
  · simp [Frame.lookup?]
  · simp at he
  · simp at he
  · cases List.mem_singleton.1 hf
    cases hm
    exact List.mem_singleton_self 0
  · exact congrArg some hf.symm

/-- The machine keeps track of a program up to the end of its main part. -/
theorem tracks_program {prog : Program} (h : prog.Checked L.tables) {ds bs rest : Listing}
    (hds : Decl.CodedAll L.tables L.target.memory L.At L.dispatch prog.decls ds)
    (hbs : prog.body.Coded L.tables L.target.memory bs)
    (hs : L.listing = plain (if prog.hasDecls then [.push 0] else []) ++ ds ++ bs ++ plain [.halt] ++ rest)
    (fuel : Nat) :
    ∃ ip, L.listing.Sits ip (plain [.halt]) ∧
      L.Tracks fuel (.start L.target 0 (.start L.target))
        (Decl.evalAll L.target.wrap (FunDecl.call L.target.wrap fuel) [⟨.activation 0, []⟩] prog.decls
          >>= fun env => prog.body.eval L.target.wrap (FunDecl.call L.target.wrap fuel) env)
        fun _ q => q.ip = ip := by
  -- The main part comes first in the unit, so the machine starts in it.
  have hall : L.listing.Sits 0
      (plain (if prog.hasDecls then [.push 0] else []) ++ ds ++ bs ++ plain [.halt]) :=
    ⟨[], rest, by rw [hs]; simp, rfl⟩
  have hlt := hall.le
  have hlocals := hall.left.left.right
  have hbody := hall.left.right
  refine ⟨_, hall.right, ?_⟩
  simp only [Listing.size_append, Nat.zero_add] at hlt hlocals hbody ⊢
  have hone : Listing.size (plain [.halt]) = 1 := rfl
  let c : Snapshot := .first L.target prog
  have hgoes := (Snapshot.straight_first L.target prog _).goes hall.left.left.left
  rw [Nat.zero_add] at hgoes
  generalize Listing.size (plain (if prog.hasDecls then [.push 0] else [])) = first at hgoes hlt hlocals hbody ⊢
  let p : Stage := .start L.target first c
  have hsound : Caller.Sound L.tables (FunDecl.call L.target.wrap fuel) := FunDecl.sound_call L.lineal fuel
  have hp : L.Stands p := .start L (Snapshot.heap_first ..)
  have hΓ : L.Scoped .initial [⟨.activation 0, []⟩] p := .start L (Snapshot.fp_first ..)
  have hfirst : p.ip + ds.size < L.listing.size := by
    change first + ds.size < _
    omega
  refine .pass hgoes ((Decl.tracks_evalAll hsound (L.serves_call fuel) prog.decls h.decls hds hlocals hfirst hΓ hp
    (Snapshot.nextLocal_first L.target prog) (fun _ => rfl) (List.nil_subset _) List.not_mem_nil).bind ?_)
  intro env q _ hq
  have hip : q.ip = first + ds.size := hq.ip
  rw [← hip] at hbody hlt ⊢
  exact (Expr.tracked hsound (L.serves_call fuel) h.fits hq.scope.framed.typed h.body hbs hbody (by omega) hq.scope
    hq.stands).mono fun v r _ hr => hr.ip

/-- The outermost frame starts at the end of memory in every ledger that comes later. -/
theorem origin_start {T : Target} {W : Ledger} (h : (Ledger.start T).Le W) :
    W.origin (.activation 0) = T.memory := Ledger.origin_eq (h.base rfl)

end Loaded

/-- The law of access links: where the ids of a program are distinct and it compiles with type checking, any run of
its unit in which the stack keeps clear of the heap shows the events of its evaluation, one by one from the first,
up to one that is stray. So the way of every use that is found ends at the base of the place that holds its
declaration, and the offset of its entry leads from there to its value; of a method it ends at the object. -/
theorem Program.links_lead {p : Program} (T : Target) {compiled : Compiled} (hid : p.ids.Nodup)
    (hcompile : p.compile { memorySize := T.memory } = .ok compiled) :
    ∃ ls, p.Listed compiled.analysis.tables T.memory ls ∧ ls.unit = compiled.unit ∧
      ∀ n obs s, T.Runs ls n (.start T.memory) obs s → T.Clear ls.unit n (.start T.memory) →
        ∃ origin : Place → Int, origin (.activation 0) = T.memory ∧
          Shows compiled.analysis.tables ls origin (p.eval T.wrap n).2.2 obs := by
  obtain ⟨hbind, htype, htables, hgen⟩ := compile_eq_ok rfl hcompile
  have hclean := Program.checked hid hbind htype
  obtain ⟨ls, hlisted, hunit, hlabels⟩ := hclean.exists_listed hgen
  obtain ⟨functions, dispatch, ds, bs, hds, hbs, hls⟩ := id hlisted
  rw [htables]
  refine ⟨ls, hlisted, hunit, fun n obs s hruns hclear => ?_⟩
  let L : Loaded := {
    target := T
    tables := p.bind.tables
    listing := ls
    At := fun l code => (l, code) ∈ functions
    dispatch := dispatch
    lineal := hclean.lineal
    labels := hlabels
    placed := fun hf => by
      subst hls
      exact Listing.placed_ofFunctions hlabels hf }
  obtain ⟨ip, hhalt, htracks⟩ := L.tracks_program hclean hds hbs hls n
  -- Behind the body the machine halts, so there is no run past the events of the evaluation.
  have hend := htracks.mono (R := fun _ q => T.Passes ls none (·.At T q.ip q.snapshot) fun _ => False) fun _ q _ hq =>
    .of_exec hhalt rfl (fun s hs => hs.ip.trans hq) fun s hs => .inl ⟨.halt, rfl⟩
  obtain ⟨W, hle, hkeeps⟩ := hend.keeps (Machine.start_at T)
  exact ⟨W.origin, origin_start hle, hkeeps n (Nat.le_refl n) obs s hruns hclear⟩

/-- A function in a method, which calls another method of the object; that one reads a field. -/
def Program.nested : Program := Program.built do
  let get ← Build.function "get" [] .int [] (← Build.ident "a")
  let step ← Build.function "step" [← Build.param "k" .int] .int []
    (← Build.binary .add (← Build.ident "k") (← Build.call "get" []))
  let go ← Build.function "go" [← Build.param "n" .int] .int [.func step] (← Build.call "step" [← Build.ident "n"])
  let a ← Build.cls "A" none [← Build.param "a" .int] [get, go]
  let x ← Build.var "x" (← Build.refType "A") (← Build.new "A" [← Build.literal (.int 5)])
  Build.program [.cls a, x] (← Build.methodCall "x" "go" [← Build.literal (.int 2)])

/-- The run that ends at `halt`; none of its events is stray. -/
theorem Program.links_lead_nested :
    ∃ compiled ls obs s origin, nested.compile { memorySize := 10000 } = .ok compiled ∧
      nested.Listed compiled.analysis.tables 10000 ls ∧ ls.unit = compiled.unit ∧
      (Target.unbounded 10000).Runs ls 117 (.start 10000) obs s ∧
      (Target.unbounded 10000).Clear ls.unit 117 (.start 10000) ∧
      (nested.eval id 117).2.2.length = 10 ∧ (∀ e ∈ (nested.eval id 117).2.2, ¬ e.Stray) ∧
      origin (.activation 0) = 10000 ∧
      Shows compiled.analysis.tables ls origin (nested.eval id 117).2.2 obs := by
  have hid : nested.ids.Nodup := by decide +kernel
  have hok : (match nested.compile { memorySize := 10000 } with
    | .ok compiled => ((Target.unbounded 10000).run compiled.unit 117 (.start 10000)).toBool &&
      (List.range 118).all fun k => match (Target.unbounded 10000).run compiled.unit k (.start 10000) with
        | .ok s => decide (s.hp < s.sp)
        | .error _ => true
    | .error _ => false) = true := by decide +kernel
  have hlength : (nested.eval id 117).2.2.length = 10 := by decide +kernel
  have hstray : (nested.eval id 117).2.2.all (fun
    | .reached _ _ _ crossed => !crossed
    | .outlived _ => false
    | _ => true) = true := by decide +kernel
  split at hok
  swap
  · cases hok
  next compiled hcompile =>
  rw [Bool.and_eq_true] at hok
  obtain ⟨hrun, hall⟩ := hok
  obtain ⟨ls, hls, hunit, hlaw⟩ := links_lead (.unbounded 10000) hid hcompile
  have hwrap : (Target.unbounded 10000).wrap = id := rfl
  rw [hwrap] at hlaw
  rw [← hunit] at hrun hall
  have hclear : (Target.unbounded 10000).Clear ls.unit 117 (.start 10000) := by
    intro k hk s hs
    have hall := List.all_eq_true.1 hall k (List.mem_range.2 (Nat.lt_succ_of_le hk))
    rw [hs] at hall
    exact of_decide_eq_true hall
  cases hs : (Target.unbounded 10000).run ls.unit 117 (.start 10000) with
  | error e =>
    rw [hs] at hrun
    cases hrun
  | ok s =>
  obtain ⟨obs, hruns⟩ := Target.Runs.exists_of_run hs
  obtain ⟨origin, hstart, hshows⟩ := hlaw 117 obs s hruns hclear
  refine ⟨compiled, ls, obs, s, origin, hcompile, hls, hunit, hruns, hclear, hlength, fun e he h => ?_, hstart, hshows⟩
  have he := List.all_eq_true.1 hstray e he
  cases h <;> cases he

end ObjLet
