import Mathlib.Data.List.ReduceOption
import ObjLet.Proofs.Binding.Frames
import ObjLet.Proofs.Binding.Sites

/-!
# Every use is accounted for

With distinct ids, and whatever is wrong with a program, each of its uses is either recorded once or reported by
one error, and nothing else is recorded (`Program.Accounted`, `Program.accounted`). A program without errors has a
record for every use and every declaration.
-/

namespace ObjLet

open Findings

variable {p : Program} {env : Env} {r : Resolutions}

namespace Use

/-- The tables have a record of the use. -/
def isRecorded (r : Resolutions) : Use → Bool
  | ident id _ | new id _ => (r.use? id).isSome
  | methodCall id _ _ => (r.methodCall? id).isSome

/-- Of the two tables of uses the right one has a record for the node. -/
def RecordedOnce (r : Resolutions) : Use → Prop
  | ident id _ | new id _ => (r.use? id).isSome ∧ r.methodCall? id = none
  | methodCall id _ _ => (r.methodCall? id).isSome ∧ r.use? id = none

def Unrecorded (r : Resolutions) (u : Use) : Prop := r.use? u.id = none ∧ r.methodCall? u.id = none

theorem RecordedOnce.isRecorded {u : Use} (h : u.RecordedOnce r) : u.isRecorded r := by
  cases u <;> exact h.1

theorem Unrecorded.isRecorded {u : Use} (h : u.Unrecorded r) : u.isRecorded r = false := by
  cases u with
  | ident id name => simp [Use.isRecorded, show r.use? id = none from h.1]
  | new id cls => simp [Use.isRecorded, show r.use? id = none from h.1]
  | methodCall id object method => simp [Use.isRecorded, show r.methodCall? id = none from h.2]

end Use

/-- What the tables and the errors say of a site. -/
inductive Site.AccountedBy (r : Resolutions) : Site → Option SemanticError → Prop where
  | recorded {u : Use} (h : u.RecordedOnce r) : AccountedBy r (.use u) none
  | reported {u : Use} {e : SemanticError} (h : u.Unrecorded r) (he : u.Reports e) : AccountedBy r (.use u) (some e)
  | unknown (cls : Name) : AccountedBy r (.unknown cls) (some ⟨.unknownClass cls.text, cls.span⟩)

/-- The errors of a program that are about uses or about class names in types. -/
def Program.useErrors (p : Program) : SemanticErrors := p.bind.errors.filter (·.problem.isOfUse)

/-- The tables have an entry for the parameters and the declarations of a block and for the members of its
classes. -/
structure Block.Entered (r : Resolutions) (b : Block) : Prop where
  params : ∀ n ∈ b.params, (r.declaration? n.2).isSome
  decls : ∀ d ∈ b.decls, (r.declaration? d.id).isSome
  fields : ∀ c, .cls c ∈ b.decls → ∀ f ∈ c.fields, (r.declaration? f.id).isSome
  methods : ∀ c, .cls c ∈ b.decls → ∀ m ∈ c.methods, (r.declaration? m.id).isSome

/-- Every use of a program is accounted for. -/
structure Program.Accounted (p : Program) : Prop where
  /-- The sites and the errors about them go together one by one. -/
  sites : ∃ reports : List (Option SemanticError), p.useErrors = reports.reduceOption ∧
    List.Forall₂ (Site.AccountedBy p.bind.tables.resolutions) p.sites reports
  /-- Records are those of uses. -/
  records : ∀ id : NodeId, p.bind.tables.resolutions.use? id ≠ none ∨
      p.bind.tables.resolutions.methodCall? id ≠ none →
    ∃ u ∈ p.uses, u.id = id ∧ u.RecordedOnce p.bind.tables.resolutions
  useCount : p.bind.tables.resolutions.useCount =
    (p.uses.filter (·.isRecorded p.bind.tables.resolutions)).length
  length_useErrors : p.useErrors.length =
    (p.uses.filter (!·.isRecorded p.bind.tables.resolutions)).length + p.unknownTypes.length
  total : p.bind.tables.resolutions.useCount + p.useErrors.length = p.uses.length + p.unknownTypes.length
  /-- Without errors nothing is missing. -/
  complete : p.bind.errors = [] → (∀ u ∈ p.uses, u.RecordedOnce p.bind.tables.resolutions) ∧
    ∀ b : Block, p.HasBlock b → b.Entered p.bind.tables.resolutions

/-! ## Counting -/

namespace Findings

/-- The errors about uses are the errors among the findings about uses. -/
theorem errors_filter (fs : Findings) :
    (errors fs).filter (·.problem.isOfUse) = ((fs.filter Finding.isOfUse).map Finding.error?).reduceOption := by
  change _ = List.filterMap id _
  rw [List.filterMap_map, errors, List.filter_filterMap, List.filterMap_filter]
  congr 1
  funext f
  cases f with
  | error e => cases he : e.problem.isOfUse <;> simp [Finding.error?, Finding.isOfUse, Option.filter, he]
  | _ => rfl

/-- A record under an id that the table of uses did not have is one more record. -/
theorem useCount_recordUse {id : NodeId} (use : Resolution) (h : r.use? id = none) :
    (r.recordUse id use).useCount = r.useCount + 1 := by
  have hnot : id ∉ r.uses := by simpa [Resolutions.use?] using h
  simp only [Resolutions.useCount, Resolutions.recordUse, Std.TreeMap.size_insert,
    Std.TreeMap.contains_iff_mem, if_neg hnot]
  exact Nat.add_right_comm _ _ _

theorem useCount_recordMethodCall {id : NodeId} (call : MethodResolution) (h : r.methodCall? id = none) :
    (r.recordMethodCall id call).useCount = r.useCount + 1 := by
  have hnot : id ∉ r.methodCalls := by simpa [Resolutions.methodCall?] using h
  simp only [Resolutions.useCount, Resolutions.recordMethodCall, Std.TreeMap.size_insert,
    Std.TreeMap.contains_iff_mem, if_neg hnot]
  rfl

/-- A finding about a use adds a record or an error. -/
theorem useCount_record (f : Finding) (hfree : ∀ id, f.id? = some id → r.use? id = none ∧ r.methodCall? id = none) :
    (r.record f).useCount + ((errors [f]).filter (·.problem.isOfUse)).length =
      r.useCount + (List.filter Finding.isOfUse [f]).length := by
  cases f with
  | error e =>
    have herrors : errors [.error e] = [e] := rfl
    rw [herrors, List.filter_singleton, List.filter_singleton, Finding.isOfUse]
    cases e.problem.isOfUse <;> rfl
  | use id use => exact useCount_recordUse use (hfree id rfl).1
  | methodCall id call => exact useCount_recordMethodCall call (hfree id rfl).2
  | declaration id entry => rfl

/-- A finding of another node records nothing for a node. -/
theorem record_eq_none {f : Finding} {id : NodeId} (hne : f.id? ≠ some id)
    (h : r.use? id = none ∧ r.methodCall? id = none) :
    (r.record f).use? id = none ∧ (r.record f).methodCall? id = none := by
  cases f with
  | error e => exact h
  | use id' use =>
    have hne : id' ≠ id := fun heq => hne (congrArg some heq)
    rw [Resolutions.record, Resolutions.use?_recordUse, if_neg hne]
    exact h
  | methodCall id' call =>
    have hne : id' ≠ id := fun heq => hne (congrArg some heq)
    rw [Resolutions.record, Resolutions.methodCall?_recordMethodCall, if_neg hne]
    exact h
  | declaration id' entry => exact h

/-- The count over a whole list of findings with distinct ids: every one of them that is about a use adds one to
the records or one to the errors, never both and never neither. -/
theorem useCount_foldl (fs : Findings) : ∀ {r : Resolutions}, (ids fs).Nodup →
    (∀ id ∈ ids fs, r.use? id = none ∧ r.methodCall? id = none) →
    (fs.foldl Resolutions.record r).useCount + ((errors fs).filter (·.problem.isOfUse)).length =
      r.useCount + (fs.filter Finding.isOfUse).length := by
  induction fs with
  | nil => exact fun _ _ => rfl
  -- The first finding is counted on its own. Its record leaves the other ids free, which is what the induction
  -- needs of the tables.
  | cons f fs ih =>
    intro r hid hfree
    rw [← List.singleton_append, ids_append, List.nodup_append] at hid
    have hmem : ∀ {id : NodeId}, f.id? = some id → id ∈ ids [f] := fun h => List.mem_filterMap.2 ⟨f, by simp, h⟩
    rw [← List.singleton_append, ids_append] at hfree
    have hhead := useCount_record f fun id h => hfree id (List.mem_append_left _ (hmem h))
    have htail := ih hid.2.1 fun id h => record_eq_none (f := f)
      (fun heq => hid.2.2 id (hmem heq) id h rfl) (hfree id (List.mem_append_right _ h))
    rw [List.foldl_cons, ← List.singleton_append, errors_append, List.filter_append, List.filter_append,
      List.length_append, List.length_append]
    omega

end Findings

/-! ## Sites and records -/

/-- Where the keys in a list are distinct, a key belongs to one element. -/
theorem eq_of_nodup_filterMap {α β : Type} {k : α → Option β} {l : List α} (h : (l.filterMap k).Nodup) {a b : α}
    (ha : a ∈ l) (hb : b ∈ l) {x : β} (hka : k a = some x) (hkb : k b = some x) : a = b := by
  induction l with
  | nil => cases ha
  | cons c l ih =>
    -- The key of the first element stands nowhere behind it.
    have first : ∀ {c' : α}, k c = some x → c' ∈ l → k c' = some x → False := by
      intro c' hc hmem hc'
      rw [List.filterMap_cons, hc, List.nodup_cons] at h
      exact h.1 (List.mem_filterMap.2 ⟨c', hmem, hc'⟩)
    obtain rfl | ha' := List.mem_cons.1 ha
    · obtain rfl | hb' := List.mem_cons.1 hb
      · rfl
      · exact (first hka hb' hkb).elim
    · obtain rfl | hb' := List.mem_cons.1 hb
      · exact (first hkb ha' hka).elim
      · refine ih ?_ ha' hb'
        rw [List.filterMap_cons] at h
        split at h
        · exact h
        · exact (List.nodup_cons.1 h).2

/-- What is recorded at a site is recorded for its use. -/
theorem Site.Finds.records {s : Site} {f : Finding} (h : s.Finds f) {id : NodeId} (hid : f.id? = some id) :
    ∃ u, s = .use u ∧ u.id = id ∧ u.Records f := by
  cases h with
  | unknown cls => cases hid
  | use env u =>
    obtain hrec | ⟨e, heq, -⟩ := u.bind_cases env
    · refine ⟨u, rfl, ?_, hrec⟩
      rw [hrec.id?] at hid
      exact Option.some.inj hid
    · rw [heq] at hid
      cases hid

namespace Program

/-- With distinct ids a use is recorded where the walk found its site, and nowhere else. -/
theorem eq_of_site (hid : p.ids.Nodup) {u : Use} {f g : Finding}
    (hf : (.use u, f) ∈ p.sites.zip (p.walk.2.filter Finding.isOfUse)) (hg : g ∈ p.walk.2) (hof : g.isOfUse)
    (hgid : g.id? = some u.id) : g = f := by
  obtain ⟨hlen, hfinds⟩ := List.forall₂_iff_zip.1 p.finds_walk
  have hmem : g ∈ p.walk.2.filter Finding.isOfUse := List.mem_filter.2 ⟨hg, hof⟩
  rw [← List.map_snd_zip (Nat.le_of_eq hlen.symm)] at hmem
  obtain ⟨⟨s, g⟩, hs, rfl⟩ := List.mem_map.1 hmem
  obtain ⟨u', rfl, hu', -⟩ := (hfinds hs).records hgid
  -- The sites are paired with the findings, so the ids of the uses are distinct keys of the pairs.
  let key : Site × Finding → Option NodeId := fun x => x.1.use?.map Use.id
  have hkeys : ((p.sites.zip (p.walk.2.filter Finding.isOfUse)).filterMap key).Nodup := by
    have hmap : (p.sites.zip (p.walk.2.filter Finding.isOfUse)).filterMap key = p.uses.map Use.id := by
      rw [← p.filterMap_use?_sites, List.map_filterMap]
      conv_rhs => rw [← List.map_fst_zip (Nat.le_of_eq hlen), List.filterMap_map]
      rfl
    rw [hmap]
    exact hid.sublist p.ids_uses_sublist
  have h := eq_of_nodup_filterMap hkeys hs hf (x := u.id) (congrArg some hu') rfl
  exact (Prod.mk.inj h).2

/-- A node has no record in the table of uses where the walk found no use for it. -/
theorem use?_eq_none (hid : p.ids.Nodup) {id : NodeId} (h : ∀ use, .use id use ∉ p.walk.2) :
    p.bind.tables.resolutions.use? id = none :=
  Option.eq_none_iff_forall_ne_some.2 fun use huse => h use ((p.use?_eq_some hid).1 huse)

/-- A node has no record in the table of method calls where the walk found no call for it. -/
theorem methodCall?_eq_none (hid : p.ids.Nodup) {id : NodeId} (h : ∀ call, .methodCall id call ∉ p.walk.2) :
    p.bind.tables.resolutions.methodCall? id = none :=
  Option.eq_none_iff_forall_ne_some.2 fun call hcall => h call ((p.methodCall?_eq_some hid).1 hcall)

/-- A use that the walk records is in its table, and not in the other one. -/
theorem recordedOnce_of_site (hid : p.ids.Nodup) {u : Use} {f : Finding} (h : u.Records f)
    (hf : (.use u, f) ∈ p.sites.zip (p.walk.2.filter Finding.isOfUse)) :
    u.RecordedOnce p.bind.tables.resolutions := by
  have hmem := (List.mem_filter.1 (List.of_mem_zip hf).2).1
  cases h with
  | ident id name use =>
    refine ⟨Option.isSome_of_eq_some ((p.use?_eq_some hid).2 hmem), ?_⟩
    exact methodCall?_eq_none hid fun call hcall => nomatch eq_of_site hid hf hcall rfl rfl
  | new id cls use =>
    refine ⟨Option.isSome_of_eq_some ((p.use?_eq_some hid).2 hmem), ?_⟩
    exact methodCall?_eq_none hid fun call hcall => nomatch eq_of_site hid hf hcall rfl rfl
  | methodCall id object method call =>
    refine ⟨Option.isSome_of_eq_some ((p.methodCall?_eq_some hid).2 hmem), ?_⟩
    exact use?_eq_none hid fun use huse => nomatch eq_of_site hid hf huse rfl rfl

/-- What is recorded for a use belongs to a use of the program. -/
theorem exists_use_of_mem (hid : p.ids.Nodup) {g : Finding} (hg : g ∈ p.walk.2) (hof : g.isOfUse) {id : NodeId}
    (hgid : g.id? = some id) :
    ∃ u ∈ p.uses, u.id = id ∧ u.Records g ∧ u.RecordedOnce p.bind.tables.resolutions := by
  obtain ⟨hlen, hfinds⟩ := List.forall₂_iff_zip.1 p.finds_walk
  have hmem : g ∈ p.walk.2.filter Finding.isOfUse := List.mem_filter.2 ⟨hg, hof⟩
  rw [← List.map_snd_zip (Nat.le_of_eq hlen.symm)] at hmem
  obtain ⟨⟨s, g⟩, hs, rfl⟩ := List.mem_map.1 hmem
  obtain ⟨u, rfl, hu, hrec⟩ := (hfinds hs).records hgid
  exact ⟨u, p.mem_uses.2 (List.of_mem_zip hs).1, hu, hrec, recordedOnce_of_site hid hrec hs⟩

/-- Site by site, in the order of the text: either the tables have the record and there is no error, or there is
the error and no record. -/
theorem accountedBy_sites (hid : p.ids.Nodup) :
    List.Forall₂ (Site.AccountedBy p.bind.tables.resolutions) p.sites
      ((p.walk.2.filter Finding.isOfUse).map Finding.error?) := by
  obtain ⟨hlen, hfinds⟩ := List.forall₂_iff_zip.1 p.finds_walk
  rw [List.forall₂_map_right_iff, List.forall₂_iff_zip]
  refine ⟨hlen, fun {s f} hs => ?_⟩
  cases hfinds hs with
  | unknown cls => exact .unknown cls
  | use env u =>
    -- A use is bound in one of two ways, whatever the environment is. The second leaves no record, because no
    -- other site of the program can have left one under the id of this one.
    obtain hrec | ⟨e, heq, he⟩ := u.bind_cases env
    · rw [hrec.error?]
      exact .recorded (recordedOnce_of_site hid hrec hs)
    · rw [heq] at hs ⊢
      refine .reported ⟨?_, ?_⟩ he
      · exact use?_eq_none hid fun use huse => nomatch eq_of_site hid hs huse rfl rfl
      · exact methodCall?_eq_none hid fun call hcall => nomatch eq_of_site hid hs hcall rfl rfl

end Program

/-! ## Numbers -/

/-- A site is a use or a class name, so the two counts make up the whole. -/
theorem Site.length_eq (ss : List Site) :
    ss.length = (ss.filterMap Site.use?).length + (ss.filterMap Site.unknown?).length := by
  induction ss with
  | nil => rfl
  | cons s ss ih =>
    cases s with
    | use u =>
      simp only [List.filterMap_cons, use?, unknown?, List.length_cons]
      omega
    | unknown cls =>
      simp only [List.filterMap_cons, use?, unknown?, List.length_cons]
      omega

/-- There are as many reports as uses without a record and class names without a class. -/
theorem Site.length_reports {ss : List Site} {reports : List (Option SemanticError)}
    (h : List.Forall₂ (AccountedBy r) ss reports) :
    reports.reduceOption.length =
      ((ss.filterMap Site.use?).filter (!·.isRecorded r)).length + (ss.filterMap Site.unknown?).length := by
  induction h with
  | nil => rfl
  | @cons s report ss reports hs _ ih =>
    cases hs with
    | recorded hu =>
      simp only [List.reduceOption_cons_of_none, List.filterMap_cons, use?, unknown?, List.filter_cons,
        hu.isRecorded]
      exact ih
    | reported hu he =>
      simp only [List.reduceOption_cons_of_some, List.filterMap_cons, use?, unknown?, List.filter_cons,
        hu.isRecorded, List.length_cons]
      simp only [Bool.not_false, if_true, List.length_cons]
      omega
    | unknown cls =>
      simp only [List.reduceOption_cons_of_some, List.filterMap_cons, use?, unknown?, List.length_cons]
      omega

/-! ## Programs without errors -/

namespace ClassBody

/-- Where nothing is wrong with a field, it is declared. -/
theorem hasEntry_declareField {b : ClassBody} {f : Param} {ty : Ty}
    (h : ∀ g ∈ (b.declareField f ty).2, g.error? = none) : ∃ e, (b.declareField f ty).2.HasEntry f.id e := by
  unfold declareField at h ⊢
  split at h
  · cases h _ List.mem_cons_self
  · cases h _ List.mem_cons_self
  · exact ⟨_, List.mem_cons_self⟩
  · exact ⟨_, List.mem_cons_self⟩

/-- Where nothing is wrong with a method, it is declared. -/
theorem hasEntry_declareMethod {b : ClassBody} {m : FunDecl} {sig : Signature}
    (h : ∀ g ∈ (b.declareMethod m sig).2, g.error? = none) : ∃ e, (b.declareMethod m sig).2.HasEntry m.id e := by
  unfold declareMethod at h ⊢
  split at h
  · cases h _ List.mem_cons_self
  · cases h _ List.mem_cons_self
  · exact ⟨_, List.mem_cons_self⟩
  · exact ⟨_, List.mem_cons_self⟩

/-- A class body without errors declares all its fields. -/
theorem hasEntry_declareFields (fs : List Param) :
    ∀ b : ClassBody, (∀ g ∈ (b.declareFields fs).2, g.error? = none) →
      ∀ f ∈ fs, ∃ e, (b.declareFields fs).2.HasEntry f.id e := by
  induction fs with
  | nil => exact fun _ _ _ hf => nomatch hf
  | cons f fs ih =>
    intro b hclean f' hf'
    simp only [declareFields, List.forall_mem_append] at hclean
    obtain rfl | hf' := List.mem_cons.1 hf'
    · obtain ⟨e, he⟩ := hasEntry_declareField hclean.1.2
      exact ⟨e, List.mem_append_left _ (List.mem_append_right _ he)⟩
    · obtain ⟨e, he⟩ := ih _ hclean.2 f' hf'
      exact ⟨e, List.mem_append_right _ he⟩

/-- A class body without errors declares all its methods. -/
theorem hasEntry_bindMethods (ms : List FunDecl) :
    ∀ b : ClassBody, (∀ g ∈ (b.bindMethods ms).2, g.error? = none) →
      ∀ m ∈ ms, ∃ e, (b.bindMethods ms).2.HasEntry m.id e := by
  induction ms with
  | nil => exact fun _ _ _ hm => nomatch hm
  | cons m ms ih =>
    intro b hclean m' hm'
    simp only [bindMethods_cons, bindMethod, List.forall_mem_append] at hclean
    obtain rfl | hm' := List.mem_cons.1 hm'
    · obtain ⟨e, he⟩ := hasEntry_declareMethod hclean.1.1.2
      exact ⟨e, List.mem_append_left _ (List.mem_append_left _ (List.mem_append_right _ he))⟩
    · obtain ⟨e, he⟩ := ih _ hclean.2 m' hm'
      exact ⟨e, List.mem_append_right _ he⟩

end ClassBody

/-- Nodes whose entries are listed one by one do have an entry. -/
theorem Resolutions.isSome_of_map {r : Resolutions} {α : Type} {node : α → NodeId} {as : List α} {es : List Entry}
    (h : as.map (fun a => r.declaration? (node a)) = es.map some) {a : α} (ha : a ∈ as) :
    (r.declaration? (node a)).isSome := by
  have hmem : r.declaration? (node a) ∈ es.map some := h ▸ List.mem_map_of_mem ha
  obtain ⟨e, -, he⟩ := List.mem_map.1 hmem
  exact Option.isSome_of_eq_some he.symm

/-- In a program without errors everything that is declared has an entry. -/
theorem Program.HasBlock.entered (hid : p.ids.Nodup) (hclean : ∀ g ∈ p.walk.2, g.error? = none) {b : Block}
    (hb : p.HasBlock b) : b.Entered p.bind.tables.resolutions := by
  obtain ⟨ps, ls, hframe⟩ := hb.exists_frame hid
  -- The members of a class are found where the class is bound, so its findings are among those of the walk.
  have cls : ∀ c, .cls c ∈ b.decls → ∃ env : Env, ∀ g ∈ ((Decl.cls c).bind env).2, g ∈ p.walk.2 := by
    intro c hc
    obtain ⟨env, h⟩ := hb.reaches
    obtain ⟨before, after, heq⟩ := List.append_of_mem hc
    rw [heq] at h
    exact ⟨_, fun g hg => h.skip.within_decl.mem hg⟩
  have hparams := hframe.paramEntries
  rw [List.map_map] at hparams
  refine ⟨fun n hn => Resolutions.isSome_of_map hparams hn,
    fun d hd => Resolutions.isSome_of_map hframe.localEntries hd, fun c hc f hf => ?_, fun c hc m hm => ?_⟩
  · obtain ⟨env, henv⟩ := cls c hc
    rw [Decl.bind_cls] at henv
    simp only [List.forall_mem_append] at henv
    obtain ⟨e, he⟩ := ClassBody.hasEntry_declareFields c.fields _ (fun g hg => hclean g (henv.1.2 g hg)) f hf
    exact Option.isSome_of_eq_some ((p.declaration?_eq_some hid).2 (henv.1.2 _ he))
  · obtain ⟨env, henv⟩ := cls c hc
    rw [Decl.bind_cls] at henv
    simp only [List.forall_mem_append] at henv
    obtain ⟨e, he⟩ := ClassBody.hasEntry_bindMethods c.methods _ (fun g hg => hclean g (henv.2 g hg)) m hm
    exact Option.isSome_of_eq_some ((p.declaration?_eq_some hid).2 (henv.2 _ he))

/-- With distinct ids every use is accounted for, whatever errors there are. -/
theorem Program.accounted {p : Program} (hid : p.ids.Nodup) : p.Accounted := by
  have hsites := accountedBy_sites hid
  have herrors : p.useErrors = ((p.walk.2.filter Finding.isOfUse).map Finding.error?).reduceOption :=
    Findings.errors_filter p.walk.2
  have hreports : p.useErrors.length =
      (p.uses.filter (!·.isRecorded p.bind.tables.resolutions)).length + p.unknownTypes.length := by
    rw [herrors, Site.length_reports hsites, p.filterMap_use?_sites]
    rfl
  -- The total is counted over the findings of the walk, the reports over the sites. The two together give how
  -- many uses are recorded.
  have htotal : p.bind.tables.resolutions.useCount + p.useErrors.length =
      p.uses.length + p.unknownTypes.length := by
    have hcount := Findings.useCount_foldl p.walk.2 (r := {}) (hid.sublist p.ids_walk)
      fun id _ => by simp [Resolutions.use?, Resolutions.methodCall?]
    rw [← p.filterMap_use?_sites, unknownTypes, ← Site.length_eq, p.finds_walk.length_eq]
    refine hcount.trans ?_
    rw [show Resolutions.useCount {} = 0 from rfl, Nat.zero_add]
  have hsplit := List.length_eq_length_filter_add (l := p.uses) (·.isRecorded p.bind.tables.resolutions)
  refine ⟨⟨_, herrors, hsites⟩, fun id h => ?_, by omega, hreports, htotal, fun hclean => ⟨fun u hu => ?_, ?_⟩⟩
  · obtain huse | hcall := h
    · obtain ⟨use, huse⟩ := Option.ne_none_iff_exists'.1 huse
      obtain ⟨u, hu, hid', -, honce⟩ := exists_use_of_mem hid ((p.use?_eq_some hid).1 huse) rfl rfl
      exact ⟨u, hu, hid', honce⟩
    · obtain ⟨call, hcall⟩ := Option.ne_none_iff_exists'.1 hcall
      obtain ⟨u, hu, hid', -, honce⟩ := exists_use_of_mem hid ((p.methodCall?_eq_some hid).1 hcall) rfl rfl
      exact ⟨u, hu, hid', honce⟩
  · obtain ⟨hlen, hall⟩ := List.forall₂_iff_zip.1 hsites
    -- The site of the use was reported or recorded, and a report would be an error of the program.
    have hsite : .use u ∈ p.sites := p.mem_uses.1 hu
    rw [← List.map_fst_zip (Nat.le_of_eq hlen)] at hsite
    obtain ⟨⟨s, report⟩, hs, rfl⟩ := List.mem_map.1 hsite
    cases hall hs with
    | recorded h => exact h
    | reported _ _ =>
      have hmem := List.reduceOption_mem_iff.2 (List.of_mem_zip hs).2
      rw [← herrors, useErrors, hclean] at hmem
      cases hmem
  · have hnone : ∀ g ∈ p.walk.2, g.error? = none := List.filterMap_eq_nil_iff.1 hclean
    exact fun b hb => hb.entered hid hnone

/-- A class with a field of a class that comes later and with two methods of one name, and uses of names that
stand for nothing or for the wrong thing, also in the method that is rejected. -/
def Program.careless : Program := Program.built do
  let m ← Build.function "m" [] .int [] (← Build.ident "x")
  let m' ← Build.function "m" [] .int [] (← Build.ident "ghost")
  let a ← Build.cls "A" none [← Build.param "x" (← Build.refType "B")] [m, m']
  let b ← Build.cls "B" (some "Nowhere") [] []
  let o ← Build.var "o" (← Build.refType "A") (← Build.new "C" [← Build.literal .null])
  let sum ← Build.binary .add (← Build.methodCall "o" "n" []) (← Build.methodCall "A" "m" [← Build.ident "ghost"])
  Build.program [.cls a, .cls b, o] (← Build.binary .add (← Build.methodCall "o" "m" []) sum)

/-- The numbers of a careless program. Of its seven uses two are recorded; the other five and the one class name
that stands for no class make its six errors about uses. -/
theorem Program.accounted_careless :
    careless.bind.errors.length = 8 ∧ careless.unknownTypes.map (·.text) = ["B"] ∧
      careless.bind.tables.resolutions.useCount = 2 ∧ careless.useErrors.length = 6 := by
  have h := accounted (p := careless) (by decide +kernel)
  have hresolved : (careless.uses.filter (·.isRecorded careless.bind.tables.resolutions)).length = 2 := by
    decide +kernel
  have huses : careless.uses.length = 7 := by decide +kernel
  have hunknown : careless.unknownTypes.map (·.text) = ["B"] := by decide +kernel
  have hcount := h.useCount
  have htotal := h.total
  have hlength : careless.unknownTypes.length = 1 := by
    rw [← List.length_map (·.text), hunknown]
    rfl
  exact ⟨by decide +kernel, hunknown, by omega, by omega⟩

end ObjLet
