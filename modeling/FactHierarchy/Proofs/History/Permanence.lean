import FactHierarchy.Proofs.Annotation.Trace
import FactHierarchy.Proofs.Run.FromScratch

/-!
# What lasts

A graph has a history: facts are inserted and rules are applied, again and again (`Event`,
`Engine.after`). What insertions and runs that succeed keep, every history keeps
(`Engine.after_invariant`), as a run that fails changes nothing.

No node gets a second name or a second path in the course of a history, and paths are never
taken back or changed (`Engine.names_and_paths_last`). The reports count the paths: each path
pass writes its facts behind all others (`Engine.exists_toList_eq_of_writeAllPaths`).
-/

set_option autoImplicit false

namespace FactHierarchy

/-! ## Histories -/

/-- Something that happens to a graph. -/
inductive Event where
  | insert (fact : Fact)
  | apply (rules : List Rule)
  deriving DecidableEq, Repr

/-- The graph after an event. -/
def Event.perform (e : Engine) (g : Graph) : Event → Graph
  | insert f => g.put f
  | apply rules => (e.apply rules g).2

/-- The graph after some events, one after the other. -/
def Engine.after (e : Engine) (events : List Event) (g : Graph) : Graph :=
  events.foldl (Event.perform e) g

def Plant.line3 : Node := .iri "urn:plant#line3"

/-- The plant gets another line after the rules have been applied. -/
def Plant.extension : List Event :=
  [.apply rules, .insert ⟨line3, .iri rdfTypeIri, lineKind⟩]

namespace Engine

variable {e : Engine} {events : List Event} {rules : List Rule} {g g' : Graph}
  {report : RunReport}

theorem after_append (e : Engine) (before later : List Event) (g : Graph) :
    e.after (before ++ later) g = e.after later (e.after before g) := List.foldl_append

theorem apply_eq_ok_iff :
    e.apply rules g = (.ok report, g') ↔ e.run rules g = .ok (report, g') := by
  rw [apply]
  cases e.run rules g with
  | error cause => simp
  | ok result => simp [Prod.ext_iff]

theorem apply_eq_error_iff {cause : RunError} :
    e.apply rules g = (.error cause, g') ↔ e.run rules g = .error cause ∧ g' = g := by
  rw [apply]
  cases e.run rules g with
  | error cause => simp [eq_comm]
  | ok result => simp

/-- **What insertions and runs keep, every history keeps.** -/
theorem after_invariant {P : Graph → Prop}
    (hinsert : ∀ f g, .insert f ∈ events → P g → P (g.put f))
    (hrun : ∀ rules report g g', e.run rules g = .ok (report, g') → P g → P g')
    (hg : P g) : P (e.after events g) := by
  induction events generalizing g with
  | nil => exact hg
  | cons event events ih =>
      refine ih (fun f g hf => hinsert f g (List.mem_cons_of_mem event hf)) ?_
      cases event with
      | insert f => exact hinsert f g (List.mem_cons_self ..) hg
      | apply rules =>
          show P (e.apply rules g).2
          rw [apply]
          cases hresult : e.run rules g with
          | error cause => exact hg
          | ok result =>
              obtain ⟨report, g'⟩ := result
              exact hrun rules report g g' hresult hg

/-! ## The paths of a run -/

/-- The annotation passes of a run continue the graph that it starts from. -/
theorem continues_annotated (e : Engine) (rules : List Rule) (g : Graph) :
    Graph.Continues e.vocabulary
      ((e.annotator.annotateAll rules g).1.flatMap AnnotationReport.processed) g
      (e.annotator.annotateAll rules g).2 :=
  Annotator.continues_annotateAll (a := e.annotator) e.distinct_vocabulary rules g

/-- **The path passes write paths behind all other facts**, as many as their reports count. -/
theorem exists_toList_eq_of_writeAllPaths {todo : List (Rule × AnnotationReport)}
    {reports : List PathReport} (h : e.writeAllPaths todo g = .ok (reports, g')) :
    ∃ added : List Fact, g'.toList = g.toList ++ added ∧
      (∀ f ∈ added, f.predicate = e.vocabulary.objectPath) ∧
      added.length = (reports.map PathReport.written).foldr (· + ·) 0 := by
  induction todo generalizing g reports with
  | nil =>
      obtain ⟨rfl, rfl⟩ := Prod.mk.inj (Except.ok.inj h)
      exact ⟨[], (List.append_nil _).symm, fun f hf => absurd hf List.not_mem_nil, rfl⟩
  | cons x todo ih =>
      rw [writeAllPaths_cons] at h
      split at h
      · cases h
      · next report g₁ hfirst =>
        split at h
        · cases h
        · next rest g₂ hrest =>
          obtain ⟨rfl, rfl⟩ := Prod.mk.inj (Except.ok.inj h)
          obtain ⟨visits, hpass, rfl⟩ := Graph.pathPass_of_writePaths hfirst
          obtain ⟨added, hadded, hpaths, hlength⟩ := ih hrest
          refine ⟨(visits.filter Visit.entered).map (g.pathFactOf e.vocabulary x.1.basePath) ++
            added, ?_, fun f hf => ?_, ?_⟩
          · rw [hadded, hpass.toList_eq, List.append_assoc]
          · rcases List.mem_append.1 hf with hf | hf
            · obtain ⟨visit, -, rfl⟩ := List.mem_map.1 hf
              rfl
            · exact hpaths f hf
          · rw [List.length_append, hlength, List.length_map, List.map_cons, List.foldr_cons,
              enteredNodes, List.length_map]

/-- A run keeps all path facts. -/
theorem path_mem_of_run_eq_ok (hrun : e.run rules g = .ok (report, g')) {f : Fact}
    (hf : f.predicate = e.vocabulary.objectPath) (hmem : f ∈ g.toList) : f ∈ g'.toList := by
  obtain ⟨-, -, hpaths⟩ := exists_of_run_eq_ok hrun
  obtain ⟨added, hadded, -⟩ := exists_toList_eq_of_writeAllPaths hpaths
  rw [hadded]
  refine List.mem_append_left added ((e.continues_annotated rules g).kept f hmem ?_)
  rw [hf]
  exact (e.distinct_vocabulary.ne_objectPath (by simp)).symm

/-- **A run adds as many path facts as its report counts.** -/
theorem length_added_paths (hrun : e.run rules g = .ok (report, g')) :
    (g'.toList.filter fun f =>
      f.predicate = e.vocabulary.objectPath ∧ f ∉ g.toList).length = report.pathCount := by
  obtain ⟨-, -, hpaths⟩ := exists_of_run_eq_ok hrun
  obtain ⟨added, hadded, hpath, hlength⟩ := exists_toList_eq_of_writeAllPaths hpaths
  -- annotation adds no path fact, and takes none away
  have hold : ∀ f : Fact, f.predicate = e.vocabulary.objectPath →
      (f ∈ (e.annotator.annotateAll rules g).2.toList ↔ f ∈ g.toList) := by
    rintro ⟨s, p, t⟩ rfl
    rw [← Graph.mem_objects, ← Graph.mem_objects]
    exact iff_of_eq (congrArg (t ∈ ·) ((e.continues_annotated rules g).paths_eq s))
  have hnodup := g'.nodup_toList
  rw [hadded] at hnodup
  have hfirst : (e.annotator.annotateAll rules g).2.toList.filter (fun f =>
      f.predicate = e.vocabulary.objectPath ∧ f ∉ g.toList) = [] := by
    rw [List.filter_eq_nil_iff]
    intro f hf hnew
    obtain ⟨hp, hnew⟩ := of_decide_eq_true hnew
    exact hnew ((hold f hp).1 hf)
  have hrest : added.filter (fun f =>
      f.predicate = e.vocabulary.objectPath ∧ f ∉ g.toList) = added := by
    rw [List.filter_eq_self]
    intro f hf
    refine decide_eq_true ⟨hpath f hf, fun hmem => ?_⟩
    exact (List.disjoint_of_nodup_append hnodup) ((hold f (hpath f hf)).2 hmem) hf
  rw [hadded, List.filter_append, hfirst, hrest, List.nil_append, hlength]
  rfl

end Engine

/-! ## At most one name and one path -/

namespace Graph

variable {v : Vocabulary} {g g' : Graph}

/-- **No node has two names or two paths.** -/
def Unambiguous (v : Vocabulary) (g : Graph) : Prop :=
  ∀ n, (g.objects n v.objectName).length ≤ 1 ∧ (g.objects n v.objectPath).length ≤ 1

theorem Unannotated.unambiguous (h : g.Unannotated v) : g.Unambiguous v := by
  have hnone : ∀ n p, p ∈ v.predicates → (g.objects n p).length ≤ 1 := by
    intro n p hp
    have hnil : g.objects n p = [] :=
      List.eq_nil_iff_forall_not_mem.2 fun t ht => h.not_mem hp t (mem_objects.1 ht)
    rw [hnil]
    exact Nat.zero_le 1
  intro n
  exact ⟨hnone n _ (by simp [Vocabulary.predicates]), hnone n _ (by simp [Vocabulary.predicates])⟩

theorem Unambiguous.put {f : Fact} (h : g.Unambiguous v) (hf : f.predicate ∉ v.predicates) :
    (g.put f).Unambiguous v := by
  intro n
  have hname : f.predicate ≠ v.objectName := fun heq => hf (by simp [heq, Vocabulary.predicates])
  have hpath : f.predicate ≠ v.objectPath := fun heq => hf (by simp [heq, Vocabulary.predicates])
  rw [objects_put_of_predicate_ne hname, objects_put_of_predicate_ne hpath]
  exact h n

/-- A path pass gives a path to no node that has one, and no more than one to any other. -/
theorem PathPass.unambiguous {base : String} {candidates : List Node} {visits : List Visit}
    (hv : v.Distinct) (hpass : PathPass v base candidates visits g g') (h : g.Unambiguous v) :
    g'.Unambiguous v := by
  intro n
  obtain ⟨hname, hpath⟩ := h n
  rw [hpass.sameOff _ (hv.ne_objectPath (by simp))]
  refine ⟨hname, ?_⟩
  by_cases hold : g.hasPath v n = true
  · rw [hpass.objects_objectPath_of_hasPath hold]
    exact hpath
  · by_cases hentered : Entered visits n
    · obtain ⟨above, hvisit⟩ := hentered
      rw [hpass.objects_objectPath hvisit]
      exact Nat.le_refl 1
    · have hnone : ¬g'.hasPath v n = true := fun hn =>
        (hpass.hasPath_iff.1 hn).elim hold hentered
      rw [Bool.not_eq_true, hasPath, any_about_eq_false_iff] at hnone
      rw [hnone]
      exact Nat.zero_le 1

end Graph

namespace Engine

variable {e : Engine} {rules : List Rule} {g g' : Graph} {report : RunReport}

/-- **A run gives no node a second name or a second path.** -/
theorem unambiguous_of_run_eq_ok (hrun : e.run rules g = .ok (report, g'))
    (h : g.Unambiguous e.vocabulary) : g'.Unambiguous e.vocabulary := by
  have hv := e.distinct_vocabulary
  obtain ⟨-, -, hpaths⟩ := exists_of_run_eq_ok hrun
  have hannotated : (e.annotator.annotateAll rules g).2.Unambiguous e.vocabulary := by
    intro n
    obtain ⟨acts, hacts, -⟩ := e.annotator.exists_acts_annotateAll rules g
    rw [hacts]
    constructor
    · have hnames := Act.objectName_writeAll (a := e.annotator) hv acts g n
      exact hnames ▸ Act.length_renameAll_le (h n).1
    · have hpaths := Act.objectPath_writeAll (a := e.annotator) hv acts g n
      exact hpaths ▸ (h n).2
  exact @writeAllPaths_invariant e _ _ (fun _ g => g.Unambiguous e.vocabulary)
    (fun _ _ _ _ _ hold hpass => hpass.unambiguous hv hold) [] _ _ hannotated hpaths

/-- **No history gives a node a second name or a second path.** -/
theorem unambiguous_after {events : List Event} (hg : g.Unambiguous e.vocabulary)
    (hevents : ∀ f, .insert f ∈ events → f.predicate ∉ e.vocabulary.predicates) :
    (e.after events g).Unambiguous e.vocabulary :=
  after_invariant (fun f _ hf h => h.put (hevents f hf))
    (fun _ _ _ _ hrun h => unambiguous_of_run_eq_ok hrun h) hg

/-- **Names and paths last.** Start from a graph in which no node has two names or two paths, and
let facts that are not under annotation predicates be inserted and any rules be applied. Then no
node ever has two names or two paths, every path stays, and each run that succeeds adds as many
path facts as its report counts. -/
theorem names_and_paths_last (events : List Event) (hg : g.Unambiguous e.vocabulary)
    (hevents : ∀ f, .insert f ∈ events → f.predicate ∉ e.vocabulary.predicates) :
    (e.after events g).Unambiguous e.vocabulary ∧
    (∀ before later, events = before ++ later → ∀ f ∈ (e.after before g).toList,
      f.predicate = e.vocabulary.objectPath → f ∈ (e.after events g).toList) ∧
    ∀ rules report g', e.apply rules (e.after events g) = (.ok report, g') →
      (g'.toList.filter fun f => f.predicate = e.vocabulary.objectPath ∧
        f ∉ (e.after events g).toList).length = report.pathCount := by
  refine ⟨unambiguous_after hg hevents, ?_, ?_⟩
  · rintro before later rfl f hf hpath
    rw [after_append]
    refine after_invariant (P := fun g => f ∈ g.toList) (fun f' g _ h => ?_) ?_ hf
    · exact Graph.mem_toList_put.2 (.inl h)
    · intro rules report g g' hrun h
      exact path_mem_of_run_eq_ok hrun hpath h
  · intro rules report g' happly
    exact length_added_paths (apply_eq_ok_iff.1 happly)

/-- In the plant, a line that is built after the first run gets a path in the second one, beside
the paths of the first. -/
theorem names_and_paths_last_plant : ∃ report g',
    Plant.graph.Unambiguous Plant.engine.vocabulary ∧
    (∀ f, .insert f ∈ Plant.extension → f.predicate ∉ Plant.engine.vocabulary.predicates) ∧
    (Plant.engine.after Plant.extension Plant.graph).Unambiguous Plant.engine.vocabulary ∧
    (∀ f ∈ (Plant.engine.after [.apply Plant.rules] Plant.graph).toList,
      f.predicate = Plant.engine.vocabulary.objectPath →
        f ∈ (Plant.engine.after Plant.extension Plant.graph).toList) ∧
    Plant.engine.apply Plant.rules (Plant.engine.after Plant.extension Plant.graph) =
      (.ok report, g') ∧
    report.pathCount = 1 ∧
    (g'.toList.filter fun f => f.predicate = Plant.engine.vocabulary.objectPath ∧
      f ∉ (Plant.engine.after Plant.extension Plant.graph).toList).length = report.pathCount := by
  have hg : Plant.graph.Unambiguous Plant.engine.vocabulary := by
    refine Graph.Unannotated.unambiguous ?_
    decide +kernel
  have hevents : ∀ f, .insert f ∈ Plant.extension →
      f.predicate ∉ Plant.engine.vocabulary.predicates := by
    intro f hf
    simp only [Plant.extension, List.mem_cons, Event.insert.injEq, reduceCtorEq, false_or,
      List.not_mem_nil, or_false] at hf
    subst hf
    decide +kernel
  have hcount : ((Plant.engine.run Plant.rules
      (Plant.engine.after Plant.extension Plant.graph)).toOption.any fun result =>
        result.1.pathCount = 1) = true := by decide +kernel
  obtain ⟨hunambiguous, hstay, hadded⟩ := names_and_paths_last Plant.extension hg hevents
  obtain ⟨⟨report, g'⟩, hrun, hcount⟩ := exists_eq_ok_of_any hcount
  have happly := apply_eq_ok_iff.2 hrun
  exact ⟨report, g', hg, hevents, hunambiguous,
    hstay [.apply Plant.rules] [.insert ⟨Plant.line3, .iri rdfTypeIri, Plant.lineKind⟩] rfl,
    happly, of_decide_eq_true hcount, hadded Plant.rules report g' happly⟩

end Engine

end FactHierarchy
