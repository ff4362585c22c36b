import FactHierarchy.Proofs.Annotation.Agree
import FactHierarchy.Proofs.Path.Plan
import FactHierarchy.Proofs.Run.Passes

/-!
# Facts that do not matter

A run asks for facts under certain predicates alone: those of types and annotations and those that
its rules read (`Engine.readPredicates`). All other facts are irrelevant to it. They are neither
changed nor looked at, and so a run does the same to a graph without them: it fails for the same
reason, or it succeeds with the same report and leaves the same facts in the same order
(`Engine.run_ignores_irrelevant_facts`).
-/

set_option autoImplicit false

namespace FactHierarchy.Engine

variable {e : Engine} {rules : List Rule} {read : List Node} {g g' : Graph}

/-! ## What a run reads -/

/-- **The predicates that a run reads**: that of types, those of annotations and those that the
rules read. -/
def readPredicates (e : Engine) (rules : List Rule) : List Node :=
  e.vocabulary.rdfType :: (e.vocabulary.predicates ++ rules.flatMap Rule.predicates)

/-- The graph of the facts of a graph that are under a predicate that the run reads. -/
def relevantPart (e : Engine) (rules : List Rule) (g : Graph) : Graph :=
  .ofList (g.toList.filter (Fact.isUnder (e.readPredicates rules)))

theorem mem_readPredicates_of_mem_predicates {q : Node} (hq : q ∈ e.vocabulary.predicates) :
    q ∈ e.readPredicates rules :=
  List.mem_cons_of_mem _ (List.mem_append_left _ hq)

theorem predicates_subset_readPredicates {rule : Rule} (hrule : rule ∈ rules) :
    rule.predicates ⊆ e.readPredicates rules := fun _ hq =>
  List.mem_cons_of_mem _ (List.mem_append_right _ (List.mem_flatMap.2 ⟨rule, hrule, hq⟩))

theorem toList_relevantPart :
    (e.relevantPart rules g).toList =
      g.toList.filter (Fact.isUnder (e.readPredicates rules)) :=
  Graph.toList_ofList (g.nodup_toList.filter _)

theorem agree_relevantPart :
    g.Agree (Fact.isUnder (e.readPredicates rules)) (e.relevantPart rules g) :=
  (Graph.agree_ofList_filter _ g).symm

/-! ## Two runs side by side -/

/-- Path passes do the same to graphs that agree about the facts that runs read: they fail for the
same reason, or they succeed with the same reports and the graphs agree afterwards. -/
theorem agree_writeAllPaths (h : g.Agree (Fact.isUnder (e.readPredicates rules)) g')
    (todo : List (Rule × AnnotationReport)) :
    (∃ cause, e.writeAllPaths todo g = .error cause ∧ e.writeAllPaths todo g' = .error cause) ∨
      ∃ reports g₁ g₂, e.writeAllPaths todo g = .ok (reports, g₁) ∧
        e.writeAllPaths todo g' = .ok (reports, g₂) ∧
        g₁.Agree (Fact.isUnder (e.readPredicates rules)) g₂ := by
  induction todo generalizing g g' with
  | nil => exact .inr ⟨[], g, g', rfl, rfl, h⟩
  | cons x todo ih =>
      have halike : g.Alike e.vocabulary (fun _ => True) g' := by
        refine h.alike (fun n _ => ?_) (fun n _ q hq t => ?_) (fun _ _ _ => .rfl) fun _ _ _ => .rfl
        · exact decide_eq_true (List.mem_cons_self ..)
        · refine decide_eq_true (mem_readPredicates_of_mem_predicates ?_)
          simp only [Vocabulary.predicates, List.mem_cons] at hq ⊢
          grind
      have hplan : g.pathPlan e.vocabulary x.1.id x.1.basePath x.2.processed =
          g'.pathPlan e.vocabulary x.1.id x.1.basePath x.2.processed :=
        halike.pathPlan_eq fun _ _ => trivial
      rw [writeAllPaths_cons, writeAllPaths_cons, Graph.writePaths_eq_plan,
        Graph.writePaths_eq_plan, hplan]
      cases g'.pathPlan e.vocabulary x.1.id x.1.basePath x.2.processed with
      | error cause => exact .inl ⟨cause, rfl, rfl⟩
      | ok plan =>
          obtain ⟨cause, hg, hg'⟩ | ⟨reports, g₁, g₂, hg, hg', hend⟩ := ih (h.extend plan.2)
          · refine .inl ⟨cause, ?_, ?_⟩
            · simp only [Except.map, hg]
            · simp only [Except.map, hg']
          · refine .inr ⟨plan.1 :: reports, g₁, g₂, ?_, ?_, hend⟩
            · simp only [Except.map, hg]
            · simp only [Except.map, hg']

/-- **Runs do the same to graphs that agree about the facts that runs read.** -/
theorem agree_run (h : g.Agree (Fact.isUnder (e.readPredicates rules)) g') :
    (∃ cause, e.run rules g = .error cause ∧ e.run rules g' = .error cause) ∨
      ∃ report g₁ g₂, e.run rules g = .ok (report, g₁) ∧ e.run rules g' = .ok (report, g₂) ∧
        g₁.Agree (Fact.isUnder (e.readPredicates rules)) g₂ := by
  have hnames : e.vocabulary.objectName ∈ e.readPredicates rules :=
    mem_readPredicates_of_mem_predicates (by simp [Vocabulary.predicates])
  obtain ⟨hreports, hannotated⟩ := Annotator.agree_annotateAll (a := e.annotator) hnames
    (fun rule hrule => predicates_subset_readPredicates hrule) h
  have hpaths := agree_writeAllPaths hannotated
    (rules.zip (e.annotator.annotateAll rules g).1)
  rw [run_eq, run_eq, ← hreports]
  cases Rule.checkAll rules with
  | error cause => exact .inl ⟨cause, rfl, rfl⟩
  | ok _ =>
      dsimp only
      obtain ⟨cause, hg, hg'⟩ | ⟨reports, g₁, g₂, hg, hg', hend⟩ := hpaths
      · rw [hg, hg']
        exact .inl ⟨cause, rfl, rfl⟩
      · rw [hg, hg']
        exact .inr ⟨_, g₁, g₂, rfl, rfl, hend⟩

/-- A run leaves raw facts as they are. -/
theorem rawFacts_of_run_eq_ok {report : RunReport} (hrun : e.run rules g = .ok (report, g')) :
    g'.rawFacts e.vocabulary = g.rawFacts e.vocabulary := by
  obtain ⟨-, -, hpaths⟩ := exists_of_run_eq_ok hrun
  obtain ⟨acts, hacts, -⟩ := e.annotator.exists_acts_annotateAll rules g
  rw [(passed_of_writeAllPaths hpaths).raw, hacts]
  exact Act.rawFacts_writeAll (a := e.annotator) acts g

/-- A run that succeeds on relevant facts alone leaves relevant facts alone. -/
theorem relevant_of_mem_run {report : RunReport}
    (hg : ∀ f ∈ g.toList, Fact.isUnder (e.readPredicates rules) f = true)
    (hrun : e.run rules g = .ok (report, g')) {f : Fact} (hf : f ∈ g'.toList) :
    Fact.isUnder (e.readPredicates rules) f = true := by
  by_cases hraw : e.vocabulary.isRaw f = true
  · have hmem : f ∈ g.rawFacts e.vocabulary := by
      rw [← rawFacts_of_run_eq_ok hrun]
      exact List.mem_filter.2 ⟨hf, hraw⟩
    exact hg f (List.mem_filter.1 hmem).1
  · rw [Vocabulary.isRaw_iff, not_and_or, Classical.not_not, Classical.not_not] at hraw
    refine decide_eq_true ?_
    rcases hraw with hpredicate | ⟨htype, -⟩
    · exact mem_readPredicates_of_mem_predicates hpredicate
    · rw [htype]
      exact List.mem_cons_self ..

/-- **Irrelevant facts do not influence a run.** The run on all facts and the run on the relevant
ones fail for the same reason, or both succeed with one report. Then the relevant facts of the
first result are the second result, in the same order. -/
theorem run_ignores_irrelevant_facts (e : Engine) (rules : List Rule) (g : Graph) :
    (∃ cause, e.run rules g = .error cause ∧
      e.run rules (e.relevantPart rules g) = .error cause) ∨
    ∃ report g₁ g₂, e.run rules g = .ok (report, g₁) ∧
      e.run rules (e.relevantPart rules g) = .ok (report, g₂) ∧
      g₁.toList.filter (Fact.isUnder (e.readPredicates rules)) = g₂.toList := by
  have hrelevant : ∀ f ∈ (e.relevantPart rules g).toList,
      Fact.isUnder (e.readPredicates rules) f = true := by
    intro f hf
    rw [toList_relevantPart] at hf
    exact (List.mem_filter.1 hf).2
  refine (agree_run agree_relevantPart).imp_right ?_
  rintro ⟨report, g₁, g₂, hg, hg', hend⟩
  -- there is nothing in the second result to be filtered out
  have hall : g₂.toList.filter (Fact.isUnder (e.readPredicates rules)) = g₂.toList :=
    List.filter_eq_self.2 fun f hf => relevant_of_mem_run hrelevant hg' hf
  exact ⟨report, g₁, g₂, hg, hg', Eq.trans hend hall⟩

end FactHierarchy.Engine
