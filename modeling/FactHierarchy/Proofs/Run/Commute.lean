import FactHierarchy.Proofs.Annotation.Apart
import FactHierarchy.Proofs.RuleCheck
import FactHierarchy.Proofs.Run.FromScratch

/-!
# Runs whose rules share no node

Rules that are apart commute. Every one of them annotates and places its own nodes, so its path
pass has the plan that it would have right after annotation, whatever the passes before it have
written (`Engine.writePaths_extend`). A run succeeds when all these plans do, and then its result is
the annotated graph with the paths of all plans (`Engine.run_eq_of_plans`).

None of this depends on the order of the rules, apart from the order of facts: runs in different
orders succeed together, with the same facts and the same outcome for every rule
(`Engine.run_perm_of_apart`).
-/

set_option autoImplicit false

namespace FactHierarchy

/-- The report has these outcomes for the rules, one for each. -/
structure RunReport.HasOutcomes (report : RunReport) (rules : List Rule)
    (outcome : Rule → AnnotationReport × PathReport) : Prop where
  annotations_eq : report.annotations = rules.map fun r => (outcome r).1
  paths_eq : report.paths = rules.map fun r => (outcome r).2

namespace Plant

def crew : Node := .iri "urn:plant#crew"

def worker : Node := .iri "urn:plant#worker"

def employs : Node := .iri "urn:plant#employs"

def crewKind : Node := .iri "urn:plant#Crew"

/-- The plant with a crew. -/
def staffed : Graph := graph.extend [⟨crew, .iri rdfTypeIri, crewKind⟩, ⟨crew, employs, worker⟩]

/-- One rule is about lines and their sensors, the other one about crews and their workers. -/
def staffedRules : List Rule :=
  [{ id := "lines", selector := ⟨.iri rdfTypeIri, lineKind⟩, children := [⟨has, .localName⟩],
     basePath := "/plant" },
    { id := "crews", selector := ⟨.iri rdfTypeIri, crewKind⟩, children := [⟨employs, .localName⟩],
      basePath := "/staff" }]

end Plant

namespace Engine

variable {e : Engine} {rules rules' : List Rule} {r : Rule} {g g₁ g₂ : Graph}

/-! ## Annotations of runs -/

section Annotations

variable (hrules : ∀ r ∈ rules, r.ReadsRaw e.vocabulary)
include hrules

theorem reports_annotateAll :
    (e.annotator.annotateAll rules g).1 = rules.map (e.annotator.plannedReport g) := by
  rw [Annotator.annotateAll_eq (a := e.annotator) hrules rfl]

theorem zip_annotateAll :
    rules.zip (e.annotator.annotateAll rules g).1 =
      rules.map fun r => (r, e.annotator.plannedReport g r) := by
  have hzip : (rules.map id).zip (rules.map (e.annotator.plannedReport g)) =
      rules.map fun r => (r, e.annotator.plannedReport g r) := List.zip_map'
  rwa [List.map_id, ← reports_annotateAll hrules] at hzip

end Annotations

/-! ## Plans of path passes -/

/-- The plan of the path pass of a rule, read off the annotated graph. -/
def rulePlan (e : Engine) (rules : List Rule) (g : Graph) (r : Rule) :
    Except RunError (PathReport × List Fact) :=
  (e.annotator.annotateAll rules g).2.pathPlan e.vocabulary r.id r.basePath
    (e.annotator.plannedReport g r).processed

/-- A rule touches the subjects that it processes. -/
theorem touches_of_mem_processed {n : Node}
    (hn : n ∈ (e.annotator.plannedReport g r).processed) : r.Touches g n := by
  obtain ⟨act, hact, henrolled⟩ := List.mem_filterMap.1 hn
  exact Annotator.exists_marked_iff.1
    ⟨act, hact, Act.mem_marked_of_enrolled (Option.mem_toList.2 henrolled)⟩

/-- The facts are paths of nodes that the rule does not touch. -/
def Elsewhere (e : Engine) (g : Graph) (facts : List Fact) (r : Rule) : Prop :=
  ∀ f ∈ facts, ¬r.Touches g f.subject ∧ f.predicate = e.vocabulary.objectPath

section Apart

variable (hg : g.Unannotated e.vocabulary) (hrules : ∀ r ∈ rules, r.ReadsRaw e.vocabulary)
  (hapart : Rule.Apart rules g)
include hg hrules hapart

/-- On the nodes of a rule, the annotated graph looks as it does without paths elsewhere. -/
theorem alike_extend_of_elsewhere {written : List Fact} (hr : r ∈ rules)
    (hwritten : e.Elsewhere g written r) :
    ((e.annotator.annotateAll rules g).2.extend written).Alike e.vocabulary (r.Touches g)
      (e.annotator.annotateAll rules g).2 :=
  Graph.alike_extend e.distinct_vocabulary (Annotator.isChild_annotateAll_of_apart
    (a := e.annotator) e.distinct_vocabulary hrules hapart hg hr) hwritten

/-- A rule plans paths for nodes that it touches. -/
theorem touches_of_mem_rulePlan {plan : PathReport × List Fact} (hr : r ∈ rules)
    (hplan : e.rulePlan rules g r = .ok plan) {f : Fact} (hf : f ∈ plan.2) :
    r.Touches g f.subject ∧ f.predicate = e.vocabulary.objectPath := by
  have hnone : e.Elsewhere g [] r := fun f hf => absurd hf List.not_mem_nil
  exact (alike_extend_of_elsewhere hg hrules hapart hr hnone).of_mem_pathPlan
    (fun _ => touches_of_mem_processed) hplan hf

/-- So its plan is about nodes that no other rule touches. -/
theorem elsewhere_append {written : List Fact} {others : List Rule}
    {plan : PathReport × List Fact} (hr : r ∈ rules) (hothers : ∀ r' ∈ others, r' ∈ rules)
    (hnew : r ∉ others) (hplan : e.rulePlan rules g r = .ok plan)
    (hwritten : ∀ r' ∈ others, e.Elsewhere g written r') :
    ∀ r' ∈ others, e.Elsewhere g (written ++ plan.2) r' := by
  intro r' hr' f hf
  rcases List.mem_append.1 hf with hf | hf
  · exact hwritten r' hr' f hf
  · obtain ⟨htouches, hpredicate⟩ := touches_of_mem_rulePlan hg hrules hapart hr hplan hf
    refine ⟨fun htouches' => hnew ?_, hpredicate⟩
    rwa [hapart r hr r' (hothers r' hr') f.subject htouches htouches']

/-- **The path pass of a rule has the plan of the rule**, also after passes that have written paths
elsewhere. -/
theorem writePaths_extend {written : List Fact} (hr : r ∈ rules)
    (hwritten : e.Elsewhere g written r) :
    ((e.annotator.annotateAll rules g).2.extend written).writePaths e.vocabulary r.id r.basePath
        (e.annotator.plannedReport g r).processed =
      (e.rulePlan rules g r).map fun plan =>
        (plan.1, (e.annotator.annotateAll rules g).2.extend (written ++ plan.2)) := by
  have hplan : ((e.annotator.annotateAll rules g).2.extend written).pathPlan e.vocabulary r.id
      r.basePath (e.annotator.plannedReport g r).processed = e.rulePlan rules g r :=
    (alike_extend_of_elsewhere hg hrules hapart hr hwritten).pathPlan_eq
      fun _ => touches_of_mem_processed
  rw [Graph.writePaths_eq_plan, hplan]
  simp only [Graph.extend_append]

/-! ## All passes together -/

/-- **Where all rules have plans, their passes succeed** and write what is planned. -/
theorem writeAllPaths_of_plans {todo : List Rule} {written : List Fact}
    {plans : Rule → PathReport × List Fact} (htodo : ∀ r ∈ todo, r ∈ rules) (hnodup : todo.Nodup)
    (hwritten : ∀ r ∈ todo, e.Elsewhere g written r)
    (hplans : ∀ r ∈ todo, e.rulePlan rules g r = .ok (plans r)) :
    e.writeAllPaths (todo.map fun r => (r, e.annotator.plannedReport g r))
        ((e.annotator.annotateAll rules g).2.extend written) =
      .ok (todo.map fun r => (plans r).1,
        (e.annotator.annotateAll rules g).2.extend
          (written ++ todo.flatMap fun r => (plans r).2)) := by
  induction todo generalizing written with
  | nil => simp [writeAllPaths]
  | cons r todo ih =>
      obtain ⟨hr, htodo⟩ := List.forall_mem_cons.1 htodo
      obtain ⟨hnew, hnodup⟩ := List.nodup_cons.1 hnodup
      obtain ⟨hrwritten, hwritten⟩ := List.forall_mem_cons.1 hwritten
      obtain ⟨hplan, hplans⟩ := List.forall_mem_cons.1 hplans
      have helsewhere := elsewhere_append hg hrules hapart hr htodo hnew hplan hwritten
      rw [List.map_cons, writeAllPaths_cons, writePaths_extend hg hrules hapart hr hrwritten, hplan]
      simp only [Except.map]
      rw [ih htodo hnodup helsewhere hplans, List.append_assoc]
      rfl

/-- Passes that succeed had plans. -/
theorem exists_plan_of_writeAllPaths {todo : List Rule} {written : List Fact}
    {result : List PathReport × Graph} (htodo : ∀ r ∈ todo, r ∈ rules) (hnodup : todo.Nodup)
    (hwritten : ∀ r ∈ todo, e.Elsewhere g written r)
    (h : e.writeAllPaths (todo.map fun r => (r, e.annotator.plannedReport g r))
      ((e.annotator.annotateAll rules g).2.extend written) = .ok result) :
    ∀ r ∈ todo, ∃ plan, e.rulePlan rules g r = .ok plan := by
  induction todo generalizing written result with
  | nil => exact fun r hr => absurd hr List.not_mem_nil
  | cons r todo ih =>
      obtain ⟨hr, htodo⟩ := List.forall_mem_cons.1 htodo
      obtain ⟨hnew, hnodup⟩ := List.nodup_cons.1 hnodup
      obtain ⟨hrwritten, hwritten⟩ := List.forall_mem_cons.1 hwritten
      rw [List.map_cons, writeAllPaths_cons, writePaths_extend hg hrules hapart hr hrwritten] at h
      cases hplan : e.rulePlan rules g r with
      | error cause =>
          rw [hplan] at h
          cases h
      | ok plan =>
          have helsewhere := elsewhere_append hg hrules hapart hr htodo hnew hplan hwritten
          rw [hplan] at h
          simp only [Except.map] at h
          split at h
          · cases h
          · next hrest =>
            exact List.forall_mem_cons.2 ⟨⟨plan, hplan⟩, ih htodo hnodup helsewhere hrest⟩

/-! ## Whole runs -/

/-- **Where all rules have plans, a run succeeds**, and its result is the annotated graph with all
planned paths. -/
theorem run_eq_of_plans {plans : Rule → PathReport × List Fact}
    (hcheck : Rule.checkAll rules = .ok ())
    (hplans : ∀ r ∈ rules, e.rulePlan rules g r = .ok (plans r)) :
    e.run rules g = .ok
      (⟨rules.map (e.annotator.plannedReport g), rules.map fun r => (plans r).1⟩,
        (e.annotator.annotateAll rules g).2.extend (rules.flatMap fun r => (plans r).2)) := by
  have hnone : ∀ r ∈ rules, e.Elsewhere g [] r := fun r _ f hf => absurd hf List.not_mem_nil
  have hpaths := writeAllPaths_of_plans hg hrules hapart (fun _ hr => hr)
    (Rule.nodup_of_checkAll hcheck) hnone hplans
  rw [run_eq, hcheck, zip_annotateAll hrules]
  dsimp only
  rw [Graph.extend_nil, List.nil_append] at hpaths
  rw [hpaths, reports_annotateAll hrules]

/-- In a run that succeeds all rules have plans. -/
theorem exists_plan_of_run {result : RunReport × Graph} (hrun : e.run rules g = .ok result) :
    ∀ r ∈ rules, ∃ plan, e.rulePlan rules g r = .ok plan := by
  have hnone : ∀ r ∈ rules, e.Elsewhere g [] r := fun r _ f hf => absurd hf List.not_mem_nil
  obtain ⟨hcheck, -, hpaths⟩ := exists_of_run_eq_ok hrun
  rw [zip_annotateAll hrules] at hpaths
  exact exists_plan_of_writeAllPaths hg hrules hapart (fun _ hr => hr)
    (Rule.nodup_of_checkAll hcheck) hnone hpaths

end Apart

/-! ## The order of rules -/

section Order

variable (hg : g.Unannotated e.vocabulary) (hrules : ∀ r ∈ rules, r.ReadsRaw e.vocabulary)
  (hapart : Rule.Apart rules g) (hperm : rules'.Perm rules)
include hg hrules hapart hperm

/-- **A rule has the same plan in every order.** -/
theorem rulePlan_perm (hcheck : Rule.checkAll rules = .ok ()) (hr : r ∈ rules) :
    e.rulePlan rules' g r = e.rulePlan rules g r :=
  (Annotator.alike_annotateAll_of_apart (a := e.annotator) e.distinct_vocabulary hrules hapart
    (Rule.nodup_of_checkAll hcheck) hperm hg hr).pathPlan_eq fun _ => touches_of_mem_processed

/-- A run that succeeds does so in every order, with the same facts and the same outcome for every
rule. -/
theorem exists_run_perm {report : RunReport} (hrun : e.run rules g = .ok (report, g₁)) :
    ∃ report' g₂ outcome, e.run rules' g = .ok (report', g₂) ∧
      (∀ f, f ∈ g₂.toList ↔ f ∈ g₁.toList) ∧
      report.HasOutcomes rules outcome ∧ report'.HasOutcomes rules' outcome := by
  have hmem : ∀ {r}, r ∈ rules' → r ∈ rules := hperm.mem_iff.1
  have hapart' : Rule.Apart rules' g := fun r hr r' hr' => hapart r (hmem hr) r' (hmem hr')
  obtain ⟨hcheck, -⟩ := exists_of_run_eq_ok hrun
  have hnonempty : Nonempty (PathReport × List Fact) := ⟨⟨"", [], 0, []⟩, []⟩
  choose! plans hplans using exists_plan_of_run hg hrules hapart hrun
  have hplans' : ∀ r ∈ rules', e.rulePlan rules' g r = .ok (plans r) := fun r hr =>
    (rulePlan_perm hg hrules hapart hperm hcheck (hmem hr)).trans (hplans r (hmem hr))
  have hrun' := run_eq_of_plans hg (fun r hr => hrules r (hmem hr)) hapart'
    ((Rule.checkAll_perm hperm).2 hcheck) hplans'
  rw [run_eq_of_plans hg hrules hapart hcheck hplans] at hrun
  obtain ⟨rfl, rfl⟩ := Prod.mk.inj (Except.ok.inj hrun)
  refine ⟨_, _, fun r => (e.annotator.plannedReport g r, (plans r).1), hrun', fun f => ?_,
    ⟨rfl, rfl⟩, ⟨rfl, rfl⟩⟩
  have hannotated : f ∈ (e.annotator.annotateAll rules' g).2.toList ↔
      f ∈ (e.annotator.annotateAll rules g).2.toList :=
    Annotator.mem_annotateAll_iff_of_apart (a := e.annotator) e.distinct_vocabulary hrules hapart
      (Rule.nodup_of_checkAll hcheck) hperm
  rw [Graph.mem_toList_extend, Graph.mem_toList_extend, hannotated, List.mem_flatMap,
    List.mem_flatMap]
  simp only [hperm.mem_iff]

/-- **Rules that share no node commute.** From an unannotated graph, runs of rules that are apart
succeed in every order or in none. If they succeed, their results have the same facts, and there is
one outcome for every rule that all of them report. -/
theorem run_perm_of_apart :
    ((∃ result, e.run rules' g = .ok result) ↔ ∃ result, e.run rules g = .ok result) ∧
    ∀ report report' g₁ g₂, e.run rules g = .ok (report, g₁) → e.run rules' g = .ok (report', g₂) →
      (∀ f, f ∈ g₂.toList ↔ f ∈ g₁.toList) ∧
      ∃ outcome, report.HasOutcomes rules outcome ∧ report'.HasOutcomes rules' outcome := by
  have hmem : ∀ {r}, r ∈ rules' → r ∈ rules := hperm.mem_iff.1
  have hapart' : Rule.Apart rules' g := fun r hr r' hr' => hapart r (hmem hr) r' (hmem hr')
  refine ⟨⟨?_, ?_⟩, fun report report' g₁ g₂ hrun hrun' => ?_⟩
  · rintro ⟨⟨report, g₁⟩, hrun⟩
    obtain ⟨report', g₂, -, hrun', -⟩ := exists_run_perm hg (fun r hr => hrules r (hmem hr))
      hapart' hperm.symm hrun
    exact ⟨_, hrun'⟩
  · rintro ⟨⟨report, g₁⟩, hrun⟩
    obtain ⟨report', g₂, -, hrun', -⟩ := exists_run_perm hg hrules hapart hperm hrun
    exact ⟨_, hrun'⟩
  · obtain ⟨report'', g₃, outcome, hother, hfacts, houtcome, houtcome'⟩ :=
      exists_run_perm hg hrules hapart hperm hrun
    obtain ⟨rfl, rfl⟩ := Prod.mk.inj (Except.ok.inj (hother.symm.trans hrun'))
    exact ⟨hfacts, outcome, houtcome, houtcome'⟩

end Order

/-- In the plant with a crew, it does not matter which rule comes first. -/
theorem run_perm_in_staffed_plant : ∃ report report' g₁ g₂,
    Plant.staffed.Unannotated Plant.engine.vocabulary ∧
    (∀ r ∈ Plant.staffedRules, r.ReadsRaw Plant.engine.vocabulary) ∧
    Rule.Apart Plant.staffedRules Plant.staffed ∧
    Plant.staffedRules.reverse.Perm Plant.staffedRules ∧
    Plant.engine.run Plant.staffedRules Plant.staffed = .ok (report, g₁) ∧
    Plant.engine.run Plant.staffedRules.reverse Plant.staffed = .ok (report', g₂) ∧
    (∀ f, f ∈ g₂.toList ↔ f ∈ g₁.toList) ∧
    ∃ outcome, report.HasOutcomes Plant.staffedRules outcome ∧
      report'.HasOutcomes Plant.staffedRules.reverse outcome := by
  have hg : Plant.staffed.Unannotated Plant.engine.vocabulary := by decide +kernel
  have hrules : ∀ r ∈ Plant.staffedRules, r.ReadsRaw Plant.engine.vocabulary := by
    decide +kernel
  have hapart : Rule.Apart Plant.staffedRules Plant.staffed := by decide +kernel
  have hperm := List.reverse_perm Plant.staffedRules
  have hend : (Plant.engine.run Plant.staffedRules Plant.staffed).isOk = true := by
    decide +kernel
  obtain ⟨hiff, hsame⟩ := run_perm_of_apart hg hrules hapart hperm
  cases hrun : Plant.engine.run Plant.staffedRules Plant.staffed with
  | error cause =>
      rw [hrun] at hend
      cases hend
  | ok result =>
      obtain ⟨⟨report', g₂⟩, hrun'⟩ := hiff.2 ⟨result, hrun⟩
      obtain ⟨report, g₁⟩ := result
      obtain ⟨hfacts, houtcome⟩ := hsame report report' g₁ g₂ hrun hrun'
      exact ⟨report, report', g₁, g₂, hg, hrules, hapart, hperm, rfl, hrun', hfacts, houtcome⟩

end Engine

end FactHierarchy
