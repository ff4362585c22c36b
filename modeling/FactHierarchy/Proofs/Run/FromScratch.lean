import FactHierarchy.Proofs.Run.Placement

/-!
# Runs from scratch

What a run makes of an unannotated graph, whatever its rules are.

If the run succeeds, the hierarchy is complete (`Engine.run_places_every_object`): each
hierarchy object has one name and one path, and the path is where the object belongs. If the rules
are sound, the run fails exactly when the parent facts that annotation brings forth contain a loop
(`Engine.run_fails_iff_loop`). Neither asks how the rules overlap: a node may have several
parents, and a loop may be spread over several rules.
-/

set_option autoImplicit false

namespace FactHierarchy

/-- A result of which something holds is a success. -/
theorem exists_eq_ok_of_any {ε α : Type} {result : Except ε α} {P : α → Bool}
    (h : result.toOption.any P = true) : ∃ a, result = .ok a ∧ P a = true := by
  cases result with
  | error cause => cases h
  | ok a => exact ⟨a, rfl, h⟩

/-! ## A small plant

Two lines share a sensor. One rule puts sensors below lines, and another one puts lines below the
sensors that feed them. -/

namespace Plant

def line1 : Node := .iri "urn:plant#line1"

def line2 : Node := .iri "urn:plant#line2"

def sensor : Node := .iri "urn:plant#sensor"

def has : Node := .iri "urn:plant#has"

def feeds : Node := .iri "urn:plant#feeds"

def lineKind : Node := .iri "urn:plant#Line"

def sensorKind : Node := .iri "urn:plant#Sensor"

/-- The plant, in which no sensor feeds a line. -/
def graph : Graph := .ofList
  [⟨line1, .iri rdfTypeIri, lineKind⟩, ⟨line2, .iri rdfTypeIri, lineKind⟩,
    ⟨sensor, .iri rdfTypeIri, sensorKind⟩, ⟨line1, has, sensor⟩, ⟨line2, has, sensor⟩]

/-- The plant, in which the sensor feeds the line that has it. -/
def loopGraph : Graph := graph.put ⟨sensor, feeds, line1⟩

def rules : List Rule :=
  [{ id := "lines", selector := ⟨.iri rdfTypeIri, lineKind⟩, children := [⟨has, .localName⟩],
     basePath := "/plant" },
    { id := "sensors", selector := ⟨.iri rdfTypeIri, sensorKind⟩,
      children := [⟨feeds, .localName⟩] }]

def engine : Engine := {}

end Plant

namespace Engine

variable {e : Engine} {rules : List Rule} {g g' : Graph} {report : RunReport}

/-! ## The end of a run -/

theorem orderly_annotated (hg : g.Unannotated e.vocabulary) (rules : List Rule) :
    (e.annotator.annotateAll rules g).2.Orderly e.vocabulary
      ((e.annotator.annotateAll rules g).1.flatMap AnnotationReport.processed) :=
  Annotator.orderly_annotateAll (a := e.annotator) e.distinct_vocabulary hg.orderly rules

/-- Every subject that was processed was processed by some rule of the list. -/
theorem exists_rule_of_mem_processed (hrun : e.run rules g = .ok (report, g')) {n : Node}
    (hn : n ∈ (e.annotator.annotateAll rules g).1.flatMap AnnotationReport.processed) :
    ∃ x ∈ rules.zip report.annotations, n ∈ x.2.processed := by
  obtain ⟨-, hreport, -⟩ := exists_of_run_eq_ok hrun
  obtain ⟨annotated, hannotated, hprocessed⟩ := List.mem_flatMap.1 hn
  -- there are as many reports as rules, so every report has a rule
  have hlength : report.annotations.length ≤ rules.length := by
    rw [hreport, Annotator.length_annotateAll]
  rw [← hreport, ← List.map_snd_zip hlength] at hannotated
  obtain ⟨x, hx, rfl⟩ := List.mem_map.1 hannotated
  exact ⟨x, hx, hprocessed⟩

section Success

variable (hg : g.Unannotated e.vocabulary) (hrun : e.run rules g = .ok (report, g'))
include hg hrun

/-- All path passes of a run that succeeds keep objects placed, from the annotated graph on. -/
theorem placed_of_run_eq_ok :
    Graph.Placed e.vocabulary (e.annotator.annotateAll rules g).2
      (rules.zip report.annotations) g' := by
  obtain ⟨-, hreport, hpaths⟩ := exists_of_run_eq_ok hrun
  have hstart := Graph.placed_nil (orderly_annotated hg rules).pathless
  rw [hreport]
  refine writeAllPaths_invariant ?_ hstart hpaths
  intro done x visits g₁ g₂ hplaced hpass
  exact hplaced.pass e.distinct_vocabulary hpass

/-- Every hierarchy object has a path when the run is over. -/
theorem hasPath_of_run_eq_ok {n : Node}
    (hn : e.vocabulary.markerFact n ∈ (e.annotator.annotateAll rules g).2.toList) :
    g'.hasPath e.vocabulary n = true :=
  (placed_of_run_eq_ok hg hrun).hasPath_of_mem e.distinct_vocabulary (orderly_annotated hg rules)
    (fun _ => exists_rule_of_mem_processed hrun) hn

end Success

/-- **A run from scratch that succeeds gives every hierarchy object one name and one path.** A root
has its name below the base path of the first rule that processed it. Any other object has its name
below the path of one of its parents. -/
theorem run_places_every_object (hg : g.Unannotated e.vocabulary)
    (hrun : e.run rules g = .ok (report, g')) (n : Node)
    (hn : e.vocabulary.markerFact n ∈ g'.toList) :
    ∃ name path : String,
      g'.objects n e.vocabulary.objectName = [.literal (.string name)] ∧
      g'.objects n e.vocabulary.objectPath = [.literal (.string path)] ∧
      (g'.hasParent e.vocabulary n = false →
        ∃ rule annotated, (rules.zip report.annotations).find? (fun x => n ∈ x.2.processed) =
            some (rule, annotated) ∧
          path = appendSegment rule.basePath name) ∧
      (g'.hasParent e.vocabulary n = true →
        ∃ p above, e.vocabulary.parentFact n p ∈ g'.toList ∧
          g'.objects p e.vocabulary.objectPath = [.literal (.string above)] ∧
          path = appendSegment above name) := by
  have hv := e.distinct_vocabulary
  have hplaced := placed_of_run_eq_ok hg hrun
  have hmarker := (hplaced.same.mem_marker_iff hv.isAside_objectPath).1 hn
  -- annotation gave the name, and no path pass touches names
  have hname : ∃ name, g'.objects n e.vocabulary.objectName = [.literal (.string name)] := by
    rw [hplaced.same _ (hv.ne_objectPath (by simp))]
    exact (orderly_annotated hg rules).named n hmarker
  obtain ⟨name, hname⟩ := hname
  have hnameOf : g'.nameOf e.vocabulary n = name := Graph.valueText_of_objects hname
  obtain ⟨path, hplace⟩ := hplaced.places n (hasPath_of_run_eq_ok hg hrun hmarker)
  refine ⟨name, path, hname, hplace.objects_eq, fun hroot => ?_, fun hparent => ?_⟩
  · obtain ⟨⟨rule, annotated⟩, hfirst, hpath⟩ := hplace.root hroot
    rw [hnameOf] at hpath
    exact ⟨rule, annotated, hfirst, hpath⟩
  · obtain ⟨p, above, hp, habove, hpath⟩ := hplace.below hparent
    rw [hnameOf] at hpath
    exact ⟨p, above, hp, habove, hpath⟩

/-- In the plant, the sensor that both lines have is placed below one of them. -/
theorem run_places_shared_sensor : ∃ report g',
    Plant.graph.Unannotated Plant.engine.vocabulary ∧
    Plant.engine.run Plant.rules Plant.graph = .ok (report, g') ∧
    Plant.engine.vocabulary.markerFact Plant.sensor ∈ g'.toList ∧
    ∃ name path p above,
      g'.objects Plant.sensor Plant.engine.vocabulary.objectName = [.literal (.string name)] ∧
      g'.objects Plant.sensor Plant.engine.vocabulary.objectPath = [.literal (.string path)] ∧
      Plant.engine.vocabulary.parentFact Plant.sensor p ∈ g'.toList ∧
      g'.objects p Plant.engine.vocabulary.objectPath = [.literal (.string above)] ∧
      path = appendSegment above name := by
  have hg : Plant.graph.Unannotated Plant.engine.vocabulary := by decide +kernel
  have hend : ((Plant.engine.run Plant.rules Plant.graph).toOption.any fun result =>
      result.2.isObject Plant.engine.vocabulary Plant.sensor &&
        result.2.hasParent Plant.engine.vocabulary Plant.sensor) = true := by decide +kernel
  cases hrun : Plant.engine.run Plant.rules Plant.graph with
  | error cause =>
      rw [hrun] at hend
      cases hend
  | ok result =>
      obtain ⟨report, g'⟩ := result
      rw [hrun] at hend
      obtain ⟨hobject, hparent⟩ := Bool.and_eq_true_iff.1 hend
      have hmarker := Graph.isObject_iff.1 hobject
      obtain ⟨name, path, hname, hpath, -, hbelow⟩ :=
        run_places_every_object hg hrun Plant.sensor hmarker
      obtain ⟨p, above, hp, habove, heq⟩ := hbelow hparent
      exact ⟨report, g', hg, rfl, hmarker, name, path, p, above, hname, hpath, hp, habove, heq⟩

/-! ## Failure -/

/-- **A run that fails over sound rules has found a loop**, and says so. -/
theorem exists_loop_of_run_eq_error {cause : RunError} (hrules : Rule.checkAll rules = .ok ())
    (hrun : e.run rules g = .error cause) :
    ∃ rule chain, cause = .cyclicHierarchy rule chain ∧ ∃ n, Relation.TransGen
      ((e.annotator.annotateAll rules g).2.IsChild e.vocabulary) n n := by
  have hp := e.distinct_vocabulary.isAside_objectPath
  have hpaths := writeAllPaths_eq_error_of_run hrules hrun
  -- nothing but paths is written before the pass that fails
  obtain ⟨-, x, g₁, hsame, hpass⟩ := exists_pass_of_writeAllPaths_eq_error
    (P := fun _ => Graph.SameOff e.vocabulary.objectPath (e.annotator.annotateAll rules g).2)
    (fun _ _ _ _ _ hsame hpass => hsame.trans hpass.sameOff) [] (.refl _ _) hpaths
  obtain ⟨chain, rfl, -⟩ := Graph.writePaths_eq_error hpass
  rw [← hsame.isChild_eq hp]
  exact ⟨x.1.id, chain, rfl, Graph.exists_loop_of_writePaths_eq_error hpass⟩

/-- After a run from scratch that succeeds, no way down goes on for ever. -/
theorem acc_of_run_eq_ok (hg : g.Unannotated e.vocabulary)
    (hrun : e.run rules g = .ok (report, g')) (n : Node) :
    Acc ((e.annotator.annotateAll rules g).2.IsChild e.vocabulary) n := by
  by_cases hn : e.vocabulary.markerFact n ∈ (e.annotator.annotateAll rules g).2.toList
  · exact (placed_of_run_eq_ok hg hrun).acc n (hasPath_of_run_eq_ok hg hrun hn)
  · refine ⟨n, fun c hc => ?_⟩
    -- a node that something stands below was enrolled, and so it is marked
    have horderly := orderly_annotated hg rules
    obtain ⟨-, p, hp, heq⟩ := horderly.parents c _ hc
    obtain rfl : n = p := Term.node.inj heq
    exact absurd (horderly.marked n hp) hn

/-- **A run from scratch with sound rules fails exactly when the parent facts of the annotated
graph contain a loop**, and then it says so. -/
theorem run_fails_iff_loop (hg : g.Unannotated e.vocabulary)
    (hrules : Rule.checkAll rules = .ok ()) :
    (∀ cause, e.run rules g = .error cause →
      ∃ rule chain, cause = .cyclicHierarchy rule chain) ∧
    ((∃ rule chain, e.run rules g = .error (.cyclicHierarchy rule chain)) ↔
      ∃ n, Relation.TransGen
        ((e.annotator.annotateAll rules g).2.IsChild e.vocabulary) n n) := by
  refine ⟨fun cause hrun => ?_, ?_, ?_⟩
  · obtain ⟨rule, chain, hcause, -⟩ := exists_loop_of_run_eq_error hrules hrun
    exact ⟨rule, chain, hcause⟩
  · rintro ⟨rule, chain, hrun⟩
    obtain ⟨-, -, -, hloop⟩ := exists_loop_of_run_eq_error hrules hrun
    exact hloop
  · rintro ⟨n, hloop⟩
    cases hrun : e.run rules g with
    | error cause =>
        obtain ⟨rule, chain, rfl, -⟩ := exists_loop_of_run_eq_error hrules hrun
        exact ⟨rule, chain, rfl⟩
    | ok result => exact absurd hloop (not_transGen_self_of_acc (acc_of_run_eq_ok hg hrun n))

/-- When the sensor feeds the line that has it, the two rules together make a loop. -/
theorem run_fails_when_sensor_feeds_line :
    Plant.loopGraph.Unannotated Plant.engine.vocabulary ∧
    Rule.checkAll Plant.rules = .ok () ∧
    (∃ rule chain, Plant.engine.run Plant.rules Plant.loopGraph =
      .error (.cyclicHierarchy rule chain)) ∧
    ∃ n, Relation.TransGen ((Plant.engine.annotator.annotateAll Plant.rules
      Plant.loopGraph).2.IsChild Plant.engine.vocabulary) n n := by
  have hg : Plant.loopGraph.Unannotated Plant.engine.vocabulary := by decide +kernel
  have hrules : Rule.checkAll Plant.rules = .ok () := by decide +kernel
  have hend : (Plant.engine.run Plant.rules Plant.loopGraph).isOk = false := by decide +kernel
  obtain ⟨hcause, hiff⟩ := run_fails_iff_loop hg hrules
  cases hrun : Plant.engine.run Plant.rules Plant.loopGraph with
  | ok result =>
      rw [hrun] at hend
      cases hend
  | error cause =>
      obtain ⟨rule, chain, rfl⟩ := hcause cause hrun
      exact ⟨hg, hrules, ⟨rule, chain, rfl⟩, hiff.1 ⟨rule, chain, hrun⟩⟩

end Engine

end FactHierarchy
