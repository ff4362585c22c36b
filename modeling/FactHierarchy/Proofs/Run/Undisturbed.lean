import FactHierarchy.Proofs.History.Permanence
import FactHierarchy.Proofs.Run.Irrelevance

/-!
# What a run leaves undisturbed

Whatever predicates its rules name, a run removes nothing but names, and it does so only when a
child gets its name (`Engine.run_removes_names_of_children_only`). Raw facts stay as they are, in
their order, and all other annotations are still there.

A name is missed after a run only if its subject is adopted by one of the acts that annotation
performs (`Annotator.performed`), for any other act leaves the names that there are.
-/

set_option autoImplicit false

namespace FactHierarchy

/-! ## A plant in which names are children -/

namespace Plant

/-- A line in which the sensor stands as a name, and the sensor has a name of its own. The line has
been given a path before. -/
def namedGraph : Graph :=
  let v : Vocabulary := default
  .ofList
    [⟨line1, .iri rdfTypeIri, lineKind⟩, ⟨line1, v.objectName, sensor⟩, v.nameFact sensor "Old",
      v.pathFact line1 "/old/line1", ⟨line1, has, sensor⟩]

/-- The names of lines are their children. -/
def namedRules : List Rule :=
  [{ id := "lines", selector := ⟨.iri rdfTypeIri, lineKind⟩,
     children := [⟨(default : Vocabulary).objectName, .localName⟩] }]

end Plant

namespace Engine

variable {e : Engine} {rules : List Rule} {g g' : Graph} {report : RunReport}

/-! ## What is kept -/

/-- **A run removes no fact but names.** -/
theorem mem_of_run_eq_ok (hrun : e.run rules g = .ok (report, g')) {f : Fact} (hf : f ∈ g.toList)
    (hname : f.predicate ≠ e.vocabulary.objectName) : f ∈ g'.toList := by
  obtain ⟨-, -, hpaths⟩ := exists_of_run_eq_ok hrun
  obtain ⟨added, hadded, -⟩ := exists_toList_eq_of_writeAllPaths hpaths
  rw [hadded]
  exact List.mem_append_left added ((e.continues_annotated rules g).kept f hf hname)

/-- **The names after a run** are those that the acts of annotation leave. -/
theorem objectName_of_run_eq_ok (hrun : e.run rules g = .ok (report, g')) (n : Node) :
    g'.objects n e.vocabulary.objectName =
      Act.renameAll (e.annotator.performed rules g) n (g.objects n e.vocabulary.objectName) := by
  have hv := e.distinct_vocabulary
  obtain ⟨-, -, hpaths⟩ := exists_of_run_eq_ok hrun
  obtain ⟨hgraph, -⟩ := e.annotator.annotateAll_eq_performed rules g
  calc g'.objects n e.vocabulary.objectName
      = (e.annotator.annotateAll rules g).2.objects n e.vocabulary.objectName :=
        (passed_of_writeAllPaths hpaths).same _ (hv.ne_objectPath (by simp)) n
    _ = _ := by
        rw [hgraph]
        exact Act.objectName_writeAll (a := e.annotator) hv _ g n

/-- **A run leaves raw facts as they are, and of all annotations it removes only the old names of
children.** Raw facts are the same in the same order. An annotation that is no name is still there.
If a name is missing afterwards, its subject was enumerated as a named child, and it has exactly
one name by now. -/
theorem run_removes_names_of_children_only (hrun : e.run rules g = .ok (report, g')) :
    g'.rawFacts e.vocabulary = g.rawFacts e.vocabulary ∧
    (∀ f ∈ g.toList, e.vocabulary.isRaw f = false → f.predicate ≠ e.vocabulary.objectName →
      f ∈ g'.toList) ∧
    ∀ f ∈ g.toList, f.predicate = e.vocabulary.objectName → f ∉ g'.toList →
      e.annotator.EnumeratesNamed rules g f.subject ∧
        ∃ name, g'.objects f.subject e.vocabulary.objectName = [.literal (.string name)] := by
  refine ⟨rawFacts_of_run_eq_ok hrun, fun f hf _ hname => mem_of_run_eq_ok hrun hf hname, ?_⟩
  rintro ⟨n, p, t⟩ hf rfl hgone
  have hold : t ∈ g.objects n e.vocabulary.objectName := Graph.mem_objects.2 hf
  have hnew : t ∉ g'.objects n e.vocabulary.objectName := fun h => hgone (Graph.mem_objects.1 h)
  rw [objectName_of_run_eq_ok hrun] at hnew ⊢
  -- had no act adopted the node, its names would have been left as they were
  have hadopted : ∃ parent name, .adopt parent n name ∈ e.annotator.performed rules g := by
    by_contra hnone
    rw [Act.renameAll_of_not_adopted (List.ne_nil_of_mem hold)
      fun parent name hact => hnone ⟨parent, name, hact⟩] at hnew
    exact hnew hold
  obtain ⟨parent, name, hact⟩ := hadopted
  exact ⟨(Annotator.of_adopt_mem_performed hact).2, Act.exists_renameAll_of_adopted hact⟩

/-- The sensor stands as a name of the line, so it is adopted and gives up its old name. The line
keeps its path, and the sensor remains its name. -/
theorem run_removes_old_name_of_sensor : ∃ report g',
    Plant.engine.run Plant.namedRules Plant.namedGraph = .ok (report, g') ∧
    g'.rawFacts Plant.engine.vocabulary = [⟨Plant.line1, .iri rdfTypeIri, Plant.lineKind⟩,
      ⟨Plant.line1, Plant.has, Plant.sensor⟩] ∧
    Plant.engine.vocabulary.pathFact Plant.line1 "/old/line1" ∈ g'.toList ∧
    ⟨Plant.line1, Plant.engine.vocabulary.objectName, Plant.sensor⟩ ∈ g'.toList ∧
    Plant.engine.vocabulary.nameFact Plant.sensor "Old" ∈ Plant.namedGraph.toList ∧
    Plant.engine.vocabulary.nameFact Plant.sensor "Old" ∉ g'.toList ∧
    Plant.engine.annotator.EnumeratesNamed Plant.namedRules Plant.namedGraph Plant.sensor ∧
    ∃ name, g'.objects Plant.sensor Plant.engine.vocabulary.objectName =
      [.literal (.string name)] := by
  have hpath : Plant.engine.vocabulary.pathFact Plant.line1 "/old/line1" ∈
      Plant.namedGraph.toList := by decide +kernel
  have hold : Plant.engine.vocabulary.nameFact Plant.sensor "Old" ∈ Plant.namedGraph.toList := by
    decide +kernel
  have hend : ((Plant.engine.run Plant.namedRules Plant.namedGraph).toOption.any fun result =>
      ⟨Plant.line1, Plant.engine.vocabulary.objectName, Plant.sensor⟩ ∈ result.2.toList ∧
        Plant.engine.vocabulary.nameFact Plant.sensor "Old" ∉ result.2.toList) = true := by
    decide +kernel
  obtain ⟨⟨report, g'⟩, hrun, hend⟩ := exists_eq_ok_of_any hend
  obtain ⟨hstays, hgone⟩ := of_decide_eq_true hend
  obtain ⟨hraw, hkept, hnames⟩ := run_removes_names_of_children_only hrun
  obtain ⟨hchild, hone⟩ := hnames _ hold rfl hgone
  have hpathKept := hkept _ hpath (by decide +kernel) (by decide +kernel)
  rw [show Plant.namedGraph.rawFacts Plant.engine.vocabulary =
    [⟨Plant.line1, .iri rdfTypeIri, Plant.lineKind⟩, ⟨Plant.line1, Plant.has, Plant.sensor⟩] by
    decide +kernel] at hraw
  exact ⟨report, g', hrun, hraw, hpathKept, hstays, hold, hgone, hchild, hone⟩

end Engine

end FactHierarchy
