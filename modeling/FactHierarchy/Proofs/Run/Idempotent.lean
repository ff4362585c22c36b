import FactHierarchy.Proofs.Annotation.Replay
import FactHierarchy.Proofs.Run.FromScratch

/-!
# A second run

Running the same rules on the result of a run changes nothing (`Engine.run_again`), provided that
the rules read raw facts. The graph that the first run starts from may be annotated already.

Both runs follow the same plans, as raw facts stay. The acts of annotation change nothing when
they are performed again. After that the candidates of each rule are still settled, so no path
pass writes anything, and none fails.
-/

set_option autoImplicit false

namespace FactHierarchy

/-- Where no pass writes a path, no path is written. -/
theorem RunReport.pathCount_eq_zero {r : RunReport}
    (h : ∀ report ∈ r.paths, PathReport.written report = 0) : r.pathCount = 0 := by
  obtain ⟨annotations, paths⟩ := r
  induction paths with
  | nil => rfl
  | cons report paths ih =>
      obtain ⟨hreport, hpaths⟩ := List.forall_mem_cons.1 h
      show report.written + RunReport.pathCount ⟨annotations, paths⟩ = 0
      rw [hreport, ih hpaths]

namespace Engine

variable {e : Engine} {rules : List Rule} {g g' : Graph} {report : RunReport}

/-- **A run is idempotent.** If a run of rules that read raw facts succeeds, then so does a second
one on its result. It brings forth the same facts, makes the same hierarchy objects, leaves out
the same resources and writes no path. -/
theorem run_again (hrules : ∀ rule ∈ rules, rule.ReadsRaw e.vocabulary)
    (hrun : e.run rules g = .ok (report, g')) :
    ∃ report' g'', e.run rules g' = .ok (report', g'') ∧
      (∀ f, f ∈ g''.toList ↔ f ∈ g'.toList) ∧
      report'.annotations = report.annotations ∧ report'.pathCount = 0 := by
  have hv := e.distinct_vocabulary
  obtain ⟨hcheck, hreport, hpaths⟩ := exists_of_run_eq_ok hrun
  set acts := rules.flatMap fun rule => e.annotator.acts rule g
  have hfirst : e.annotator.annotateAll rules g =
      (rules.map (e.annotator.plannedReport g), Act.writeAll e.annotator acts g) :=
    Annotator.annotateAll_eq hrules rfl
  rw [hfirst] at hreport hpaths
  have hpassed := passed_of_writeAllPaths hpaths
  -- the second run follows the plans of the first one
  have hraw : g'.rawFacts e.vocabulary = g.rawFacts e.vocabulary :=
    hpassed.raw.trans (Act.rawFacts_writeAll (a := e.annotator) acts g)
  have hsecond : e.annotator.annotateAll rules g' =
      (rules.map (e.annotator.plannedReport g), Act.writeAll e.annotator acts g') :=
    Annotator.annotateAll_eq hrules hraw
  -- and its acts change nothing, so that all candidates stay settled
  have hsame : ∀ n q, (Act.writeAll e.annotator acts g').objects n q = g'.objects n q :=
    Act.objects_writeAll_again hv hpassed.same
  have hsettled : ∀ x ∈ rules.zip (rules.map (e.annotator.plannedReport g)),
      (Act.writeAll e.annotator acts g').Settled e.vocabulary x.2.processed := by
    intro x hx
    refine (hpassed.settled x hx).sameOff (fun q _ n => hsame n q) hv.isAside_objectName ?_
    exact hv.ne_objectName (by simp)
  obtain ⟨reports, hagain, hzero⟩ := exists_of_settled hsettled
  refine ⟨⟨rules.map (e.annotator.plannedReport g), reports⟩, Act.writeAll e.annotator acts g',
    ?_, fun f => ?_, hreport.symm, ?_⟩
  · rw [run_eq, hcheck, hsecond]
    dsimp only
    rw [hagain]
  · obtain ⟨s, p, t⟩ := f
    rw [← Graph.mem_objects, ← Graph.mem_objects, hsame]
  · exact RunReport.pathCount_eq_zero hzero

/-- The run on the plant can be repeated. -/
theorem run_again_plant : ∃ report g' report' g'',
    (∀ rule ∈ Plant.rules, rule.ReadsRaw Plant.engine.vocabulary) ∧
    Plant.engine.run Plant.rules Plant.graph = .ok (report, g') ∧
    Plant.engine.run Plant.rules g' = .ok (report', g'') ∧
    (∀ f, f ∈ g''.toList ↔ f ∈ g'.toList) ∧
    report'.annotations = report.annotations ∧ report'.pathCount = 0 := by
  have hrules : ∀ rule ∈ Plant.rules, rule.ReadsRaw Plant.engine.vocabulary := by
    decide +kernel
  have hend : (Plant.engine.run Plant.rules Plant.graph).isOk = true := by decide +kernel
  cases hrun : Plant.engine.run Plant.rules Plant.graph with
  | error cause =>
      rw [hrun] at hend
      cases hend
  | ok result =>
      obtain ⟨report, g'⟩ := result
      obtain ⟨report', g'', hagain⟩ := run_again hrules hrun
      exact ⟨report, g', report', g'', hrules, rfl, hagain⟩

end Engine

end FactHierarchy
