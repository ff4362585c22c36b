import FactHierarchy.Proofs.Annotation.Trace
import FactHierarchy.Proofs.Hierarchy.Reach
import FactHierarchy.Proofs.Run.Passes

/-!
# What path passes cover

The path passes of a run, together, give a path to what hangs from the subjects of the rules
(`Graph.HangsFrom`) and to nothing else. A node hangs from subjects when a way leads down to it
from a root among them, and no node on this way had a path before the first pass.

This holds whatever has a path before the first pass, so it also says what a run leaves without a
path (`Graph.Covered`). Where nothing has a path before, everything below the roots is covered.
-/

set_option autoImplicit false

namespace FactHierarchy

/-- The subjects that the rules of a list processed. -/
def subjectsOf (done : List (Rule × AnnotationReport)) : List Node :=
  done.flatMap fun x => x.2.processed

theorem subjectsOf_append (done : List (Rule × AnnotationReport)) (x : Rule × AnnotationReport) :
    subjectsOf (done ++ [x]) = subjectsOf done ++ x.2.processed := by
  simp [subjectsOf]

/-- The subjects of rules that stand beside their reports are those of the reports. -/
theorem subjectsOf_zip {rules : List Rule} {reports : List AnnotationReport}
    (h : reports.length ≤ rules.length) :
    subjectsOf (rules.zip reports) = reports.flatMap AnnotationReport.processed := by
  have hmap := congrArg (List.flatMap AnnotationReport.processed) (List.map_snd_zip h)
  rwa [List.flatMap_map] at hmap

namespace Graph

variable {v : Vocabulary} {ga g g' : Graph} {done : List (Rule × AnnotationReport)} {n c : Node}

/-- **The node hangs from the subjects**: from a root among them a way leads down to it through
nodes that have no path. -/
def HangsFrom (v : Vocabulary) (g : Graph) (subjects : List Node) (n : Node) : Prop :=
  (g.hierarchy v).Reached (g.hasPath v) (g.roots v subjects) n

theorem hangsFrom_root {subjects : List Node} (hn : n ∈ g.roots v subjects)
    (hopen : g.hasPath v n = false) : g.HangsFrom v subjects n :=
  Hierarchy.reached_root hn hopen

theorem HangsFrom.below {subjects : List Node} (hn : g.HangsFrom v subjects n)
    (hc : g.IsChild v c n) (hopen : g.hasPath v c = false) : g.HangsFrom v subjects c :=
  Hierarchy.Reached.below hn ⟨mem_nodesBelow.2 hc, hopen⟩

theorem HangsFrom.subset {subjects subjects' : List Node} (hn : g.HangsFrom v subjects n)
    (hsub : ∀ m ∈ subjects, m ∈ subjects') : g.HangsFrom v subjects' n := by
  refine Hierarchy.Reached.mono hn (fun r hr hopen => ⟨?_, hopen⟩) fun _ _ hc => hc
  obtain ⟨hmem, hroot⟩ := mem_roots.1 hr
  exact mem_roots.2 ⟨hsub r hmem, hroot⟩

/-- **What the path passes for the rules in `done` have covered** of the annotated graph `ga`. -/
structure Covered (v : Vocabulary) (ga : Graph) (done : List (Rule × AnnotationReport))
    (g : Graph) : Prop extends Passed v ga done g where
  hasPath_iff : ∀ n, g.hasPath v n = true ↔
    ga.hasPath v n = true ∨ ga.HangsFrom v (subjectsOf done) n
  acc : ∀ n, ga.HangsFrom v (subjectsOf done) n →
    Acc ((ga.hierarchy v).OpenBelow (ga.hasPath v)) n

/-- Before the first pass nothing is covered. -/
theorem covered_nil (v : Vocabulary) (ga : Graph) : Covered v ga [] ga := by
  have hnot : ∀ n, ¬ga.HangsFrom v (subjectsOf []) n := by
    rintro n ⟨r, hr, -⟩
    exact absurd (mem_roots.1 hr).1 List.not_mem_nil
  exact
    { passed_nil v ga with
      hasPath_iff := fun n => ⟨.inl, fun hn => hn.resolve_right (hnot n)⟩
      acc := fun n hn => absurd hn (hnot n) }

section Pass

variable {x : Rule × AnnotationReport} {visits : List Visit} (h : Covered v ga done g)
  (hv : v.Distinct) (hpass : PathPass v x.1.basePath x.2.processed visits g g')
include h

/-- A node that has no path by now had none before the first pass. -/
theorem Covered.open_of_open (hn : g.hasPath v n = false) : ga.hasPath v n = false := by
  rw [← Bool.not_eq_true] at hn ⊢
  exact fun hpath => hn ((h.hasPath_iff n).2 (.inl hpath))

include hv

/-- What a pass reaches hangs from its subjects. -/
theorem Covered.hangsFrom_of_reached
    (hn : (g.hierarchy v).Reached (g.hasPath v) (g.roots v x.2.processed) n) :
    ga.HangsFrom v x.2.processed n := by
  have hp := hv.isAside_objectPath
  refine hn.mono (fun r hr hopen => ⟨?_, h.open_of_open hopen⟩) fun c m hc => ?_
  · rwa [h.same.roots_eq hp] at hr
  · refine ⟨mem_nodesBelow.2 ?_, h.open_of_open hc.2⟩
    exact (h.same.isChild_iff hp).1 (mem_nodesBelow.1 hc.1)

/-- What hangs from the subjects of a pass has a path already or is reached by the pass: below a
node that the passes before have covered, they have covered everything. -/
theorem Covered.reached_of_hangsFrom (hn : ga.HangsFrom v x.2.processed n) :
    g.hasPath v n = true ∨
      (g.hierarchy v).Reached (g.hasPath v) (g.roots v x.2.processed) n := by
  have hp := hv.isAside_objectPath
  unfold HangsFrom at hn
  refine hn.invariant (fun r hr _ => ?_) fun c m hm ih hc => ?_
  · cases hpath : g.hasPath v r with
    | true => exact .inl rfl
    | false =>
        rw [← h.same.roots_eq hp] at hr
        exact .inr (Hierarchy.reached_root hr hpath)
  · have hchild : ga.IsChild v c m := mem_nodesBelow.1 hc.1
    rcases ih with hpath | hreached
    · have hcovered := ((h.hasPath_iff m).1 hpath).resolve_left fun hold => by
        rw [Hierarchy.Reached.isOpen hm] at hold
        cases hold
      exact .inl ((h.hasPath_iff c).2 (.inr (hcovered.below hchild hc.2)))
    · cases hpath : g.hasPath v c with
      | true => exact .inl rfl
      | false =>
          have hbelow := mem_nodesBelow.2 ((h.same.isChild_iff hp).2 hchild)
          exact .inr (hreached.below ⟨hbelow, hpath⟩)

/-- No way down goes on for ever from a node that the next pass reaches. -/
theorem Covered.acc_of_openBelow (hn : Acc ((g.hierarchy v).OpenBelow (g.hasPath v)) n) :
    Acc ((ga.hierarchy v).OpenBelow (ga.hasPath v)) n := by
  refine Hierarchy.acc_of_openBelow (fun c n hc => ?_) (fun c n hc hpath => ?_) hn
  · exact mem_nodesBelow.2 ((h.same.isChild_iff hv.isAside_objectPath).2 (mem_nodesBelow.1 hc.1))
  · refine h.acc c (((h.hasPath_iff c).1 hpath).resolve_left fun hold => ?_)
    rw [hc.2] at hold
    cases hold

include hpass

/-- **Every pass covers what hangs from its subjects.** -/
theorem Covered.pass : Covered v ga (done ++ [x]) g' := by
  have hsplit : ∀ n, ga.HangsFrom v (subjectsOf (done ++ [x])) n ↔
      ga.HangsFrom v (subjectsOf done) n ∨ ga.HangsFrom v x.2.processed n := by
    intro n
    rw [subjectsOf_append]
    constructor
    · rintro ⟨r, hr, hopen, hway⟩
      obtain ⟨hmem, hroot⟩ := mem_roots.1 hr
      rcases List.mem_append.1 hmem with hmem | hmem
      · exact .inl ⟨r, mem_roots.2 ⟨hmem, hroot⟩, hopen, hway⟩
      · exact .inr ⟨r, mem_roots.2 ⟨hmem, hroot⟩, hopen, hway⟩
    · rintro (hn | hn)
      · exact hn.subset fun m hm => List.mem_append_left _ hm
      · exact hn.subset fun m hm => List.mem_append_right _ hm
  have hreached : ∀ n, g'.hasPath v n = true ↔ g.hasPath v n = true ∨
      (g.hierarchy v).Reached (g.hasPath v) (g.roots v x.2.processed) n := by
    intro n
    rw [hpass.hasPath_iff, hpass.explored.entered_iff]
  refine
    { h.toPassed.pass hv hpass with
      hasPath_iff := fun n => ?_
      acc := fun n hn => ?_ }
  · rw [hreached, hsplit]
    constructor
    · rintro (hn | hn)
      · exact ((h.hasPath_iff n).1 hn).imp_right .inl
      · exact .inr (.inr (h.hangsFrom_of_reached hv hn))
    · rintro (hn | hn | hn)
      · exact .inl ((h.hasPath_iff n).2 (.inl hn))
      · exact .inl ((h.hasPath_iff n).2 (.inr hn))
      · exact h.reached_of_hangsFrom hv hn
  · rcases (hsplit n).1 hn with hold | hnew
    · exact h.acc n hold
    · rcases h.reached_of_hangsFrom hv hnew with hpath | hreached
      · refine h.acc n (((h.hasPath_iff n).1 hpath).resolve_left fun hold => ?_)
        rw [Hierarchy.Reached.isOpen hn] at hold
        cases hold
      · exact h.acc_of_openBelow hv (hpass.explored.acc_of_reached hreached)

end Pass

end Graph

namespace Engine

variable {e : Engine} {rules : List Rule} {g g' : Graph} {report : RunReport}

/-- **What a run that succeeds covers**, from the annotated graph on. -/
theorem covered_of_run_eq_ok (hrun : e.run rules g = .ok (report, g')) :
    Graph.Covered e.vocabulary (e.annotator.annotateAll rules g).2
      (rules.zip report.annotations) g' := by
  obtain ⟨-, hreport, hpaths⟩ := exists_of_run_eq_ok hrun
  rw [hreport]
  refine writeAllPaths_invariant ?_ (Graph.covered_nil _ _) hpaths
  intro done x visits g₁ g₂ hcovered hpass
  exact hcovered.pass e.distinct_vocabulary hpass

theorem subjectsOf_run (hrun : e.run rules g = .ok (report, g')) :
    subjectsOf (rules.zip report.annotations) =
      (e.annotator.annotateAll rules g).1.flatMap AnnotationReport.processed := by
  obtain ⟨-, hreport, -⟩ := exists_of_run_eq_ok hrun
  rw [hreport]
  refine subjectsOf_zip ?_
  rw [Annotator.length_annotateAll]

end Engine

end FactHierarchy
