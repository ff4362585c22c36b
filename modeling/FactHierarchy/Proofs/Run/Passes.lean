import FactHierarchy.Proofs.Path.Settled

/-!
# The passes of a run

A run checks its rules, annotates, and writes paths in one pass for each rule (`Engine.run_eq`).
What every path pass keeps is kept by all of them together (`Engine.writeAllPaths_invariant`), up
to the pass that fails if one does (`Engine.exists_pass_of_writeAllPaths_eq_error`).

After the passes of some rules, nothing but paths has changed and nothing is left to be done for
the subjects of these rules (`Graph.Passed`). Passes for settled subjects alone succeed and leave
the graph as it is (`Engine.exists_of_settled`).
-/

set_option autoImplicit false

namespace FactHierarchy

/-! ## What passes leave behind -/

/-- **What the path passes for the rules in `done` make of a graph.** -/
structure Graph.Passed (v : Vocabulary) (g : Graph) (done : List (Rule × AnnotationReport))
    (g' : Graph) : Prop where
  same : SameOff v.objectPath g g'
  raw : g'.rawFacts v = g.rawFacts v
  settled : ∀ x ∈ done, g'.Settled v x.2.processed

theorem Graph.passed_nil (v : Vocabulary) (g : Graph) : Passed v g [] g :=
  ⟨.refl v.objectPath g, rfl, fun _ hx => absurd hx List.not_mem_nil⟩

theorem Graph.Passed.pass {v : Vocabulary} {g g' g'' : Graph} {x : Rule × AnnotationReport}
    {done : List (Rule × AnnotationReport)} {visits : List Visit} (h : Passed v g done g')
    (hv : v.Distinct) (hpass : PathPass v x.1.basePath x.2.processed visits g' g'') :
    Passed v g (done ++ [x]) g'' := by
  refine ⟨h.same.trans hpass.sameOff, hpass.rawFacts_eq.trans h.raw, fun y hy => ?_⟩
  rcases List.mem_append.1 hy with hy | hy
  · exact (h.settled y hy).pass hv hpass
  · obtain rfl := List.mem_singleton.1 hy
    exact hpass.settled hv

/-! ## All passes together -/

namespace Annotator

theorem length_annotateAll (a : Annotator) (rules : List Rule) (g : Graph) :
    (a.annotateAll rules g).1.length = rules.length := by
  induction rules generalizing g with
  | nil => rfl
  | cons rule rules ih => rw [annotateAll, List.length_cons, List.length_cons, ih]

end Annotator

namespace Engine

variable {e : Engine} {rules : List Rule} {g g' : Graph}

theorem distinct_vocabulary (e : Engine) : e.vocabulary.Distinct :=
  Vocabulary.distinct_ofBase e.vocabularyBase

/-- A run, with its three stages one after the other. -/
theorem run_eq (e : Engine) (rules : List Rule) (g : Graph) :
    e.run rules g =
      match Rule.checkAll rules with
      | .error cause => .error cause
      | .ok () =>
        match e.writeAllPaths (rules.zip (e.annotator.annotateAll rules g).1)
          (e.annotator.annotateAll rules g).2 with
        | .error cause => .error cause
        | .ok (paths, g') => .ok (⟨(e.annotator.annotateAll rules g).1, paths⟩, g') := by
  rw [run]
  cases Rule.checkAll rules with
  | error cause => rfl
  | ok _ =>
      cases hpaths : e.writeAllPaths (rules.zip (e.annotator.annotateAll rules g).1)
          (e.annotator.annotateAll rules g).2 with
      | error cause => simp [hpaths, bind, Except.bind]
      | ok result => simp [hpaths, bind, Except.bind, pure, Except.pure]

theorem exists_of_run_eq_ok {report : RunReport} (h : e.run rules g = .ok (report, g')) :
    Rule.checkAll rules = .ok () ∧ report.annotations = (e.annotator.annotateAll rules g).1 ∧
      e.writeAllPaths (rules.zip (e.annotator.annotateAll rules g).1)
        (e.annotator.annotateAll rules g).2 = .ok (report.paths, g') := by
  rw [run_eq] at h
  split at h
  · cases h
  · next hcheck =>
    split at h
    · cases h
    · next paths g₁ hpaths =>
      obtain ⟨rfl, rfl⟩ := Prod.mk.inj (Except.ok.inj h)
      exact ⟨hcheck, rfl, hpaths⟩

theorem writeAllPaths_eq_error_of_run {cause : RunError} (hcheck : Rule.checkAll rules = .ok ())
    (h : e.run rules g = .error cause) :
    e.writeAllPaths (rules.zip (e.annotator.annotateAll rules g).1)
      (e.annotator.annotateAll rules g).2 = .error cause := by
  rw [run_eq, hcheck] at h
  dsimp only at h
  split at h
  · next hpaths =>
    obtain rfl := Except.error.inj h
    exact hpaths
  · cases h

/-- The path passes of several rules, with the first one apart. -/
theorem writeAllPaths_cons (x : Rule × AnnotationReport) (todo : List (Rule × AnnotationReport)) :
    e.writeAllPaths (x :: todo) g =
      match g.writePaths e.vocabulary x.1.id x.1.basePath x.2.processed with
      | .error cause => .error cause
      | .ok (report, g') =>
        match e.writeAllPaths todo g' with
        | .error cause => .error cause
        | .ok (reports, g'') => .ok (report :: reports, g'') := by
  rw [writeAllPaths]
  cases g.writePaths e.vocabulary x.1.id x.1.basePath x.2.processed with
  | error cause => rfl
  | ok result =>
      cases h : e.writeAllPaths todo result.2 with
      | error cause => simp [h, bind, Except.bind]
      | ok rest => simp [h, bind, Except.bind, pure, Except.pure]

section Invariant

variable {P : List (Rule × AnnotationReport) → Graph → Prop}
  (hpass : ∀ done (x : Rule × AnnotationReport) visits g g', P done g →
    Graph.PathPass e.vocabulary x.1.basePath x.2.processed visits g g' → P (done ++ [x]) g')
include hpass

/-- **What each pass keeps, all passes keep.** -/
theorem writeAllPaths_invariant {done todo : List (Rule × AnnotationReport)}
    {reports : List PathReport} (hstart : P done g)
    (h : e.writeAllPaths todo g = .ok (reports, g')) : P (done ++ todo) g' := by
  induction todo generalizing done g reports with
  | nil =>
      obtain ⟨-, rfl⟩ := Prod.mk.inj (Except.ok.inj h)
      rwa [List.append_nil]
  | cons x todo ih =>
      rw [writeAllPaths_cons] at h
      split at h
      · cases h
      · next report g₁ hfirst =>
        split at h
        · cases h
        · next rest g₂ hrest =>
          obtain ⟨-, rfl⟩ := Prod.mk.inj (Except.ok.inj h)
          obtain ⟨visits, hvisits, -⟩ := Graph.pathPass_of_writePaths hfirst
          have hend := ih (hpass done x visits g g₁ hstart hvisits) hrest
          rwa [List.append_assoc, List.singleton_append] at hend

/-- The passes before the one that fails keep what each pass keeps. -/
theorem exists_pass_of_writeAllPaths_eq_error (done : List (Rule × AnnotationReport))
    {todo : List (Rule × AnnotationReport)} {cause : RunError} (hstart : P done g)
    (h : e.writeAllPaths todo g = .error cause) :
    ∃ (done : List (Rule × AnnotationReport)) (x : Rule × AnnotationReport) (g₁ : Graph),
      P done g₁ ∧
      g₁.writePaths e.vocabulary x.1.id x.1.basePath x.2.processed = .error cause := by
  induction todo generalizing done g with
  | nil => cases h
  | cons x todo ih =>
      rw [writeAllPaths_cons] at h
      split at h
      · next cause hfirst =>
        obtain rfl := Except.error.inj h
        exact ⟨done, x, g, hstart, hfirst⟩
      · next report g₁ hfirst =>
        obtain ⟨visits, hvisits, -⟩ := Graph.pathPass_of_writePaths hfirst
        split at h
        · next cause hrest =>
          obtain rfl := Except.error.inj h
          exact ih (done ++ [x]) (hpass done x visits g g₁ hstart hvisits) hrest
        · cases h

end Invariant

/-- What the passes of a run leave behind when all of them succeed. -/
theorem passed_of_writeAllPaths {todo : List (Rule × AnnotationReport)}
    {reports : List PathReport} (h : e.writeAllPaths todo g = .ok (reports, g')) :
    Graph.Passed e.vocabulary g todo g' := by
  have hstart := Graph.passed_nil e.vocabulary g
  refine writeAllPaths_invariant ?_ hstart h
  intro done x visits g₁ g₂ hpassed hpass
  exact hpassed.pass e.distinct_vocabulary hpass

/-- **Where all subjects are settled, all passes succeed** and write nothing. -/
theorem exists_of_settled {todo : List (Rule × AnnotationReport)}
    (h : ∀ x ∈ todo, g.Settled e.vocabulary x.2.processed) :
    ∃ reports, e.writeAllPaths todo g = .ok (reports, g) ∧
      ∀ report ∈ reports, PathReport.written report = 0 := by
  induction todo with
  | nil => exact ⟨[], rfl, fun report hreport => absurd hreport List.not_mem_nil⟩
  | cons x todo ih =>
      obtain ⟨hx, htodo⟩ := List.forall_mem_cons.1 h
      obtain ⟨kept, hpass⟩ := hx.writePaths_eq x.1.id x.1.basePath
      obtain ⟨reports, hrest, hzero⟩ := ih htodo
      refine ⟨⟨x.1.id, g.roots e.vocabulary x.2.processed, 0, kept⟩ :: reports, ?_, ?_⟩
      · rw [writeAllPaths_cons, hpass]
        dsimp only
        rw [hrest]
      · exact List.forall_mem_cons.2 ⟨rfl, hzero⟩

end Engine

end FactHierarchy
