import FactHierarchy.Proofs.Annotation.Performed

/-!
# The order that annotation brings

Annotation passes over an unannotated graph bring forth a graph in good order (`Graph.Orderly`):
every hierarchy object has one name, every parent is a subject that some rule enrolled, and every
object is enrolled itself or has a parent. `Annotator.orderly_annotateAll` says so for every list
of rules, whatever their selectors, relations and name sources read.
-/

set_option autoImplicit false

namespace FactHierarchy

namespace Graph

/-- **The graph is annotated in good order**, and these are the subjects that were enrolled. -/
structure Orderly (v : Vocabulary) (enrolled : List Node) (g : Graph) : Prop where
  named : ∀ n, v.markerFact n ∈ g.toList →
    ∃ name, g.objects n v.objectName = [.literal (.string name)]
  unnamed : ∀ n, v.markerFact n ∉ g.toList → g.objects n v.objectName = []
  marked : ∀ n ∈ enrolled, v.markerFact n ∈ g.toList
  parents : ∀ c t, ⟨c, v.parentRef, t⟩ ∈ g.toList →
    v.markerFact c ∈ g.toList ∧ ∃ p ∈ enrolled, t = .node p
  rooted : ∀ n, v.markerFact n ∈ g.toList → n ∈ enrolled ∨ ∃ p, g.IsChild v n p
  pathless : ∀ n t, ⟨n, v.objectPath, t⟩ ∉ g.toList

variable {v : Vocabulary} {g : Graph}

/-- An unannotated graph is in good order: there is nothing to be ordered. -/
theorem Unannotated.orderly (h : g.Unannotated v) : g.Orderly v [] := by
  have hmarker : ∀ n, v.markerFact n ∉ g.toList := by
    intro n hf
    have hraw := h _ hf
    rw [Vocabulary.isRaw_markerFact] at hraw
    cases hraw
  exact
    { named := fun n hn => absurd hn (hmarker n)
      unnamed := fun n _ => List.eq_nil_iff_forall_not_mem.2 fun t ht =>
        h.not_mem (by simp [Vocabulary.predicates]) t (mem_objects.1 ht)
      marked := fun n hn => absurd hn List.not_mem_nil
      parents := fun c t hf => absurd hf (h.not_mem (by simp [Vocabulary.predicates]) t)
      rooted := fun n hn => absurd hn (hmarker n)
      pathless := fun n t => h.not_mem (by simp [Vocabulary.predicates]) t }

end Graph

namespace Act

variable {a : Annotator} {g : Graph} {enrolled : List Node}

theorem mem_marked_of_enrolled {act : Act} {n : Node} (h : n ∈ act.enrolled.toList) :
    n ∈ act.marked := by
  cases act <;> simp_all [enrolled, marked]

theorem rename_of_notMem_marked {act : Act} {n : Node} (h : n ∉ act.marked) (names : List Term) :
    act.rename n names = names := by
  cases act <;> simp_all [rename, marked, eq_comm]

/-- A node that has one name, or has none and is being marked, has one name afterwards. -/
theorem rename_eq_singleton {act : Act} {n : Node} {names : List Term}
    (h : (names = [] ∧ n ∈ act.marked) ∨ ∃ name, names = [.literal (.string name)]) :
    ∃ name, act.rename n names = [.literal (.string name)] := by
  cases act with
  | enrol root given =>
      obtain ⟨rfl, hn⟩ | ⟨name, rfl⟩ := h
      · exact ⟨given, if_pos ⟨(List.mem_singleton.1 hn).symm, rfl⟩⟩
      · exact ⟨name, if_neg (by simp)⟩
  | adopt parent child given =>
      by_cases hn : child = n
      · exact ⟨given, if_pos hn⟩
      · obtain ⟨-, hmarked⟩ | ⟨name, rfl⟩ := h
        · exact absurd (List.mem_singleton.1 hmarked).symm hn
        · exact ⟨name, if_neg hn⟩
  | leaveOut _ | describe _ _ _ | link _ _ =>
      obtain ⟨-, hn⟩ | hname := h
      · cases hn
      · exact hname

/-- **Every act keeps the good order.** -/
theorem orderly_write (hv : a.vocabulary.Distinct) (act : Act)
    (hfits : ∀ p c name, act = .adopt p c name → p ∈ enrolled)
    (h : g.Orderly a.vocabulary enrolled) :
    (act.write a g).Orderly a.vocabulary (enrolled ++ act.enrolled.toList) := by
  have hmem : ∀ {f : Fact}, f.predicate ≠ a.vocabulary.objectName →
      (f ∈ (act.write a g).toList ↔ f ∈ g.toList ∨ f ∈ act.facts a.vocabulary) :=
    fun hf => act.mem_write g hf
  have hmarker : ∀ n, a.vocabulary.markerFact n ∈ (act.write a g).toList ↔
      a.vocabulary.markerFact n ∈ g.toList ∨ n ∈ act.marked := by
    intro n
    rw [hmem (hv.ne_objectName (by simp [Vocabulary.markerFact])), (factsByPredicate hv _).marker]
  have hparent : ∀ c t, ⟨c, a.vocabulary.parentRef, t⟩ ∈ (act.write a g).toList ↔
      ⟨c, a.vocabulary.parentRef, t⟩ ∈ g.toList ∨
        ∃ p name, act = .adopt p c name ∧ t = .node p := by
    intro c t
    rw [hmem (hv.ne_objectName (by simp)), (factsByPredicate hv _).parent]
  have hname : ∀ n, (act.write a g).objects n a.vocabulary.objectName =
      act.rename n (g.objects n a.vocabulary.objectName) := objectName_write hv act g
  refine
    { named := fun n hn => ?_
      unnamed := fun n hn => ?_
      marked := fun n hn => ?_
      parents := fun c t hf => ?_
      rooted := fun n hn => ?_
      pathless := fun n t hf => ?_ }
  · -- a node that is marked had a name before, or it is marked by this act and named with it
    rw [hname]
    refine rename_eq_singleton ?_
    by_cases hold : a.vocabulary.markerFact n ∈ g.toList
    · exact .inr (h.named n hold)
    · exact .inl ⟨h.unnamed n hold, ((hmarker n).1 hn).resolve_left hold⟩
  · rw [hmarker, not_or] at hn
    rw [hname, rename_of_notMem_marked hn.2]
    exact h.unnamed n hn.1
  · rw [hmarker]
    rcases List.mem_append.1 hn with hn | hn
    · exact .inl (h.marked n hn)
    · exact .inr (mem_marked_of_enrolled hn)
  · -- a new parent fact comes from an adoption, whose parent is enrolled
    rw [hmarker]
    rcases (hparent c t).1 hf with hf | ⟨p, name, rfl, rfl⟩
    · obtain ⟨hc, p, hp, rfl⟩ := h.parents c t hf
      exact ⟨.inl hc, p, List.mem_append_left _ hp, rfl⟩
    · exact ⟨.inr (List.mem_singleton_self c), p, List.mem_append_left _ (hfits p c name rfl), rfl⟩
  · -- a node that is newly marked was enrolled or has just got a parent
    rcases (hmarker n).1 hn with hn | hn
    · rcases h.rooted n hn with hn | ⟨p, hp⟩
      · exact .inl (List.mem_append_left _ hn)
      · exact .inr ⟨p, (hparent n p).2 (.inl hp)⟩
    · cases act with
      | enrol root name => exact .inl (List.mem_append_right _ hn)
      | adopt parent child name =>
          obtain rfl : n = child := List.mem_singleton.1 hn
          exact .inr ⟨parent, (hparent n parent).2 (.inr ⟨parent, name, rfl, rfl⟩)⟩
      | leaveOut _ | describe _ _ _ | link _ _ => cases hn
  · rcases (hmem (hv.ne_objectName (by simp))).1 hf with hf | hf
    · exact h.pathless n t hf
    · exact (predicate_of_mem_facts hv hf).2 rfl

end Act

namespace Annotator

variable {a : Annotator}

theorem orderly_annotate (hv : a.vocabulary.Distinct) {enrolled : List Node} {g : Graph}
    (h : g.Orderly a.vocabulary enrolled) (rule : Rule) :
    (a.annotate rule g).2.Orderly a.vocabulary
      (enrolled ++ (a.annotate rule g).1.processed) := by
  refine (annotate_leadsTo a rule g).invariant
    (P := fun s => s.graph.Orderly a.vocabulary (enrolled ++ s.processed)) ?_ ?_
  · intro s act hfits hs
    simp only [AnnotationPass.perform]
    rw [← List.append_assoc]
    refine Act.orderly_write hv act (fun p c name hact => ?_) hs
    subst hact
    exact List.mem_append_right _ hfits
  · simpa using h

/-- **Annotation brings good order to an unannotated graph**, whatever the rules are. -/
theorem orderly_annotateAll (hv : a.vocabulary.Distinct) {enrolled : List Node} {g : Graph}
    (h : g.Orderly a.vocabulary enrolled) (rules : List Rule) :
    (a.annotateAll rules g).2.Orderly a.vocabulary
      (enrolled ++ (a.annotateAll rules g).1.flatMap AnnotationReport.processed) := by
  induction rules generalizing enrolled g with
  | nil => simpa [annotateAll] using h
  | cons rule rules ih =>
      have hrest := ih (orderly_annotate hv h rule)
      rw [List.append_assoc] at hrest
      exact hrest

end Annotator

end FactHierarchy
