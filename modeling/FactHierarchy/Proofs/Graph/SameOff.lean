import FactHierarchy.Proofs.Hierarchy.Loops
import FactHierarchy.Proofs.RawFacts

/-!
# Graphs that differ under one predicate

Some writes touch the facts under one predicate alone. `Graph.SameOff` says of two graphs that
they agree on all other predicates, in the order of facts too. When that predicate plays no part
in the hierarchy (`Vocabulary.IsAside`), the two graphs have the same objects, the same parents
and the same roots.
-/

set_option autoImplicit false

namespace FactHierarchy

/-- No marker and no parent fact has this predicate. -/
structure Vocabulary.IsAside (v : Vocabulary) (p : Node) : Prop where
  rdfType_ne : v.rdfType ≠ p
  parentRef_ne : v.parentRef ≠ p

theorem Vocabulary.Distinct.isAside_objectPath {v : Vocabulary} (hv : v.Distinct) :
    v.IsAside v.objectPath :=
  ⟨hv.ne_objectPath (by simp), hv.ne_objectPath (by simp)⟩

theorem Vocabulary.Distinct.isAside_objectName {v : Vocabulary} (hv : v.Distinct) :
    v.IsAside v.objectName :=
  ⟨hv.ne_objectName (by simp), hv.ne_objectName (by simp)⟩

namespace Graph

/-- The graphs have the same facts, in the same order for each subject and predicate, apart from
the facts under one predicate. -/
def SameOff (p : Node) (g g' : Graph) : Prop := ∀ q, q ≠ p → ∀ n, g'.objects n q = g.objects n q

namespace SameOff

variable {g g' g'' : Graph} {v : Vocabulary} {p c n : Node}

theorem refl (p : Node) (g : Graph) : SameOff p g g := fun _ _ _ => rfl

theorem trans (h : SameOff p g g') (h' : SameOff p g' g'') : SameOff p g g'' :=
  fun q hq n => (h' q hq n).trans (h q hq n)

variable (h : SameOff p g g')
include h

theorem mem_iff {f : Fact} (hf : f.predicate ≠ p) : f ∈ g'.toList ↔ f ∈ g.toList := by
  obtain ⟨s, q, t⟩ := f
  rw [← mem_objects, ← mem_objects, h q hf]

theorem nameOf_eq (hp : v.objectName ≠ p) : g'.nameOf v n = g.nameOf v n :=
  valueText_congr (h _ hp n)

theorem hasPath_eq (hp : v.objectPath ≠ p) : g'.hasPath v n = g.hasPath v n := by
  rw [Bool.eq_iff_iff, hasPath_iff, hasPath_iff, h _ hp]

variable (hp : v.IsAside p)
include hp

theorem mem_marker_iff : v.markerFact n ∈ g'.toList ↔ v.markerFact n ∈ g.toList :=
  h.mem_iff hp.rdfType_ne

theorem isChild_eq : g'.IsChild v = g.IsChild v :=
  funext fun _ => funext fun _ => propext (h.mem_iff hp.parentRef_ne)

theorem isChild_iff {m : Node} : g'.IsChild v c m ↔ g.IsChild v c m := by
  rw [h.isChild_eq hp]

theorem hasParent_eq : g'.hasParent v n = g.hasParent v n := by
  rw [Bool.eq_iff_iff, hasParent, hasParent, any_about_iff, any_about_iff,
    h _ hp.parentRef_ne]

theorem roots_eq (candidates : List Node) : g'.roots v candidates = g.roots v candidates := by
  refine List.filter_congr fun n _ => ?_
  have hobject : g'.isObject v n = g.isObject v n := by
    rw [Bool.eq_iff_iff, isObject_iff, isObject_iff, h.mem_marker_iff hp]
  rw [hobject, h.hasParent_eq hp]

theorem firstParent_eq : (g'.hierarchy v).FirstParent = (g.hierarchy v).FirstParent := by
  funext m n
  have hparent : (g'.hierarchy v).parent? n = (g.hierarchy v).parent? n :=
    objectNode?_congr (h _ hp.parentRef_ne n)
  rw [Hierarchy.FirstParent, Hierarchy.FirstParent, hparent]

end SameOff

end Graph

end FactHierarchy
