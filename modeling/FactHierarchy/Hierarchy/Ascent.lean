import FactHierarchy.Hierarchy.Basic

/-!
# Going up a hierarchy

Every node has at most one first parent, so only one way leads up from a node. It ends at a node
without a parent, or it comes back to a node that is already on it. `Hierarchy.loopAbove?` tells
the two cases apart. A loop is given from the node at which the way enters it, once round, back
to that node; the part of the way that leads into the loop is left out.
-/

set_option autoImplicit false

namespace FactHierarchy.Hierarchy

/-- The nodes that are not on the way yet. -/
def offWay (h : Hierarchy) (way : List Node) : List Node := h.nodes.filter (· ∉ way)

/-- With each new node on the way there is one less off it. -/
theorem length_offWay_cons_lt {h : Hierarchy} {way : List Node} {p : Node} (hp : p ∈ h.nodes)
    (hnew : p ∉ way) : (h.offWay (p :: way)).length < (h.offWay way).length := by
  have hsub : h.offWay (p :: way) = (h.offWay way).filter (· ≠ p) := by
    simp only [offWay, List.filter_filter]
    congr 1
    funext n
    simp
  rw [hsub]
  refine Nat.lt_of_le_of_ne (List.length_filter_le ..) fun he => ?_
  have := List.length_filter_eq_length_iff.1 he p (List.mem_filter.2 ⟨hp, by simpa using hnew⟩)
  simp at this

/-- Go on from `n`, with the nodes that led to it behind, the nearest first. -/
def climb (h : Hierarchy) (n : Node) (behind : List Node) : Option (List Node) :=
  match _ : h.parent? n with
  | none => none
  | some p =>
    if _ : p ∈ n :: behind then
      some (p :: ((n :: behind).takeWhile (· ≠ p)).reverse ++ [p])
    else h.climb p (n :: behind)
termination_by (h.offWay (n :: behind)).length
decreasing_by exact length_offWay_cons_lt (h.mem_of_parent?_eq ‹_›) ‹_›

/-- The loop that the way up from `start` runs into, if it runs into one. -/
def loopAbove? (h : Hierarchy) (start : Node) : Option (List Node) := h.climb start []

end FactHierarchy.Hierarchy
