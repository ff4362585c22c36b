import FactHierarchy.Graph.View
import FactHierarchy.Vocabulary

/-!
# Hierarchies

A `Hierarchy` says which nodes stand directly below each node and which parent a node names
first. It is finite: all these nodes come from one list. Nothing else is asked of it. A node may
stand below several others, and going down or up may lead into a loop.

The hierarchy of a fact graph is made of its parent facts.
-/

set_option autoImplicit false

namespace FactHierarchy

/-- A finite parent relation, seen from above and from below. -/
structure Hierarchy where
  nodes : List Node
  below : Node → List Node
  parent? : Node → Option Node
  mem_of_mem_below : ∀ {n c : Node}, c ∈ below n → c ∈ nodes
  mem_of_parent?_eq : ∀ {n p : Node}, parent? n = some p → p ∈ nodes

namespace Graph

/-- A query answers with facts of the graph. -/
theorem mem_toList_of_mem_filter {g : Graph} {p : Pattern} {f : Fact}
    (h : f ∈ g.filter p) : f ∈ g.toList := by
  rw [filter_eq] at h
  exact (List.mem_filter.1 h).1

/-- The nodes in the subject and object positions of the facts of a graph. -/
def nodes (g : Graph) : List Node :=
  g.toList.flatMap fun f => f.subject :: f.object.node?.toList

/-- The nodes that have a parent fact to a node, in the order of these facts. Every fact is held
once, so no node is listed twice. -/
def nodesBelow (g : Graph) (v : Vocabulary) (parent : Node) : List Node :=
  g.subjects v.parentRef parent

theorem mem_nodes_of_mem_nodesBelow {g : Graph} {v : Vocabulary} {n c : Node}
    (h : c ∈ g.nodesBelow v n) : c ∈ g.nodes := by
  obtain ⟨f, hf, rfl⟩ := List.mem_map.1 h
  exact List.mem_flatMap.2 ⟨f, mem_toList_of_mem_filter hf, by simp⟩

theorem mem_nodes_of_objectNode? {g : Graph} {s p n : Node}
    (h : g.objectNode? s p = some n) : n ∈ g.nodes := by
  obtain ⟨t, ht, hn⟩ := Option.bind_eq_some_iff.1 h
  obtain ⟨f, hf, rfl⟩ := List.mem_map.1 (List.mem_of_mem_head? (Option.mem_def.2 ht))
  exact List.mem_flatMap.2 ⟨f, mem_toList_of_mem_filter hf, by simp [hn]⟩

/-- The hierarchy that the parent facts of a graph describe. The parent named first is the object
of the first parent fact, if that is a node. -/
def hierarchy (g : Graph) (v : Vocabulary) : Hierarchy where
  nodes := g.nodes
  below := g.nodesBelow v
  parent? n := g.objectNode? n v.parentRef
  mem_of_mem_below := mem_nodes_of_mem_nodesBelow
  mem_of_parent?_eq := mem_nodes_of_objectNode?

end Graph

end FactHierarchy
