import FactHierarchy.Graph.Consistent

/-!
# The fact graph

A `Graph` is a set of facts in the order in which they were added. A fact that is there already
keeps its place when it is added, and a fact that is removed and added again moves to the end.

`toList` is the view of a graph: what a graph answers depends on the list of its facts and on
nothing else.
-/

set_option autoImplicit false

namespace FactHierarchy

/-- A set of facts in order of arrival. -/
structure Graph where
  table : SlotTable
  consistent : table.Consistent

namespace Graph

/-- The graph without facts. -/
def empty : Graph := ⟨.empty, .empty⟩

instance : Inhabited Graph := ⟨empty⟩

/-! ## Reading -/

/-- All facts, in order of arrival. -/
def toList (g : Graph) : List Fact := g.table.toList

/-- The number of facts. -/
def size (g : Graph) : Nat := g.table.lookup.size

/-- There is no fact. -/
def isEmpty (g : Graph) : Bool := g.table.lookup.isEmpty

/-- The fact is in the graph. -/
def contains (g : Graph) (f : Fact) : Bool := g.table.lookup.contains f

/-- The facts that match a pattern, in order of arrival. -/
def filter (g : Graph) (p : Pattern) : List Fact := g.table.filter p

/-! ## Writing -/

/-- The graph with a fact added at the end, unless it is there already. -/
def put (g : Graph) (f : Fact) : Graph := ⟨g.table.insert f, g.consistent.insert f⟩

/-- The graph with a fact taken out. -/
def erase (g : Graph) (f : Fact) : Graph := ⟨g.table.erase f, g.consistent.erase f⟩

/-- Add a fact, and say whether it is new. -/
def insert (g : Graph) (f : Fact) : Bool × Graph := (!g.contains f, g.put f)

/-- Take out a fact, and say whether it was there. -/
def remove (g : Graph) (f : Fact) : Bool × Graph := (g.contains f, g.erase f)

/-- Take out every fact that matches a pattern, and count them. -/
def discard (g : Graph) (p : Pattern) : Nat × Graph :=
  let doomed := g.filter p
  (doomed.length, doomed.foldl erase g)

/-- The graph with facts added one after the other. -/
def extend (g : Graph) (facts : List Fact) : Graph := facts.foldl put g

/-- Add facts one after the other, and count the new ones. -/
def insertAll (g : Graph) (facts : List Fact) : Nat × Graph :=
  facts.foldl
    (fun (added, g) f =>
      let (isNew, g) := g.insert f
      (if isNew then added + 1 else added, g))
    (0, g)

/-- The graph of a list of facts. -/
def ofList (facts : List Fact) : Graph := empty.extend facts

end Graph

end FactHierarchy
