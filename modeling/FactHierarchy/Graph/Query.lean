import FactHierarchy.Graph.Basic

/-!
# Questions to a graph

What the facts of a graph say about one subject under one predicate. Where there are several
facts the first one to arrive answers.
-/

set_option autoImplicit false

namespace FactHierarchy.Graph

/-- Some fact matches the pattern. -/
def any (g : Graph) (p : Pattern) : Bool := !(g.filter p).isEmpty

/-- The objects of a subject under a predicate. -/
def objects (g : Graph) (subject predicate : Node) : List Term :=
  (g.filter (.about subject predicate)).map Fact.object

/-- The subjects that have an object under a predicate. -/
def subjects (g : Graph) (predicate : Node) (object : Term) : List Node :=
  (g.filter (.having predicate object)).map Fact.subject

/-- The first object of a subject under a predicate. -/
def object? (g : Graph) (subject predicate : Node) : Option Term :=
  (g.objects subject predicate).head?

/-- The lexical form of the first object. It is empty where there is no object, and also where
the first object is a node. -/
def valueText (g : Graph) (subject predicate : Node) : String :=
  match g.object? subject predicate with
  | some (.literal l) => l.lexical
  | _ => ""

/-- The first object, where it is a node. -/
def objectNode? (g : Graph) (subject predicate : Node) : Option Node :=
  (g.object? subject predicate).bind Term.node?

end FactHierarchy.Graph
