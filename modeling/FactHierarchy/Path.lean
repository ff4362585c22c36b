import FactHierarchy.Error
import FactHierarchy.Hierarchy.Ascent
import FactHierarchy.Hierarchy.Descent
import FactHierarchy.Report

/-!
# Paths

A root is a hierarchy object without a parent. The path of a root is its name below the base path
of a rule, and the path of any other object is its name below the path of the object from which a
descent enters it.

`Graph.writePaths` writes paths once. An object that has a path keeps it, and nothing below
it is looked at. All paths are known before the first one is written, so a loop leaves the graph
as it was.
-/

set_option autoImplicit false

namespace FactHierarchy

/-- A segment below a base path, with one slash between them. -/
def appendSegment (base segment : String) : String :=
  if base.endsWith '/' then base ++ segment else base ++ "/" ++ segment

/-- The path of a node below the nodes of a chain, the nearest first. -/
def pathBelow (base : String) (name : Node → String) (n : Node) : List Node → String
  | [] => appendSegment base (name n)
  | parent :: above => appendSegment (pathBelow base name parent above) (name n)

namespace Graph

/-! ## Objects and roots -/

/-- The node is a hierarchy object. -/
def isObject (g : Graph) (v : Vocabulary) (n : Node) : Bool := g.contains (v.markerFact n)

/-- The name of a node. -/
def nameOf (g : Graph) (v : Vocabulary) (n : Node) : String := g.valueText n v.objectName

/-- The node has a path. -/
def hasPath (g : Graph) (v : Vocabulary) (n : Node) : Bool := g.any (.about n v.objectPath)

/-- The node has a parent fact. -/
def hasParent (g : Graph) (v : Vocabulary) (n : Node) : Bool :=
  g.any (.about n v.parentRef)

/-- The roots among some candidates, each once, in the order in which they come first. -/
def roots (g : Graph) (v : Vocabulary) (candidates : List Node) : List Node :=
  candidates.eraseDups.filter fun n => g.isObject v n && !g.hasParent v n

/-- All hierarchy objects, in the order of their marker facts. -/
def hierarchyObjects (g : Graph) (v : Vocabulary) : List Node :=
  g.subjects v.rdfType v.hierarchyObject

/-- The roots whose path is their name below the base path. -/
def rootsBelow (g : Graph) (v : Vocabulary) (base : String) : List Node :=
  (g.roots v (g.hierarchyObjects v)).filter fun n =>
    g.valueText n v.objectPath == appendSegment base (g.nameOf v n)

/-! ## Writing paths -/

/-- The descent that finds the objects to be given a path. -/
def pathVisits (g : Graph) (v : Vocabulary) (roots : List Node) :
    Except (List Node) (List Visit) :=
  (g.hierarchy v).descend (g.hasPath v) roots

/-- A loop above a candidate that neither has a path nor is about to get one. -/
def unreachedLoop? (g : Graph) (v : Vocabulary) (planned : List Node)
    (candidates : List Node) : Option (List Node) :=
  candidates.findSome? fun n =>
    if n ∈ planned || g.hasPath v n then none else (g.hierarchy v).loopAbove? n

/-- The path fact of a visited object. -/
def pathFactOf (g : Graph) (v : Vocabulary) (base : String) (visit : Visit) : Fact :=
  v.pathFact visit.node (pathBelow base (g.nameOf v) visit.node visit.above)

/-- Write the paths at and below the roots among the candidates. This fails, and writes nothing,
when the descent from the roots comes to a loop, and when the way up from a candidate that the
descent does not come to runs into one. -/
def writePaths (g : Graph) (v : Vocabulary) (rule base : String) (candidates : List Node) :
    Except RunError (PathReport × Graph) :=
  let roots := g.roots v candidates
  match g.pathVisits v roots with
  | .error chain => .error (.cyclicHierarchy rule chain)
  | .ok visits =>
    let (entered, again) := visits.partition Visit.entered
    match g.unreachedLoop? v (entered.map Visit.node) candidates with
    | some loop => .error (.cyclicHierarchy rule loop)
    | none =>
      .ok (⟨rule, roots, entered.length, again.map Visit.node⟩,
        g.extend (entered.map (g.pathFactOf v base)))

end Graph

end FactHierarchy
