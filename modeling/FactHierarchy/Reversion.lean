import FactHierarchy.Path
import FactHierarchy.Rule

/-!
# Reversion

The reversion of a rule (`Graph.revert`) derives raw facts from hierarchy objects again. It
starts from the roots under the base path of the rule and goes down to all objects below them.
Each object gets the fact by which the rule selects it and, if the rule takes names from a
predicate, its name under that predicate. Each parent is linked to its children if the rule has a
predicate for that; otherwise only the roots are reverted.
-/

set_option autoImplicit false

namespace FactHierarchy.Graph

/-- The raw facts about one object. -/
def objectFacts (g : Graph) (v : Vocabulary) (rule : Rule) (n : Node) : List Fact :=
  let names := match rule.nameSource with
    | .fromValue predicate =>
      (g.object? n v.objectName).toList.map fun name => ⟨n, predicate, name⟩
    | _ => []
  ⟨n, rule.selector.predicate, rule.selector.value⟩ :: names

/-- The raw facts that a visit leads to: the link from the nearest node above, and the facts about
the object when it is entered. -/
def visitFacts (g : Graph) (v : Vocabulary) (rule : Rule) (childPredicate : Node)
    (visit : Visit) : List Fact :=
  (visit.above.head?.toList.map fun parent => ⟨parent, childPredicate, visit.node⟩) ++
    if visit.entered then g.objectFacts v rule visit.node else []

/-- The raw facts that a rule derives from some roots, with the number of objects they are
about. No root is listed twice. -/
def reversionFacts (g : Graph) (v : Vocabulary) (rule : Rule) (roots : List Node) :
    Except (List Node) (List Fact × Nat) :=
  match rule.linkPredicate with
  | none => .ok (roots.flatMap (g.objectFacts v rule), roots.length)
  | some childPredicate =>
    match (g.hierarchy v).descend (fun _ => false) roots with
    | .error chain => .error chain
    | .ok visits =>
      .ok (visits.flatMap (g.visitFacts v rule childPredicate), visits.countP Visit.entered)

/-- The reversion of one rule. It fails, and writes nothing, when the descent comes to a loop. -/
def revert (g : Graph) (v : Vocabulary) (rule : Rule) :
    Except RunError (ReversionReport × Graph) :=
  let roots := g.rootsBelow v rule.basePath
  match g.reversionFacts v rule roots with
  | .error chain => .error (.cyclicHierarchy rule.id chain)
  | .ok (facts, objects) =>
    let (added, g) := g.insertAll facts
    .ok (⟨rule.id, roots, objects, added⟩, g)

end FactHierarchy.Graph
