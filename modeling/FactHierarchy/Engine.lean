import FactHierarchy.Annotation
import FactHierarchy.Reversion
import FactHierarchy.RuleCheck

/-!
# The engine

The engine runs a list of rules over one graph (`Engine.run`). All annotation passes come first,
in the order of the rules, and then one path pass for each rule, which starts from the subjects
that the rule processed. So the paths of every rule see the names and parents that all rules
gave.

The rules are checked before the graph is touched. A run that fails leaves no trace. A reversion
(`Engine.revert`) goes rule by rule, and what earlier rules have added stays when a later rule
fails.
-/

set_option autoImplicit false

namespace FactHierarchy

/-- An engine is set up with the base of its vocabulary and the namespace of property-schema
nodes. -/
structure Engine where
  vocabularyBase : String := Vocabulary.defaultBase
  propertyNamespace : String := "urn:rdfbridge:property:"
  deriving DecidableEq, Repr, Inhabited

namespace Engine

/-- The vocabulary that an engine annotates with. -/
def vocabulary (e : Engine) : Vocabulary := .ofBase e.vocabularyBase

/-- The annotator of an engine. -/
def annotator (e : Engine) : Annotator := ⟨e.vocabulary, e.propertyNamespace⟩

/-! ## Runs -/

/-- The path passes of several rules, one after the other, each for the subjects that the rule
processed. -/
def writeAllPaths (e : Engine) :
    List (Rule × AnnotationReport) → Graph → Except RunError (List PathReport × Graph)
  | [], g => .ok ([], g)
  | (rule, annotated) :: rest, g => do
    let (report, g) ← g.writePaths e.vocabulary rule.id rule.basePath annotated.processed
    let (reports, g) ← e.writeAllPaths rest g
    return (report :: reports, g)

/-- Annotate a graph by a list of rules. -/
def run (e : Engine) (rules : List Rule) (g : Graph) :
    Except RunError (RunReport × Graph) := do
  Rule.checkAll rules
  let (annotations, g) := e.annotator.annotateAll rules g
  let (paths, g) ← e.writeAllPaths (rules.zip annotations) g
  return (⟨annotations, paths⟩, g)

/-- Annotate a graph by a list of rules, and keep the graph as it was if that fails. -/
def apply (e : Engine) (rules : List Rule) (g : Graph) :
    Except RunError RunReport × Graph :=
  match e.run rules g with
  | .error cause => (.error cause, g)
  | .ok (report, g) => (.ok report, g)

/-! ## Reversions -/

/-- The reversions of several rules, one after the other, up to the first that fails. -/
def revertAll (e : Engine) :
    List Rule → Graph → Except RunError (List ReversionReport) × Graph
  | [], g => (.ok [], g)
  | rule :: rules, g =>
    match g.revert e.vocabulary rule with
    | .error cause => (.error cause, g)
    | .ok (report, g) =>
      let (reports, g) := e.revertAll rules g
      (reports.map (report :: ·), g)

/-- Derive raw facts from the hierarchy objects of a graph again. -/
def revert (e : Engine) (rules : List Rule) (g : Graph) :
    Except RunError (List ReversionReport) × Graph :=
  match Rule.checkAll rules with
  | .error cause => (.error cause, g)
  | .ok () => e.revertAll rules g

end Engine

/-- The graph of the annotation facts of a graph alone. -/
def Graph.annotations (g : Graph) (v : Vocabulary) : Graph :=
  .ofList (g.toList.filter v.isAnnotation)

end FactHierarchy
