import FactHierarchy.PropertyId
import FactHierarchy.Report
import FactHierarchy.Rule
import FactHierarchy.TakenNames
import FactHierarchy.Vocabulary

/-!
# The annotation pass

The annotation pass of a rule (`Annotator.annotate`) turns raw facts into hierarchy objects. Each
selected subject that has a name is marked, gets that name unless it has one, and links to a
property-schema node for each of its properties. Each of its children that has a name is marked
and put below it, and its claimed name takes the place of any other: what a resource is called as
a child counts more than what it is called as a root, whichever comes first.

A resource without a name is left out and reported. Paths are not written here.
-/

set_option autoImplicit false

namespace FactHierarchy

/-- What the annotation pass of every rule needs to know. -/
structure Annotator where
  vocabulary : Vocabulary
  propertyNamespace : String

/-- An annotation pass on its way: the graph as it is by now, the subjects made hierarchy objects
and the resources left out. -/
structure AnnotationPass where
  graph : Graph
  processed : List Node := []
  omissions : List Omission := []

namespace AnnotationPass

/-- Note that a resource is left out. -/
def report (s : AnnotationPass) (entry : Omission) : AnnotationPass :=
  { s with omissions := s.omissions ++ [entry] }

end AnnotationPass

namespace Annotator

/-- Make a child an object below a parent, under the one name that is given. -/
def adopt (a : Annotator) (parent child : Node) (name : String) (g : Graph) : Graph :=
  let v := a.vocabulary
  let unnamed := (g.discard (.about child v.objectName)).2
  ((unnamed.put (v.markerFact child)).put (v.parentFact child parent)).put (v.nameFact child name)

/-- Go through the children of one scope. The table holds the names claimed in the scope. -/
def annotateChildren (a : Annotator) (rule : Rule) (parent : Node) (relation : Relation) :
    List Node → TakenNames → AnnotationPass → AnnotationPass
  | [], _, s => s
  | child :: children, names, s =>
    let name := relation.nameSource.nameIn s.graph child
    if name.isEmpty then
      a.annotateChildren rule parent relation children names
        (s.report ⟨rule.id, child, .child parent relation.predicate⟩)
    else
      let (given, names) := names.claim name
      a.annotateChildren rule parent relation children names
        { s with graph := a.adopt parent child given s.graph }

/-- Annotate one scope: the children that a parent reaches through one relation. Objects that are
literals are no children. -/
def annotateScope (a : Annotator) (rule : Rule) (parent : Node) (s : AnnotationPass)
    (relation : Relation) : AnnotationPass :=
  let children := (s.graph.objects parent relation.predicate).filterMap Term.node?
  a.annotateChildren rule parent relation children .empty s

/-- Write the name and the source predicate of a property-schema node. -/
def describe (a : Annotator) (schema : Node) (name : String) (predicate : Node) (g : Graph) :
    Graph :=
  (g.put ⟨schema, a.vocabulary.propertyName, Literal.string name⟩).put
    ⟨schema, a.vocabulary.propertySourcePredicate, predicate⟩

/-- Go through the properties of a subject. The schema nodes in `described` were described for
this subject and are not described again. -/
def annotateProperties (a : Annotator) (rule : Rule) (subject : Node) :
    List Relation → List Node → AnnotationPass → AnnotationPass
  | [], _, s => s
  | relation :: relations, described, s =>
    let name := relation.nameSource.nameIn s.graph subject
    if name.isEmpty then
      a.annotateProperties rule subject relations described
        (s.report ⟨rule.id, subject, .property relation.predicate⟩)
    else
      let schema := propertyNode name rule.id a.propertyNamespace
      let g := if schema ∈ described then s.graph
        else a.describe schema name relation.predicate s.graph
      a.annotateProperties rule subject relations (schema :: described)
        { s with graph := g.put ⟨subject, a.vocabulary.hasProperty, schema⟩ }

/-- Mark a root and name it unless it has a name. -/
def annotateRoot (a : Annotator) (root : Node) (name : String) (g : Graph) : Graph :=
  let v := a.vocabulary
  let g := g.put (v.markerFact root)
  if g.any (.about root v.objectName) then g else g.put (v.nameFact root name)

/-- Annotate one selected subject with its children and properties. -/
def annotateSubject (a : Annotator) (rule : Rule) (s : AnnotationPass) (subject : Node) :
    AnnotationPass :=
  let name := rule.nameSource.nameIn s.graph subject
  if name.isEmpty then s.report ⟨rule.id, subject, .root⟩
  else
    let s := { s with
      graph := a.annotateRoot subject name s.graph
      processed := s.processed ++ [subject] }
    a.annotateProperties rule subject rule.properties []
      (rule.children.foldl (a.annotateScope rule subject) s)

/-- The annotation pass of a rule. The subjects are selected before the first fact is written.
Every fact is held once, so no subject is selected twice. -/
def annotate (a : Annotator) (rule : Rule) (g : Graph) : AnnotationReport × Graph :=
  let s := (rule.selector.subjects g).foldl (a.annotateSubject rule) { graph := g }
  (⟨rule.id, s.processed, s.omissions⟩, s.graph)

/-- The annotation passes of several rules, one after the other. -/
def annotateAll (a : Annotator) :
    List Rule → Graph → List AnnotationReport × Graph
  | [], g => ([], g)
  | rule :: rules, g =>
    let (report, g) := a.annotate rule g
    let (reports, g) := a.annotateAll rules g
    (report :: reports, g)

end Annotator

end FactHierarchy
