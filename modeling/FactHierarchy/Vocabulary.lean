import FactHierarchy.Term.Basic

/-!
# The annotation vocabulary

The predicates under which annotations are written, and the class of hierarchy objects. Their
local names are fixed. The IRI in front of them can be chosen.

A node is a *hierarchy object* when it carries the marker fact. Its annotations are facts on its
name, path, parents and properties. Property-schema nodes, which hierarchy objects share, have a
property name and a source predicate.
-/

set_option autoImplicit false

namespace FactHierarchy

/-- The IRI of `rdf:type`, the predicate of the marker fact. -/
def rdfTypeIri : String := "http://www.w3.org/1999/02/22-rdf-syntax-ns#type"

/-- The nodes that annotations are written with. -/
structure Vocabulary where
  base : String
  rdfType : Node
  hierarchyObject : Node
  objectName : Node
  objectPath : Node
  parentRef : Node
  hasProperty : Node
  propertyName : Node
  propertySourcePredicate : Node
  deriving DecidableEq, Repr

namespace Vocabulary

/-- The IRI in front of the local names where none is chosen. -/
def defaultBase : String := "http://rdfbridge.org/ns/hierarchy#"

/-- The vocabulary whose IRIs start with `base`. -/
def ofBase (base : String) : Vocabulary where
  base := base
  rdfType := .iri rdfTypeIri
  hierarchyObject := .iri (base ++ "HierarchyObject")
  objectName := .iri (base ++ "objectName")
  objectPath := .iri (base ++ "objectPath")
  parentRef := .iri (base ++ "parentRef")
  hasProperty := .iri (base ++ "hasProperty")
  propertyName := .iri (base ++ "propertyName")
  propertySourcePredicate := .iri (base ++ "propertySourcePredicate")

instance : Inhabited Vocabulary := ⟨ofBase defaultBase⟩

/-! ## Annotation facts -/

/-- The class of hierarchy objects and the six predicates of annotations. -/
def terms (v : Vocabulary) : List Node :=
  [v.hierarchyObject, v.objectName, v.objectPath, v.parentRef, v.hasProperty, v.propertyName,
    v.propertySourcePredicate]

/-- The fact that makes a node a hierarchy object. -/
def markerFact (v : Vocabulary) (object : Node) : Fact :=
  ⟨object, v.rdfType, v.hierarchyObject⟩

/-- The fact that names an object. -/
def nameFact (v : Vocabulary) (object : Node) (name : String) : Fact :=
  ⟨object, v.objectName, Literal.string name⟩

/-- The fact that places an object on a path. -/
def pathFact (v : Vocabulary) (object : Node) (path : String) : Fact :=
  ⟨object, v.objectPath, Literal.string path⟩

/-- The fact that puts a child under a parent. -/
def parentFact (v : Vocabulary) (child parent : Node) : Fact := ⟨child, v.parentRef, parent⟩

/-- The fact links an object to the class of hierarchy objects. -/
def isMarker (v : Vocabulary) (f : Fact) : Bool :=
  f.predicate == v.rdfType && f.object == v.hierarchyObject

/-- The fact is a marker or has an annotation term as its predicate. -/
def isAnnotation (v : Vocabulary) (f : Fact) : Bool :=
  f.predicate ∈ v.terms || v.isMarker f

end Vocabulary

end FactHierarchy
