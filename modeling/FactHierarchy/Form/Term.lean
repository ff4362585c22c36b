import FactHierarchy.Json.Record
import FactHierarchy.PrefixTable
import FactHierarchy.Vocabulary

/-!
# The JSON form of terms, facts and vocabularies

A node, like a term, is a choice; the other types are records. Each form is a function to JSON
and one from JSON that reads what the first one writes.
-/

set_option autoImplicit false

namespace FactHierarchy

/-- The JSON form of a node. -/
def Node.toJson : Node → Json
  | .iri text => .choice "Iri" (.str text)
  | .blank label => .choice "Blank" (.str label)

/-- Read a node. -/
def Node.ofJson? (j : Json) : Option Node :=
  match j.readChoice with
  | some ("Iri", some value) => value.readString.map .iri
  | some ("Blank", some value) => value.readString.map .blank
  | _ => none

/-- The JSON form of a literal. -/
def Literal.toJson (l : Literal) : Json :=
  .record [("lexical", .str l.lexical), ("datatype", .option .str l.datatype),
    ("language", .option .str l.language)]

/-- Read a literal. -/
def Literal.ofJson? (j : Json) : Option Literal := do
  match ← j.readFields ["lexical", "datatype", "language"] with
  | [lexical, datatype, language] =>
    return ⟨← lexical.required Json.readString, ← datatype.optional Json.readString,
      ← language.optional Json.readString⟩
  | _ => none

/-- The JSON form of a term. -/
def Term.toJson : Term → Json
  | .node n => .choice "Node" n.toJson
  | .literal l => .choice "Literal" l.toJson

/-- Read a term. -/
def Term.ofJson? (j : Json) : Option Term :=
  match j.readChoice with
  | some ("Node", some value) => (Node.ofJson? value).map .node
  | some ("Literal", some value) => (Literal.ofJson? value).map .literal
  | _ => none

/-- The JSON form of a fact. -/
def Fact.toJson (f : Fact) : Json :=
  .record [("subject", f.subject.toJson), ("predicate", f.predicate.toJson),
    ("object", f.object.toJson)]

/-- Read a fact. -/
def Fact.ofJson? (j : Json) : Option Fact := do
  match ← j.readFields ["subject", "predicate", "object"] with
  | [subject, predicate, object] =>
    return ⟨← subject.required Node.ofJson?, ← predicate.required Node.ofJson?,
      ← object.required Term.ofJson?⟩
  | _ => none

/-- The JSON form of a table of namespaces. -/
def PrefixTable.toJson (ns : PrefixTable) : Json :=
  .record [("prefixes", .ofStringMap ns.prefixes)]

/-- Read a table of namespaces. -/
def PrefixTable.ofJson? (j : Json) : Option PrefixTable := do
  match ← j.readFields ["prefixes"] with
  | [prefixes] => return ⟨← prefixes.required Json.readStringMap⟩
  | _ => none

/-- The JSON form of a vocabulary. -/
def Vocabulary.toJson (v : Vocabulary) : Json :=
  .record [("base", .str v.base), ("rdf_type", v.rdfType.toJson),
    ("hierarchy_object", v.hierarchyObject.toJson), ("object_name", v.objectName.toJson),
    ("object_path", v.objectPath.toJson), ("parent_ref", v.parentRef.toJson),
    ("has_property", v.hasProperty.toJson), ("property_name", v.propertyName.toJson),
    ("property_source_predicate", v.propertySourcePredicate.toJson)]

/-- Read a vocabulary. -/
def Vocabulary.ofJson? (j : Json) : Option Vocabulary := do
  match ← j.readFields ["base", "rdf_type", "hierarchy_object", "object_name", "object_path",
    "parent_ref", "has_property", "property_name", "property_source_predicate"] with
  | [base, rdfType, hierarchyObject, objectName, objectPath, parentRef, hasProperty, propertyName,
      propertySourcePredicate] =>
    return ⟨← base.required Json.readString, ← rdfType.required Node.ofJson?,
      ← hierarchyObject.required Node.ofJson?, ← objectName.required Node.ofJson?,
      ← objectPath.required Node.ofJson?, ← parentRef.required Node.ofJson?,
      ← hasProperty.required Node.ofJson?, ← propertyName.required Node.ofJson?,
      ← propertySourcePredicate.required Node.ofJson?⟩
  | _ => none

end FactHierarchy
