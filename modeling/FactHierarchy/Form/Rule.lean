import FactHierarchy.Form.Term
import FactHierarchy.Rule

/-!
# The JSON form of rules

A name source is a choice, and the one alternative that comes without a value is a plain string;
an object with `null` is read as well. The other types are records.
-/

set_option autoImplicit false

namespace FactHierarchy

/-- The JSON form of a name source. -/
def NameSource.toJson : NameSource → Json
  | .fixed name => .choice "Fixed" (.str name)
  | .fromValue predicate => .choice "FromValue" predicate.toJson
  | .localName => .str "LocalName"

/-- Read a name source. -/
def NameSource.ofJson? (j : Json) : Option NameSource :=
  match j.readChoice with
  | some ("Fixed", some value) => value.readString.map .fixed
  | some ("FromValue", some value) => (Node.ofJson? value).map .fromValue
  | some ("LocalName", none) => some .localName
  | some ("LocalName", some .null) => some .localName
  | _ => none

/-- The JSON form of a selector. -/
def Selector.toJson (s : Selector) : Json :=
  .record [("predicate", s.predicate.toJson), ("value", s.value.toJson)]

/-- Read a selector. -/
def Selector.ofJson? (j : Json) : Option Selector := do
  match ← j.readFields ["predicate", "value"] with
  | [predicate, value] =>
    return ⟨← predicate.required Node.ofJson?, ← value.required Term.ofJson?⟩
  | _ => none

/-- The JSON form of a relation. -/
def Relation.toJson (r : Relation) : Json :=
  .record [("predicate", r.predicate.toJson), ("name_source", r.nameSource.toJson)]

/-- Read a relation. -/
def Relation.ofJson? (j : Json) : Option Relation := do
  match ← j.readFields ["predicate", "name_source"] with
  | [predicate, nameSource] =>
    return ⟨← predicate.required Node.ofJson?, ← nameSource.required NameSource.ofJson?⟩
  | _ => none

/-- The JSON form of a rule. -/
def Rule.toJson (r : Rule) : Json :=
  .record [("id", .str r.id), ("selector", r.selector.toJson),
    ("name_source", r.nameSource.toJson), ("child_rules", .list Relation.toJson r.children),
    ("property_rules", .list Relation.toJson r.properties), ("base_path", .str r.basePath),
    ("default_child_predicate", .option Node.toJson r.defaultChildPredicate)]

/-- Read a rule. -/
def Rule.ofJson? (j : Json) : Option Rule := do
  match ← j.readFields ["id", "selector", "name_source", "child_rules", "property_rules",
    "base_path", "default_child_predicate"] with
  | [id, selector, nameSource, children, properties, basePath, defaultChildPredicate] =>
    return ⟨← id.required Json.readString, ← selector.required Selector.ofJson?,
      ← nameSource.required NameSource.ofJson?,
      ← children.required (Json.readList Relation.ofJson?),
      ← properties.required (Json.readList Relation.ofJson?),
      ← basePath.required Json.readString, ← defaultChildPredicate.optional Node.ofJson?⟩
  | _ => none

end FactHierarchy
