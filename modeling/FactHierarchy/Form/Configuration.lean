import FactHierarchy.Configuration
import FactHierarchy.Json.Record

/-!
# The JSON form of configurations

The settings that have a default can be left out. `Configuration.parse` reads a configuration
from a text, and `Configuration.load` from the bytes of a file.
-/

set_option autoImplicit false

namespace FactHierarchy

/-- The JSON form of the description of an engine. -/
def Engine.toJson (e : Engine) : Json :=
  .record [("vocabulary_base", .str e.vocabularyBase),
    ("property_namespace", .str e.propertyNamespace)]

/-- Read the description of an engine. -/
def Engine.ofJson? (j : Json) : Option Engine := do
  let standard : Engine := {}
  match ← j.readFields ["vocabulary_base", "property_namespace"] with
  | [vocabularyBase, propertyNamespace] =>
    return ⟨← vocabularyBase.withDefault standard.vocabularyBase Json.readString,
      ← propertyNamespace.withDefault standard.propertyNamespace Json.readString⟩
  | _ => none

/-- The JSON form of the description of a name source. -/
def NameSetting.toJson : NameSetting → Json
  | .fixed name => .choice "fixed" (.str name)
  | .fromValue predicate => .choice "from_value" (.str predicate)
  | .localName => .str "local_name"

/-- Read the description of a name source. -/
def NameSetting.ofJson? (j : Json) : Option NameSetting :=
  match j.readChoice with
  | some ("fixed", some value) => value.readString.map .fixed
  | some ("from_value", some value) => value.readString.map .fromValue
  | some ("local_name", none) => some .localName
  | some ("local_name", some .null) => some .localName
  | _ => none

/-- The JSON form of the description of a selector. -/
def SelectorSetting.toJson (s : SelectorSetting) : Json :=
  .record [("predicate", .str s.predicate), ("value", .str s.value)]

/-- Read the description of a selector. -/
def SelectorSetting.ofJson? (j : Json) : Option SelectorSetting := do
  match ← j.readFields ["predicate", "value"] with
  | [predicate, value] =>
    return ⟨← predicate.required Json.readString, ← value.required Json.readString⟩
  | _ => none

/-- The JSON form of the description of a relation. -/
def RelationSetting.toJson (r : RelationSetting) : Json :=
  .record [("predicate", .str r.predicate), ("name", r.name.toJson)]

/-- Read the description of a relation. -/
def RelationSetting.ofJson? (j : Json) : Option RelationSetting := do
  match ← j.readFields ["predicate", "name"] with
  | [predicate, name] =>
    return ⟨← predicate.required Json.readString,
      ← name.withDefault .localName NameSetting.ofJson?⟩
  | _ => none

/-- The JSON form of the description of a rule. -/
def RuleSetting.toJson (r : RuleSetting) : Json :=
  .record [("id", .str r.id), ("selector", r.selector.toJson), ("name", r.name.toJson),
    ("children", .list RelationSetting.toJson r.children),
    ("properties", .list RelationSetting.toJson r.properties), ("base_path", .str r.basePath),
    ("default_child_predicate", .option .str r.defaultChildPredicate)]

/-- Read the description of a rule. -/
def RuleSetting.ofJson? (j : Json) : Option RuleSetting := do
  match ← j.readFields ["id", "selector", "name", "children", "properties", "base_path",
    "default_child_predicate"] with
  | [id, selector, name, children, properties, basePath, defaultChildPredicate] =>
    return ⟨← id.required Json.readString, ← selector.required SelectorSetting.ofJson?,
      ← name.withDefault .localName NameSetting.ofJson?,
      ← children.withDefault [] (Json.readList RelationSetting.ofJson?),
      ← properties.withDefault [] (Json.readList RelationSetting.ofJson?),
      ← basePath.withDefault "/" Json.readString,
      ← defaultChildPredicate.withDefault none (FieldEntry.readOption Json.readString)⟩
  | _ => none

namespace Configuration

/-- The JSON form of a configuration. -/
def toJson (c : Configuration) : Json :=
  .record [("engine", c.engine.toJson), ("prefixes", .ofStringMap c.prefixes),
    ("bridges", .list RuleSetting.toJson c.bridges)]

/-- Read a configuration. -/
def ofJson? (j : Json) : Option Configuration := do
  match ← j.readFields ["engine", "prefixes", "bridges"] with
  | [engine, prefixes, bridges] =>
    return ⟨← engine.withDefault {} Engine.ofJson?,
      ← prefixes.withDefault .empty Json.readStringMap,
      ← bridges.withDefault [] (Json.readList RuleSetting.ofJson?)⟩
  | _ => none

/-- The configuration in a text. -/
def parse (text : String) : Except ConfigError Configuration :=
  match Json.readText ofJson? text with
  | some c => .ok c
  | none => .error .notAConfiguration

/-- The configuration in the bytes of a file. There are none when there is no file. -/
def load (contents : Option ByteArray) : Except ConfigError Configuration :=
  match contents.bind String.fromUTF8? with
  | some text => parse text
  | none => .error .unreadable

end Configuration

end FactHierarchy
