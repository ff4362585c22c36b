import FactHierarchy.Json.Parser
import FactHierarchy.Json.Printer
import FactHierarchy.StringMap

/-!
# Reading values from JSON

How a value of a type is found in a JSON value. A record is an object with its fields under their
names, or an array of its fields in order. In an object, fields that the record does not have are
passed over and no field that it has may be repeated. In an array there may be too few items, but
not too many.

What a missing field means is decided field by field: it can be an error, or stand for a default,
or be a value that is absent. The last of these has to be said in an array.

A choice is a string with the name of the alternative, or an object with this name as its only
key.
-/

set_option autoImplicit false

namespace FactHierarchy

/-- What is found for a field of a record: a value, or nothing under its name, or the end of the
array before its place. -/
inductive FieldEntry where
  | given (value : Json)
  | omitted
  | cutOff

namespace FieldEntry

variable {α : Type}

/-- A field that must be given. -/
def required (read? : Json → Option α) : FieldEntry → Option α
  | given value => read? value
  | _ => none

/-- A field with a default. -/
def withDefault (default : α) (read? : Json → Option α) : FieldEntry → Option α
  | given value => read? value
  | _ => some default

/-- A value that can be absent. -/
def readOption (read? : Json → Option α) : Json → Option (Option α)
  | .null => some none
  | value => (read? value).map some

/-- A field for a value that can be absent. -/
def optional (read? : Json → Option α) : FieldEntry → Option (Option α)
  | given value => readOption read? value
  | omitted => some none
  | cutOff => none

end FieldEntry

namespace Json

/-- The text of a string. -/
def readString : Json → Option String
  | .str text => some text
  | _ => none

/-- An array of values of one form. -/
def readList {α : Type} (read? : Json → Option α) : Json → Option (List α)
  | .array items => items.mapM read?
  | _ => none

/-- The members of an object all of whose keys have a text. -/
def readMembers (members : List (JsonText × Json)) : Option (List (String × Json)) :=
  members.mapM fun m => m.1.map fun key => (key, m.2)

/-- A map from strings to strings. The last of repeated keys counts. -/
def readStringMap : Json → Option StringMap
  | .object members => do
    let members ← readMembers members
    let entries ← members.mapM fun m => (readString m.2).map fun value => (m.1, value)
    return .ofList entries
  | _ => none

/-- The entries for the fields of a record. -/
def readFields (names : List String) : Json → Option (List FieldEntry)
  | .object members => do
    let members ← readMembers members
    if names.all fun name => members.countP (·.1 == name) ≤ 1 then
      return names.map fun name => (members.lookup name).elim .omitted .given
    else none
  | .array items =>
    if items.length ≤ names.length then
      some (items.map .given ++ List.replicate (names.length - items.length) .cutOff)
    else none
  | _ => none

/-- The name of the chosen alternative, and the value that comes with it if the choice is an
object. -/
def readChoice : Json → Option (String × Option Json)
  | .str name => some (name, none)
  | .object [(some name, value)] => some (name, some value)
  | _ => none

/-- An object that maps strings to strings. -/
def ofStringMap (m : StringMap) : Json := record (m.entries.map fun e => (e.1, .str e.2))

/-- A choice that comes with a value. -/
def choice (name : String) (value : Json) : Json := record [(name, value)]

/-- Read a value from a text. -/
def readText {α : Type} (read? : Json → Option α) (text : String) : Option α :=
  (parse? text).bind read?

end Json

end FactHierarchy
