import FactHierarchy.Term.Basic
import FactHierarchy.Digest

/-!
# Property-schema nodes

Every object to which a rule gives the same property name shares one property-schema node. Its
IRI depends on nothing but the namespace, the property name and the id of the rule, so that all
runs and all graphs agree on it. The digest in it covers the exact name; the readable part in
front of the digest keeps only letters, digits, `_` and `-`.
-/

set_option autoImplicit false

namespace FactHierarchy

/-- The characters that can stand in the readable part of an id. -/
def isIdChar (c : Char) : Bool := c.isAlphanum || c == '_' || c == '-'

/-- The readable part of an id: `_` stands for each character that cannot, and for an empty
name. -/
def idText (name : String) : String :=
  if name.isEmpty then "_"
  else String.ofList (name.toList.map fun c => if isIdChar c then c else '_')

/-- The fields that the digest of a property-schema node covers. -/
def propertyFields (name rule : String) : List (String × String) :=
  [("rule", rule), ("name", name)]

/-- The node of the property that a rule gives a name to. -/
def propertyNode (name rule propertyNamespace : String) : Node :=
  .iri (propertyNamespace ++ idText name ++ "-" ++
    hashText (hashFields (propertyFields name rule)))

end FactHierarchy
