/-!
# Terms and facts

The data a graph is made of: a `Node` names a resource, a `Literal` is a value, a `Term` is
either, and a `Fact` states that a subject has an object under a predicate.

A node's *local name* is the readable end of it: what stands after the last `#` or `/` of an IRI,
and the whole label of a blank node.
-/

set_option autoImplicit false

namespace FactHierarchy

/-- A resource: an IRI, or a blank node known by its label only. -/
inductive Node where
  | iri (text : String)
  | blank (label : String)
  deriving DecidableEq, Repr, Inhabited

/-- A value, with the IRI of its datatype and its language tag where it has them. -/
structure Literal where
  lexical : String
  datatype : Option String := none
  language : Option String := none
  deriving DecidableEq, Repr, Inhabited

/-- What can stand in the object position of a fact. -/
inductive Term where
  | node (node : Node)
  | literal (literal : Literal)
  deriving DecidableEq, Repr, Inhabited

/-- One statement. -/
structure Fact where
  subject : Node
  predicate : Node
  object : Term
  deriving DecidableEq, Repr, Inhabited

instance : Coe Node Term := ⟨Term.node⟩

instance : Coe Literal Term := ⟨Term.literal⟩

/-! ## Nodes -/

namespace Node

/-- The text of an IRI. -/
def iri? : Node → Option String
  | iri text => some text
  | blank _ => none

/-- The label of a blank node. -/
def blank? : Node → Option String
  | iri _ => none
  | blank label => some label

end Node

/-- The characters that end the leading part of an IRI. -/
def isNameSeparator (c : Char) : Bool := c == '#' || c == '/'

/-- The part of `iri` after the last `#` or `/`; all of it if there is neither. -/
def localName (iri : String) : String :=
  String.ofList (iri.toList.reverse.takeWhile (fun c => !isNameSeparator c)).reverse

/-- The readable end of a node. -/
def Node.localName : Node → String
  | .iri text => FactHierarchy.localName text
  | .blank label => label

/-! ## Literals -/

namespace Literal

/-- The IRI of the datatype of character strings. -/
def xsdString : String := "http://www.w3.org/2001/XMLSchema#string"

/-- A literal with neither datatype nor language. -/
def plain (lexical : String) : Literal := ⟨lexical, none, none⟩

/-- A literal typed as a character string. All literals that annotation writes have this form. -/
def string (lexical : String) : Literal := ⟨lexical, some xsdString, none⟩

/-- A literal in a natural language. -/
def lang (lexical language : String) : Literal := ⟨lexical, none, some language⟩

end Literal

/-! ## Terms -/

namespace Term

/-- The node that a term is. -/
def node? : Term → Option Node
  | node n => some n
  | literal _ => none

/-- The literal that a term is. -/
def literal? : Term → Option Literal
  | node _ => none
  | literal l => some l

end Term

end FactHierarchy
