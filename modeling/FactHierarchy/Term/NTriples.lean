import FactHierarchy.Term.Basic

/-!
# The N-Triples text of terms and facts

IRIs stand in angle brackets, blank nodes after `_:`, and literals in quotes, followed by `@` and
the language or, if there is none, by `^^` and the datatype. A fact ends with a full stop.

Inside the quotes of a literal the quote, the backslash and the three control characters line
feed, carriage return and tab are written as two characters, and nothing else is changed.
-/

set_option autoImplicit false

namespace FactHierarchy

/-- The text of a node. -/
def Node.text : Node → String
  | .iri text => "<" ++ text ++ ">"
  | .blank label => "_:" ++ label

namespace Literal

/-- One character between the quotes of a literal. -/
def escapeChar : Char → List Char
  | '"' => ['\\', '"']
  | '\\' => ['\\', '\\']
  | '\n' => ['\\', 'n']
  | '\r' => ['\\', 'r']
  | '\t' => ['\\', 't']
  | c => [c]

/-- What stands between the quotes of a literal. -/
def escape (lexical : String) : String :=
  String.ofList (lexical.toList.flatMap escapeChar)

/-- What follows the closing quote. A language hides a datatype. -/
def suffix (l : Literal) : String :=
  match l.language, l.datatype with
  | some language, _ => "@" ++ language
  | none, some datatype => "^^<" ++ datatype ++ ">"
  | none, none => ""

/-- The text of a literal. -/
def text (l : Literal) : String := "\"" ++ escape l.lexical ++ "\"" ++ l.suffix

end Literal

/-- The text of a term. -/
def Term.text : Term → String
  | .node n => n.text
  | .literal l => l.text

/-- The text of a fact. -/
def Fact.text (f : Fact) : String :=
  f.subject.text ++ " " ++ f.predicate.text ++ " " ++ f.object.text ++ " ."

end FactHierarchy
