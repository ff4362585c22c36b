import FactHierarchy.Json.Lexer

/-!
# The value of a JSON text

The parser reads the tokens of a text one by one and keeps the arrays and objects that have been
opened on a stack. So the depth of a text is limited by nothing.
-/

set_option autoImplicit false

namespace FactHierarchy

/-- An array or object that has been opened: the items before the current one, or the members
before the current one and its key. The latest come first. -/
inductive OpenJson where
  | array (items : List Json)
  | object (members : List (JsonText × Json)) (key : JsonText)

/-- What can come next: a value, and in a new array also its end; a key, and in a new object also
its end; the colon behind a key; a comma or the end behind an item or a member; nothing. -/
inductive JsonParser where
  | value (mayEnd : Bool) (stack : List OpenJson)
  | key (mayEnd : Bool) (members : List (JsonText × Json)) (stack : List OpenJson)
  | colon (members : List (JsonText × Json)) (key : JsonText) (stack : List OpenJson)
  | afterItem (items : List Json) (stack : List OpenJson)
  | afterMember (members : List (JsonText × Json)) (stack : List OpenJson)
  | done (value : Json)

namespace JsonParser

/-- Put a value that is complete in its place. -/
def complete (j : Json) : List OpenJson → JsonParser
  | [] => .done j
  | .array items :: stack => .afterItem (j :: items) stack
  | .object members k :: stack => .afterMember ((k, j) :: members) stack

/-- Read a token. -/
def step : JsonParser → Token → Option JsonParser
  | .value _ stack, .scalar s => some (complete (.scalar s) stack)
  | .value _ stack, .openArray => some (.value true (.array [] :: stack))
  | .value _ stack, .openObject => some (.key true [] stack)
  | .value true (.array [] :: stack), .closeArray => some (complete (.array []) stack)
  | .key _ members stack, .scalar (.string k) => some (.colon members k stack)
  | .key true [] stack, .closeObject => some (complete (.object []) stack)
  | .colon members k stack, .colon => some (.value false (.object members k :: stack))
  | .afterItem items stack, .comma => some (.value false (.array items :: stack))
  | .afterItem items stack, .closeArray => some (complete (.array items.reverse) stack)
  | .afterMember members stack, .comma => some (.key false members stack)
  | .afterMember members stack, .closeObject => some (complete (.object members.reverse) stack)
  | _, _ => none

/-- The value when the text is over. -/
def finish : JsonParser → Option Json
  | .done j => some j
  | _ => none

end JsonParser

namespace Json

/-- The value that a sequence of tokens is written for. -/
def ofTokens? (tokens : List Token) : Option Json :=
  (tokens.foldlM JsonParser.step (.value false [])).bind JsonParser.finish

/-- The value that a text is written for. -/
def parse? (text : String) : Option Json := (Token.ofText? text).bind ofTokens?

end Json

end FactHierarchy
