/-!
# JSON values and tokens

A JSON text is a sequence of tokens, and a JSON value is a tree whose leaves are scalars. The
members of an object are kept in their order, repeated keys included.

An escape such as `\ud800` stands for half of a surrogate pair. A string in which such a half has
no partner is JSON, but there is no text that it denotes. It is kept as a string without text.
-/

set_option autoImplicit false

namespace FactHierarchy

/-- What a JSON string denotes: its text, or nothing if half of a surrogate pair is in it. -/
abbrev JsonText := Option String

/-- A value without parts. A number is kept as it is written. -/
inductive Scalar where
  | null
  | bool (value : Bool)
  | number (digits : String)
  | string (text : JsonText)
  deriving DecidableEq, Repr, Inhabited

/-- A JSON value. -/
inductive Json where
  | scalar (value : Scalar)
  | array (items : List Json)
  | object (members : List (JsonText × Json))
  deriving Repr, Inhabited

/-- What a JSON text is made of, white space apart. -/
inductive Token where
  | scalar (value : Scalar)
  | openArray
  | closeArray
  | openObject
  | closeObject
  | comma
  | colon
  deriving DecidableEq, Repr, Inhabited

namespace Json

/-- The value for what is absent. -/
@[match_pattern] abbrev null : Json := .scalar .null

/-- A truth value. -/
@[match_pattern] abbrev bool (b : Bool) : Json := .scalar (.bool b)

/-- A string with a text. -/
@[match_pattern] abbrev str (text : String) : Json := .scalar (.string (some text))

/-- A natural number. -/
def nat (n : Nat) : Json := .scalar (.number (String.ofList (Nat.toDigits 10 n)))

/-- An array of values of one form. -/
def list {α : Type} (form : α → Json) (values : List α) : Json := .array (values.map form)

/-- A value that can be absent. -/
def option {α : Type} (form : α → Json) : Option α → Json
  | none => .null
  | some a => form a

/-- An object with given keys. -/
def record (members : List (String × Json)) : Json :=
  .object (members.map fun m => (some m.1, m.2))

end Json

end FactHierarchy
