import FactHierarchy.Json.Basic

/-!
# Writing JSON

A value is written without white space. In a string the quote, the backslash and the control
characters are escaped, five of them by a letter and the others by their code, and nothing else.
-/

set_option autoImplicit false

namespace FactHierarchy

/-! ## Strings -/

/-- The hexadecimal digit of a number below 16, in lower case. -/
def hexDigit (n : Nat) : Char := Nat.digitChar n

/-- An escape by the code of a character below 256. -/
def codeEscape (c : Char) : List Char :=
  ['\\', 'u', '0', '0', hexDigit (c.toNat / 16), hexDigit (c.toNat % 16)]

/-- One character between the quotes of a string. -/
def jsonEscapeChar (c : Char) : List Char :=
  if c = '"' then ['\\', '"']
  else if c = '\\' then ['\\', '\\']
  else if c = '\n' then ['\\', 'n']
  else if c = '\r' then ['\\', 'r']
  else if c = '\t' then ['\\', 't']
  else if c = '\x08' then ['\\', 'b']
  else if c = '\x0c' then ['\\', 'f']
  else if c.toNat < 0x20 then codeEscape c
  else [c]

/-- A string with its quotes. -/
def quote (text : String) : List Char := '"' :: text.toList.flatMap jsonEscapeChar ++ ['"']

/-- A string without text, for which the shortest one stands. -/
def quoteHalf : List Char := "\"\\ud800\"".toList

/-! ## Tokens -/

/-- How a scalar is written. -/
def Scalar.chars : Scalar → List Char
  | null => "null".toList
  | bool true => "true".toList
  | bool false => "false".toList
  | number digits => digits.toList
  | string (some text) => quote text
  | string none => quoteHalf

/-- How a token is written. -/
def Token.chars : Token → List Char
  | scalar value => value.chars
  | openArray => ['[']
  | closeArray => [']']
  | openObject => ['\x7b']
  | closeObject => ['\x7d']
  | comma => [',']
  | colon => [':']

/-! ## Values -/

namespace Json

mutual

/-- The tokens of a value. -/
def tokens : Json → List Token
  | .scalar value => [.scalar value]
  | .array items => .openArray :: itemTokens items
  | .object members => .openObject :: memberTokens members

/-- The tokens of the items of an array, up to its end. -/
def itemTokens : List Json → List Token
  | [] => [.closeArray]
  | item :: items => item.tokens ++ moreItemTokens items

/-- The tokens of the items that follow the first one, up to the end of the array. -/
def moreItemTokens : List Json → List Token
  | [] => [.closeArray]
  | item :: items => .comma :: item.tokens ++ moreItemTokens items

/-- The tokens of the members of an object, up to its end. -/
def memberTokens : List (JsonText × Json) → List Token
  | [] => [.closeObject]
  | (key, value) :: members =>
    .scalar (.string key) :: .colon :: value.tokens ++ moreMemberTokens members

/-- The tokens of the members that follow the first one, up to the end of the object. -/
def moreMemberTokens : List (JsonText × Json) → List Token
  | [] => [.closeObject]
  | (key, value) :: members =>
    .comma :: .scalar (.string key) :: .colon :: value.tokens ++ moreMemberTokens members

end

/-- The text of a value. -/
def text (j : Json) : String := String.ofList (j.tokens.flatMap Token.chars)

end Json

end FactHierarchy
