import FactHierarchy.Json.Basic

/-!
# The tokens of a JSON text

The lexer reads a text character by character. Between tokens only space, tab, line feed and
carriage return are skipped. Names and numbers go as far as there are characters that can stand
in one, and strings go to the next quote that is not escaped.

What stands between the quotes is then decoded: escapes become characters, and control characters
must not stand there as they are.
-/

set_option autoImplicit false

namespace FactHierarchy

/-! ## Strings -/

/-- A piece of a string: a character, or a surrogate code that an escape stands for. -/
inductive StringPiece where
  | char (c : Char)
  | surrogate (code : Nat)
  deriving DecidableEq, Repr

/-- The value of a hexadecimal digit of either case. -/
def hexValue? (c : Char) : Option Nat :=
  if '0' ≤ c ∧ c ≤ '9' then some (c.toNat - '0'.toNat)
  else if 'a' ≤ c ∧ c ≤ 'f' then some (c.toNat - 'a'.toNat + 10)
  else if 'A' ≤ c ∧ c ≤ 'F' then some (c.toNat - 'A'.toNat + 10)
  else none

/-- The value of four hexadecimal digits. -/
def hexCode? (a b c d : Char) : Option Nat := do
  return (((← hexValue? a) * 16 + (← hexValue? b)) * 16 + (← hexValue? c)) * 16 + (← hexValue? d)

/-- What a code of 16 bits stands for. -/
def codePiece (code : Nat) : StringPiece :=
  if 0xD800 ≤ code ∧ code ≤ 0xDFFF then .surrogate code else .char (Char.ofNat code)

/-- What a letter after a backslash stands for. -/
def letterEscape? : Char → Option Char
  | '"' => some '"'
  | '\\' => some '\\'
  | '/' => some '/'
  | 'b' => some '\x08'
  | 'f' => some '\x0c'
  | 'n' => some '\n'
  | 'r' => some '\r'
  | 't' => some '\t'
  | _ => none

/-- The pieces of what stands between quotes, behind those in `done`, which has the latest
first. -/
def stringPieces (done : List StringPiece) : List Char → Option (List StringPiece)
  | [] => some done.reverse
  | '\\' :: 'u' :: a :: b :: c :: d :: rest =>
    match hexCode? a b c d with
    | some code => stringPieces (codePiece code :: done) rest
    | none => none
  | '\\' :: e :: rest =>
    match letterEscape? e with
    | some c => stringPieces (.char c :: done) rest
    | none => none
  | c :: rest =>
    if c.toNat < 0x20 ∨ c = '\\' then none else stringPieces (.char c :: done) rest

/-- The text of the pieces, behind that in `done`, which has its end first. There is none when a
surrogate code is not part of a pair. -/
def joinPieces (done : List Char) : List StringPiece → JsonText
  | [] => some (String.ofList done.reverse)
  | .char c :: rest => joinPieces (c :: done) rest
  | .surrogate high :: .surrogate low :: rest =>
    if high < 0xDC00 ∧ 0xDC00 ≤ low then
      joinPieces (Char.ofNat (0x10000 + (high - 0xD800) * 0x400 + (low - 0xDC00)) :: done) rest
    else none
  | .surrogate _ :: _ => none

/-- The string of what stands between quotes. -/
def unquote? (raw : List Char) : Option Scalar :=
  (stringPieces [] raw).map fun pieces => .string (joinPieces [] pieces)

/-! ## Numbers and names -/

/-- One digit or more, and what follows. -/
def skipDigits? (cs : List Char) : Option (List Char) :=
  match cs.takeWhile Char.isDigit with
  | [] => none
  | _ => some (cs.dropWhile Char.isDigit)

/-- The whole part of a number, which starts with a zero only if it is zero, and what follows. -/
def skipWhole? : List Char → Option (List Char)
  | '0' :: rest => some rest
  | cs => skipDigits? cs

/-- The fraction of a number, if there is one, and what follows. -/
def skipFraction? : List Char → Option (List Char)
  | '.' :: rest => skipDigits? rest
  | cs => some cs

/-- The exponent of a number, if there is one, and what follows. -/
def skipExponent? : List Char → Option (List Char)
  | c :: rest =>
    if c = 'e' ∨ c = 'E' then
      match rest with
      | '+' :: digits => skipDigits? digits
      | '-' :: digits => skipDigits? digits
      | digits => skipDigits? digits
    else some (c :: rest)
  | [] => some []

/-- The characters are a number from the first to the last. -/
def isNumber (cs : List Char) : Bool :=
  let unsigned := match cs with
    | '-' :: rest => rest
    | cs => cs
  (((skipWhole? unsigned).bind skipFraction?).bind skipExponent?) == some []

/-- The scalar that is written without quotes. -/
def bareScalar? (cs : List Char) : Option Scalar :=
  if cs = "null".toList then some .null
  else if cs = "true".toList then some (.bool true)
  else if cs = "false".toList then some (.bool false)
  else if isNumber cs then some (.number (String.ofList cs))
  else none

/-! ## The lexer -/

/-- Where the lexer stands: between tokens, in a name or number, or in a string, right behind a
backslash or not. The characters read so far have the latest first. -/
inductive LexerPosition where
  | between
  | bare (read : List Char)
  | quoted (read : List Char) (escaped : Bool)
  deriving DecidableEq, Repr

/-- A text read in part: the tokens so far, with the latest first, and the position. -/
structure Lexer where
  tokens : List Token := []
  position : LexerPosition := .between

namespace Lexer

/-- The characters that can stand in a name or number. -/
def isBareChar (c : Char) : Bool := c.isAlphanum || c == '-' || c == '+' || c == '.'

/-- The characters between tokens. -/
def isJsonSpace (c : Char) : Bool := c == ' ' || c == '\t' || c == '\n' || c == '\r'

/-- The token of a single character. -/
def mark? : Char → Option Token
  | '[' => some .openArray
  | ']' => some .closeArray
  | '\x7b' => some .openObject
  | '\x7d' => some .closeObject
  | ',' => some .comma
  | ':' => some .colon
  | _ => none

/-- Read a character between tokens. -/
def start? (tokens : List Token) (c : Char) : Option Lexer :=
  match mark? c with
  | some token => some ⟨token :: tokens, .between⟩
  | none =>
    if isJsonSpace c then some ⟨tokens, .between⟩
    else if c = '"' then some ⟨tokens, .quoted [] false⟩
    else if isBareChar c then some ⟨tokens, .bare [c]⟩
    else none

/-- Read a character. -/
def step (s : Lexer) (c : Char) : Option Lexer :=
  match s.position with
  | .between => start? s.tokens c
  | .bare read =>
    if isBareChar c then some ⟨s.tokens, .bare (c :: read)⟩
    else (bareScalar? read.reverse).bind fun value => start? (.scalar value :: s.tokens) c
  | .quoted read true => some ⟨s.tokens, .quoted (c :: read) false⟩
  | .quoted read false =>
    if c = '"' then
      (unquote? read.reverse).map fun value => ⟨.scalar value :: s.tokens, .between⟩
    else some ⟨s.tokens, .quoted (c :: read) (c == '\\')⟩

/-- The tokens when the text is over. -/
def finish (s : Lexer) : Option (List Token) :=
  match s.position with
  | .between => some s.tokens.reverse
  | .bare read =>
    (bareScalar? read.reverse).map fun value => (Token.scalar value :: s.tokens).reverse
  | .quoted _ _ => none

end Lexer

/-- The tokens of a text. -/
def Token.ofText? (text : String) : Option (List Token) :=
  (text.toList.foldlM Lexer.step {}).bind Lexer.finish

end FactHierarchy
