import StackLogic.Horn.Lexeme

/-!
# Texts that cannot be read

A text of the logic language is refused with a cause and the index of the character where it went
wrong. The wording of every cause is in this module.
-/

namespace StackLogic.Horn

/-- How the place after the last token is named in messages. -/
def endDescription : String := "end of input"

/-- What a parser was looking for. -/
inductive Expectation where
  | predicateName
  | arguments
  | commaOrParen
  | term
  | commaOrBracket
  | noTail
  | endOfInput
  | closeParen
  | functionName
  | openParen
  | operand
  deriving DecidableEq, Repr

/-- How an expectation is told. -/
def Expectation.message : Expectation → String
  | predicateName => "expected a predicate name"
  | arguments => "empty argument list"
  | commaOrParen => "expected \x27,\x27 or \x27)\x27"
  | term => "expected a term"
  | commaOrBracket => "expected \x27,\x27 or \x27]\x27"
  | noTail => "list tails \x27[H|T]\x27 are not supported"
  | endOfInput => "unexpected trailing input"
  | closeParen => "expected \x27)\x27"
  | functionName => "unknown arithmetic function"
  | openParen => "expected \x27(\x27 after function name"
  | operand => "expected a number, variable or \x27(\x27"

/-- Why a text cannot be read. -/
inductive ReadCause where
  /-- No token starts with this character. -/
  | unexpectedCharacter (c : Char)
  /-- The integer does not fit in sixty-four bits. -/
  | integerRange (digits : String)
  | unterminatedString
  | unterminatedAtom
  /-- Another token was expected; none means that the text has ended. -/
  | unexpected (expectation : Expectation) (found : Option Lexeme)
  /-- An operator has nothing on its left. -/
  | missingLeft (operator : String)
  deriving DecidableEq

/-- The text of a cause. -/
def ReadCause.message : ReadCause → String
  | unexpectedCharacter c => "Unexpected character \x27" ++ c.toString ++ "\x27"
  | integerRange digits => "Integer literal \x27" ++ digits ++ "\x27 is out of range"
  | unterminatedString => "Unterminated string"
  | unterminatedAtom => "Unterminated quoted atom"
  | unexpected expectation found =>
    expectation.message ++ ", found " ++ (found.map Lexeme.describe).getD endDescription
  | missingLeft operator => "missing left operand for \x27" ++ operator ++ "\x27"

/-- A text that cannot be read: the reason and the place. -/
structure ReadError where
  /-- Why. -/
  cause : ReadCause
  /-- The index of the character where. -/
  position : Nat
  deriving DecidableEq

namespace ReadError

/-- The message about a text that has no tokens. -/
def lexerMessage (e : ReadError) : String :=
  "Lexer error at column " ++ toString (e.position + 1) ++ ": " ++ e.cause.message

/-- The message about a text that is no term, head or goal. -/
def message (e : ReadError) : String :=
  "Parse error at column " ++ toString (e.position + 1) ++ ": " ++ e.cause.message

end ReadError

end StackLogic.Horn
