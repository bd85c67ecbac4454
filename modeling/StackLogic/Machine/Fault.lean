import StackLogic.Machine.Value

/-!
# Faults of the stack language

A fault stops the line that is being run. It is kept as its cause; `Fault.message` is the only
place where a cause becomes a text.
-/

namespace StackLogic.Machine

/-- What an operand should have been. -/
inductive Expected where
  | number
  | integer
  /-- Both operands are numbers, or both are texts. -/
  | alike
  deriving DecidableEq, Repr

/-- The name of an expectation in messages. -/
def Expected.name : Expected → String
  | .number => "number"
  | .integer => "integer"
  | .alike => "two numbers or two strings"

/-- Why a function has no value at its operand. -/
inductive DomainCause where
  | negativeRoot
  | nonPositiveLogarithm
  /-- The number is not the code of a character. -/
  | characterCode (code : Int64)
  /-- More spaces are asked for than the limit allows. -/
  | tooManySpaces (count limit : Int64)
  deriving DecidableEq, Repr

/-- The text of a cause. -/
def DomainCause.message : DomainCause → String
  | .negativeRoot => "square root of a negative number"
  | .nonPositiveLogarithm => "logarithm of a non-positive number"
  | .characterCode code => toString code.toInt ++ " is not a valid character code"
  | .tooManySpaces count limit =>
    toString count.toInt ++ " exceeds the limit of " ++ toString limit.toInt ++ " spaces"

/-- Why a definition or a control structure is malformed. -/
inductive StructureCause where
  | nestedDefinition
  | unnamedDefinition
  | strayEnd
  | recurseOutside
  | elseWithoutIf
  | thenWithoutIf
  | untilWithoutBegin
  | whileWithoutBegin
  | repeatWithoutWhile
  | repeatWithoutBegin
  deriving DecidableEq, Repr

/-- The text of a cause. -/
def StructureCause.message : StructureCause → String
  | .nestedDefinition => "nested definitions are not allowed"
  | .unnamedDefinition => "definition has no name"
  | .strayEnd => "\x27;\x27 without matching \x27:\x27"
  | .recurseOutside => "RECURSE outside of a definition"
  | .elseWithoutIf => "ELSE without IF"
  | .thenWithoutIf => "THEN without IF"
  | .untilWithoutBegin => "UNTIL without BEGIN"
  | .whileWithoutBegin => "WHILE without BEGIN"
  | .repeatWithoutWhile => "REPEAT without WHILE"
  | .repeatWithoutBegin => "REPEAT without BEGIN"

/-- Everything that can stop a line. -/
inductive Fault where
  /-- The word needs more operands than there are. -/
  | underflow (word : String)
  /-- The token is neither a word nor a number. -/
  | unknownWord (name : String)
  | divisionByZero (word : String)
  /-- The word has no value at this operand. -/
  | domain (word : String) (cause : DomainCause)
  /-- The index does not point into the stack. -/
  | badIndex (word : String) (index : Int64) (depth : Nat)
  /-- The text that starts at this position has no closing quote. -/
  | unterminatedText (position : Nat)
  /-- An operand is of the wrong kind. -/
  | mismatch (word : String) (expected : Expected) (got : Kind)
  /-- A definition or control structure is malformed. -/
  | malformed (cause : StructureCause)
  /-- Too many words are active at once. -/
  | callDepth (limit : Nat)
  deriving DecidableEq, Repr

namespace Fault

/-- The message for the user. -/
def message : Fault → String
  | underflow word => "Stack underflow in " ++ word
  | unknownWord name => "Unknown word: " ++ name
  | divisionByZero word => "Division by zero in " ++ word
  | domain word cause => "Domain error in " ++ word ++ ": " ++ cause.message
  | badIndex word index depth =>
    "Invalid index " ++ toString index.toInt ++ " for " ++ word ++ " (depth " ++ toString depth
      ++ ")"
  | unterminatedText position =>
    "Unterminated string starting at column " ++ toString (position + 1)
  | mismatch word expected got =>
    "Type error in " ++ word ++ ": expected " ++ expected.name ++ ", got " ++ got.name
  | malformed cause => "Compile error: " ++ cause.message
  | callDepth limit => "Return stack overflow (limit " ++ toString limit ++ ")"

/-- The diagnostic line that follows the message. Only a wrong kind of operand has one. -/
def diagnostic? : Fault → Option String
  | mismatch word expected got =>
    some ("caught: TypeMismatch \x7b word: \x22" ++ word ++ "\x22, expected: \x22" ++ expected.name
      ++ "\x22, got: \x22" ++ got.name ++ "\x22 \x7d")
  | _ => none

end Fault

end StackLogic.Machine
