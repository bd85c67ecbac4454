import StackLogic.Horn.Evaluation
import StackLogic.Horn.ReadError
import StackLogic.Text.Blank

/-!
# Failures of the logic interpreter

A query without solutions is an answer and no failure. A failure is a line that cannot be read or a
limit that is exceeded.
-/

namespace StackLogic.Horn

/-- Why a line is malformed. -/
inductive MalformedCause where
  /-- A part of the line cannot be read. -/
  | unreadable (e : ReadError)
  | emptyBody
  | emptyBodyGoal
  | emptyQueryGoal
  | unknownCommand
  deriving DecidableEq

/-- The text of a cause. -/
def MalformedCause.message : MalformedCause → String
  | unreadable e => e.message
  | emptyBody => "rule body is empty"
  | emptyBodyGoal => "empty goal in rule body"
  | emptyQueryGoal => "empty goal in query"
  | unknownCommand => "unrecognised command"

/-- The limited resources of a query. -/
inductive Resource where
  | steps
  | depth
  deriving DecidableEq, Repr

/-- The name of a resource in messages. -/
def Resource.name : Resource → String
  | steps => "proof steps"
  | depth => "proof depth"

/-- What stops a line. -/
inductive Failure where
  /-- A text that cannot be used. -/
  | malformed (cause : MalformedCause) (text : String)
  /-- A limit that is exceeded. -/
  | exhausted (resource : Resource) (limit : Nat)
  deriving DecidableEq

/-- The message for the user. -/
def Failure.message : Failure → String
  | malformed cause text =>
    "Malformed clause \x27" ++ Text.trimString text ++ "\x27: " ++ cause.message
  | exhausted resource limit =>
    "Resource limit exceeded: " ++ resource.name ++ " (limit " ++ toString limit ++ ")"

/-- The diagnostic about an expression without a value. -/
def EvalError.report (e : EvalError) : String := "Arithmetic error: " ++ e.message

end StackLogic.Horn
