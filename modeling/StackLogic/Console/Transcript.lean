import StackLogic.Language
import StackLogic.Output

/-!
# The transcript

The transcript records every submitted line and what it has led to.
-/

namespace StackLogic.Console

/-- What an entry of the transcript is. -/
inductive EntryKind where
  | input
  | output
  | debug
  | error
  deriving DecidableEq, Repr

/-- An entry of the transcript. -/
structure Entry where
  /-- What it is. -/
  kind : EntryKind
  /-- The language it belongs to. -/
  language : Language
  /-- Its text. -/
  text : String
  deriving DecidableEq, Repr

namespace Entry

/-- The entry for a submitted line. -/
def ofInput (language : Language) (line : String) : Entry :=
  { kind := .input, language, text := language.prompt ++ line }

/-- The entry for a line that was emitted by a line with this outcome. -/
def ofOutput (language : Language) (outcome : Outcome) (line : OutputLine) : Entry :=
  { kind := match line.channel, outcome with
      | .debug, _ => .debug
      | .log, .failed => .error
      | .log, .done => .output
    language
    text := line.text }

end Entry

end StackLogic.Console
