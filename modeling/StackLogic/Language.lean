import StackLogic.Text.Blank

/-!
# The two languages

A line is run either by the stack machine or by the logic interpreter. A language is chosen by its
name or by one of the usual file extensions.
-/

namespace StackLogic

/-- The languages a line can be written in. -/
inductive Language where
  /-- The stack language. -/
  | forth
  /-- The logic language. -/
  | prolog
  deriving DecidableEq, Repr

namespace Language

/-- The language that is taken when none is chosen. -/
def standard : Language := .forth

/-- The other language. -/
def toggle : Language → Language
  | forth => prolog
  | prolog => forth

/-- The name of a language. -/
def name : Language → String
  | forth => "forth"
  | prolog => "prolog"

/-- What stands before a line that is typed. -/
def prompt (l : Language) : String := l.name ++ "> "

/-- The language with this name or file extension, blanks around it and letter case aside. -/
def ofName? (s : String) : Option Language :=
  match String.ofList ((Text.trim s.toList).map Char.toLower) with
  | "forth" | "fs" | "4th" => some forth
  | "prolog" | "pl" => some prolog
  | _ => none

/-- The message about a name that belongs to no language. -/
def unknownMessage (s : String) : String :=
  "unknown language \x27" ++ s ++ "\x27 (expected forth or prolog)"

/-- Changing twice leads back. -/
@[simp] theorem toggle_toggle (l : Language) : l.toggle.toggle = l := by
  cases l <;> rfl

end Language

end StackLogic
