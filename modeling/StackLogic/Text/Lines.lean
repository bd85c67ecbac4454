/-!
# Lines of a text

A line ends with a line feed or with the end of the text. A carriage return directly before the
line feed belongs to the line's end; any other carriage return is an ordinary character.
-/

namespace StackLogic.Text

/-- The lines of a text without their ends; a text that ends with a line feed has no empty last
line. -/
def lines : List Char → List (List Char)
  | [] => []
  | '\n' :: rest => [] :: lines rest
  | '\r' :: '\n' :: rest => [] :: lines rest
  | c :: rest =>
    match lines rest with
    | [] => [[c]]
    | line :: others => (c :: line) :: others

/-- The lines of a string. -/
def linesOfString (s : String) : List String :=
  (lines s.toList).map String.ofList

end StackLogic.Text
