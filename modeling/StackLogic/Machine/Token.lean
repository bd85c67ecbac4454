import StackLogic.Machine.Fault
import StackLogic.Text.Blank

/-!
# Tokens of the stack language

A line is split at blanks. Two kinds of comments are dropped: `( … )`, and `\` up to the end of the
line; both have to start where a token could start. A text in double quotes is one token even when
it holds blanks, and keeps its quotes.
-/

namespace StackLogic.Machine

/-- A token as it was written. -/
abbrev Token := String

namespace Token

/-- The quote around a text. -/
def quote : Char := '\x22'

/-- Whether the token is a text in quotes. -/
def isQuoted (t : Token) : Bool :=
  2 ≤ t.length && t.toList.head? == some quote && t.toList.getLast? == some quote

/-- A text without its quotes. -/
def unquote (t : Token) : String :=
  String.ofList (t.toList.tail.dropLast)

/-- The tokens of `cs`, which starts at `position`; `fresh` says that a blank or nothing stands
before it. -/
def scanFrom (fresh : Bool) (position : Nat) (cs : List Char) : Except Fault (List Token) :=
  match cs with
  | [] => .ok []
  | c :: rest =>
    if Text.isBlank c then scanFrom true (position + 1) rest
    else if c = '(' ∧ fresh then
      scanFrom false (position + 2 + (rest.takeWhile (· != ')')).length)
        (rest.dropWhile (· != ')')).tail
    else if c = '\\' ∧ fresh then
      scanFrom false (position + 1 + (rest.takeWhile (· != '\n')).length)
        (rest.dropWhile (· != '\n'))
    else if c = quote then
      if quote ∈ rest then
        let text := rest.takeWhile (· != quote)
        (scanFrom false (position + 2 + text.length) (rest.dropWhile (· != quote)).tail).map
          (String.ofList (c :: text ++ [quote]) :: ·)
      else .error (.unterminatedText position)
    else
      let word := rest.takeWhile (!Text.isBlank ·)
      (scanFrom false (position + 1 + word.length) (rest.dropWhile (!Text.isBlank ·))).map
        (String.ofList (c :: word) :: ·)
termination_by cs.length
decreasing_by
  · exact Nat.lt_succ_self _
  · have := (List.dropWhile_sublist (l := rest) (· != ')')).length_le
    simp only [List.length_cons, List.length_tail]
    omega
  · have := (List.dropWhile_sublist (l := rest) (· != '\n')).length_le
    simp only [List.length_cons]
    omega
  · have := (List.dropWhile_sublist (l := rest) (· != quote)).length_le
    simp only [List.length_cons, List.length_tail]
    omega
  · have := (List.dropWhile_sublist (l := rest) (!Text.isBlank ·)).length_le
    simp only [List.length_cons]
    omega

/-- The tokens of a line. -/
def scan (line : String) : Except Fault (List Token) :=
  scanFrom true 0 line.toList

end Token

end StackLogic.Machine
