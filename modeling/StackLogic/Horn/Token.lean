import StackLogic.Horn.Lexeme.Scan
import StackLogic.Text.Blank

/-!
# Tokens of the logic language

A text is read into tokens from left to right; every token knows where it starts. A `%` starts a
comment only at the beginning of the text or right after the symbol `.`; elsewhere it is an
operator character.
-/

namespace StackLogic.Horn

/-- A token. -/
structure Token where
  /-- What was read. -/
  lexeme : Lexeme
  /-- The index of its first character. -/
  position : Nat
  deriving DecidableEq

/-- The tokens of a text. -/
structure Tokens where
  /-- The tokens in order. -/
  items : List Token
  /-- The place after the last token: the number of characters of the text. -/
  finish : Nat
  deriving DecidableEq

namespace Token

/-- Whether the token is this symbol. -/
def isSymbol (t : Token) (s : String) : Bool := t.lexeme == .symbol s

end Token

namespace Tokens

/-- The tokens of `cs`, which starts at `position`. A comment may start here if `boundary` holds. -/
def scanFrom (boundary : Bool) (position : Nat) (cs : List Char) : Except ReadError Tokens :=
  match cs with
  | [] => .ok { items := [], finish := position }
  | c :: rest =>
    if Text.isBlank c then scanFrom boundary (position + 1) rest
    else if c = '%' ∧ boundary then
      scanFrom true (position + 1 + (rest.takeWhile (· != '\n')).length)
        (rest.dropWhile (· != '\n'))
    else
      match _found : Lexeme.scan c rest with
      | .error cause => .error { cause, position }
      | .ok s =>
        let token : Token := { lexeme := s.lexeme, position }
        (scanFrom (token.isSymbol ".") (position + s.width) s.rest).map fun after =>
          { after with items := token :: after.items }
termination_by cs.length
decreasing_by
  · exact Nat.lt_succ_self _
  · have := (List.dropWhile_sublist (l := rest) (· != '\n')).length_le
    simp only [List.length_cons]
    omega
  · have := Lexeme.scan_width _found
    have := Lexeme.scan_pos _found
    simp only [List.length_cons]
    omega

/-- The tokens of a text. -/
def ofString (s : String) : Except ReadError Tokens :=
  scanFrom true 0 s.toList

end Tokens

end StackLogic.Horn
