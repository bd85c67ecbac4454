import StackLogic.Decimal.Layout

/-!
# Lexemes

A lexeme is what a token of the logic language says, without the place where it stands.
-/

namespace StackLogic.Horn

/-- A token without its position. -/
inductive Lexeme where
  | variableName (name : String)
  | atom (name : String)
  | int (n : Int64)
  | float (x : Float)
  | str (s : String)
  /-- A run of operator characters. -/
  | symbol (s : String)
  /-- `!` -/
  | bang
  /-- `(` -/
  | openParen
  /-- `)` -/
  | closeParen
  /-- `[` -/
  | openBracket
  /-- `]` -/
  | closeBracket
  | comma
  /-- `|` -/
  | pipe
  deriving DecidableEq

/-- How a token is named in messages. -/
def Lexeme.describe : Lexeme → String
  | variableName name => "variable \x27" ++ name ++ "\x27"
  | atom name => "atom \x27" ++ name ++ "\x27"
  | int n => "number " ++ toString n.toInt
  | float x => "number " ++ Decimal.plain x
  | str s => "string \x22" ++ s ++ "\x22"
  | symbol s => "\x27" ++ s ++ "\x27"
  | bang => "\x27!\x27"
  | openParen => "\x27(\x27"
  | closeParen => "\x27)\x27"
  | openBracket => "\x27[\x27"
  | closeBracket => "\x27]\x27"
  | comma => "\x27,\x27"
  | pipe => "\x27|\x27"

end StackLogic.Horn
