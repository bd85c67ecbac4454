import StackLogic.Decimal.Layout

/-!
# Values of the stack language

A stack cell holds a word of sixty-four bits, a double or a text. There are no separate truth
values: a comparison yields `-1` or `0`, and every value can be asked whether it counts as true.
-/

namespace StackLogic.Machine

/-- The three kinds of values. -/
inductive Kind where
  | integer
  | float
  | string
  deriving DecidableEq, Repr

/-- The name of a kind in messages. -/
def Kind.name : Kind → String
  | .integer => "integer"
  | .float => "float"
  | .string => "string"

/-- A stack cell. -/
inductive Value where
  /-- An integer; its arithmetic wraps around. -/
  | int (n : Int64)
  /-- A floating-point number. -/
  | float (x : Float)
  /-- A text, without the quotes it was written in. -/
  | str (s : String)
  deriving DecidableEq

namespace Value

/-- The value of a comparison. -/
def ofBool (b : Bool) : Value := .int (if b then -1 else 0)

/-- The kind of a value. -/
def kind : Value → Kind
  | .int _ => .integer
  | .float _ => .float
  | .str _ => .string

/-- The integer, if the value is one. -/
def int? : Value → Option Int64
  | .int n => some n
  | _ => none

/-- The value as a double, if it is a number. -/
def float? : Value → Option Float
  | .int n => some n.toFloat
  | .float x => some x
  | .str _ => none

/-- Whether the value counts as true. -/
def isTruthy : Value → Bool
  | .int n => n != 0
  | .float x => x != 0.0
  | .str s => !s.isEmpty

/-- What `.` shows. -/
def display : Value → String
  | .int n => toString n.toInt
  | .float x => Decimal.pointed x
  | .str s => s

/-- What a listing of the stack shows: as `display`, with quotes around a text. -/
def quoted : Value → String
  | .str s => "\x22" ++ s ++ "\x22"
  | v => v.display

end Value

end StackLogic.Machine
