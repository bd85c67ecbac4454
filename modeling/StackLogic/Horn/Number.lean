import StackLogic.Decimal.Layout

/-!
# Numbers of the logic language

A number is an integer of sixty-four bits or a double. Two integers are compared as integers; as
soon as a double takes part, both are compared as doubles.
-/

namespace StackLogic.Horn

/-- An integer or a floating-point number. -/
inductive Number where
  | int (n : Int64)
  | float (x : Float)
  deriving DecidableEq

namespace Number

/-- The number as a double. -/
def toFloat : Number → Float
  | int n => n.toFloat
  | float x => x

/-- The text of a number. -/
def display : Number → String
  | int n => toString n.toInt
  | float x => Decimal.pointed x

/-- Whether two numbers have the same value. -/
def sameValue : Number → Number → Bool
  | int a, int b => a == b
  | a, b => a.toFloat == b.toFloat

/-- The order of two numbers; there is none when one of them is not a number. -/
def order? : Number → Number → Option Ordering
  | int a, int b => some (compare a b)
  | a, b =>
    let x := a.toFloat
    let y := b.toFloat
    if x < y then some .lt
    else if y < x then some .gt
    else if x == y then some .eq
    else none

end Number

/-- The comparisons of numbers. -/
inductive Comparison where
  | eq | ne | lt | gt | le | ge
  deriving DecidableEq, Repr

namespace Comparison

/-- How a comparison is written. -/
def symbol : Comparison → String
  | eq => "=:="
  | ne => "=\\="
  | lt => "<"
  | gt => ">"
  | le => "=<"
  | ge => ">="

/-- The comparison that is written this way. -/
def ofSymbol? : String → Option Comparison
  | "=:=" => some eq
  | "=\\=" => some ne
  | "<" => some lt
  | ">" => some gt
  | "=<" => some le
  | ">=" => some ge
  | _ => none

/-- Whether a comparison admits this order of its operands. Incomparable numbers are unequal and
nothing else. -/
def admits : Comparison → Option Ordering → Bool
  | eq, some o => o == .eq
  | ne, some o => o != .eq
  | lt, some o => o == .lt
  | gt, some o => o == .gt
  | le, some o => o != .gt
  | ge, some o => o != .lt
  | c, none => c == ne

/-- Whether a comparison holds. -/
def holds (c : Comparison) (left right : Number) : Bool :=
  c.admits (left.order? right)

end Comparison

end StackLogic.Horn
