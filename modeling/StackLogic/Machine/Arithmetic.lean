import StackLogic.Decimal.Binary64
import StackLogic.Machine.Operands

/-!
# Arithmetic and comparison of values

Two integers give an integer, which wraps around at sixty-four bits; a float among the operands
makes the result a float. Division always gives a float. The remainder takes the sign of the
divisor. Numbers are compared with numbers and texts with texts.
-/

namespace StackLogic.Machine

namespace Value

/-- The value as a double, or a fault that names the word. -/
def expectNumber (word : String) (v : Value) : Except Fault Float :=
  match v.float? with
  | some x => .ok x
  | none => .error (.mismatch word .number v.kind)

/-- The value as an integer, or a fault that names the word. -/
def expectInt (word : String) (v : Value) : Except Fault Int64 :=
  match v.int? with
  | some n => .ok n
  | none => .error (.mismatch word .integer v.kind)

/-- Work on integers if both operands are, and on doubles otherwise. -/
def numeric (word : String) (onInts : Int64 → Int64 → Int64) (onFloats : Float → Float → Float)
    (a b : Value) : Except Fault Value :=
  match a, b with
  | .int x, .int y => .ok (.int (onInts x y))
  | _, _ => do
    let x ← a.expectNumber word
    let y ← b.expectNumber word
    return .float (onFloats x y)

/-- The sum of two numbers, or two texts joined. -/
def add (word : String) (a b : Value) : Except Fault Value :=
  match a, b with
  | .str x, .str y => .ok (.str (x ++ y))
  | _, _ => numeric word (· + ·) (· + ·) a b

/-- The quotient as a float. -/
def divide (word : String) (a b : Value) : Except Fault Value := do
  let x ← a.expectNumber word
  let y ← b.expectNumber word
  if y == 0.0 then throw (.divisionByZero word)
  return .float (x / y)

/-- The remainder of integers with the sign of the divisor. -/
def floorMod (x y : Int64) : Int64 :=
  let r := x % y
  if r != 0 && (decide (r < 0) != decide (y < 0)) then r + y else r

/-- The remainder of doubles with the sign of the divisor. -/
def floorModFloat (x y : Float) : Float :=
  let r := Decimal.remainder x y
  if r != 0.0 && (decide (r < 0.0) != decide (y < 0.0)) then r + y else r

/-- The remainder with the sign of the divisor. -/
def modulo (word : String) (a b : Value) : Except Fault Value :=
  match a, b with
  | .int x, .int y =>
    if y = 0 then .error (.divisionByZero word) else .ok (.int (floorMod x y))
  | _, _ => do
    let x ← a.expectNumber word
    let y ← b.expectNumber word
    if y == 0.0 then throw (.divisionByZero word)
    return .float (floorModFloat x y)

/-- The opposite number. -/
def negate (word : String) (a : Value) : Except Fault Value :=
  match a with
  | .int n => .ok (.int (-n))
  | .float x => .ok (.float (-x))
  | .str _ => .error (.mismatch word .number a.kind)

/-- The distance from zero; that of the least integer wraps around to itself. -/
def magnitude (word : String) (a : Value) : Except Fault Value :=
  match a with
  | .int n => .ok (.int (if n < 0 then -n else n))
  | .float x => .ok (.float x.abs)
  | .str _ => .error (.mismatch word .number a.kind)

/-- The order of two doubles; there is none when one of them is not a number. -/
def orderFloats (x y : Float) : Option Ordering :=
  if x < y then some .lt
  else if y < x then some .gt
  else if x == y then some .eq
  else none

/-- Compare two numbers or two texts. -/
def order (word : String) (a b : Value) : Except Fault (Option Ordering) :=
  match a, b with
  | .int x, .int y => .ok (some (compare x y))
  | .str x, .str y => .ok (some (compare x y))
  | .str _, other => .error (.mismatch word .alike other.kind)
  | other, .str _ => .error (.mismatch word .alike other.kind)
  | _, _ => do
    let x ← a.expectNumber word
    let y ← b.expectNumber word
    return orderFloats x y

/-- Whether two numbers or two texts are equal. -/
def equals (word : String) (a b : Value) : Except Fault Bool :=
  match a, b with
  | .int x, .int y => .ok (x == y)
  | .str x, .str y => .ok (x == y)
  | .str _, other => .error (.mismatch word .alike other.kind)
  | other, .str _ => .error (.mismatch word .alike other.kind)
  | _, _ => do
    let x ← a.expectNumber word
    let y ← b.expectNumber word
    return x == y

/-- The truth value of a test of the order; incomparable numbers pass no test. -/
def testOrder (word : String) (test : Ordering → Bool) (a b : Value) : Except Fault Value := do
  let o ← order word a b
  return ofBool (o.any test)

/-- The operand itself unless the order of the two is `o`, then the other one. -/
def unlessOrder (word : String) (o : Ordering) (a b : Value) : Except Fault Value := do
  let found ← order word a b
  return if found = some o then b else a

/-- Work on the bits of two integers. -/
def bitwise (word : String) (f : Int64 → Int64 → Int64) (a b : Value) : Except Fault Value := do
  let x ← a.expectInt word
  let y ← b.expectInt word
  return .int (f x y)

/-- A function of a double; it may have no value there. -/
def function (word : String) (f : Float → Except DomainCause Float) (a : Value) :
    Except Fault Value := do
  let x ← a.expectNumber word
  match f x with
  | .ok y => return .float y
  | .error cause => throw (.domain word cause)

end Value

end StackLogic.Machine
