import StackLogic.Decimal.Reading
import StackLogic.Horn.Bindings
import StackLogic.Horn.Expr

/-!
# Evaluating expressions

Integer arithmetic is exact: a result that does not fit in sixty-four bits is an error, never a
wrong number. Division with `//` rounds down, and `mod` gives the remainder that belongs to it. A
float among the operands makes the result a float.
-/

namespace StackLogic.Horn

/-- Why an expression has no value. -/
inductive EvalError where
  | overflow
  | divisionByZero
  | integerDivisionByZero
  | moduloByZero
  | zeroToNegative
  | negativeRoot
  /-- A float that is no integer in range. -/
  | notAnInteger
  | argumentCount (f : Function)
  | unbound (name : String)
  | notANumber (t : Term)

/-- The text of an error. -/
def EvalError.message : EvalError → String
  | overflow => "integer overflow"
  | divisionByZero => "division by zero"
  | integerDivisionByZero => "integer division by zero"
  | moduloByZero => "modulo by zero"
  | zeroToNegative => "zero raised to a negative power"
  | negativeRoot => "math domain error in sqrt"
  | notAnInteger => "cannot convert to integer"
  | argumentCount f => "wrong number of arguments to " ++ f.name
  | unbound name => "arguments are not sufficiently instantiated: " ++ name
  | notANumber t => t.display ++ " is not a number"

namespace Number

/-- The integer as a number, if it fits. -/
def exact (n : Int) : Except EvalError Number :=
  match Decimal.fit? n with
  | some w => .ok (int w)
  | none => .error .overflow

/-- The power of an integer. The exponent has to fit in thirty-two bits. A base other than `0`,
`1` and `-1` is not raised to a power that cannot fit. -/
def power (a : Int) (e : Nat) : Except EvalError Number :=
  if UInt32.size ≤ e then .error .overflow
  else if a = 0 then exact (if e = 0 then 1 else 0)
  else if a = 1 then exact 1
  else if a = -1 then exact (if e % 2 = 0 then 1 else -1)
  else if 64 ≤ e then .error .overflow
  else exact (Int.pow a e)

/-- The quotient of two integers, rounded down. The machine rounds toward zero, which is one too much
for an inexact quotient of operands with different signs. -/
def floorQuotient (a b : Int64) : Except EvalError Number :=
  if b = 0 then .error .integerDivisionByZero
  else if a = Int64.minValue ∧ b = -1 then .error .overflow
  else
    let q := a / b
    .ok (int (if a % b != 0 && (decide (a < 0) != decide (b < 0)) then q - 1 else q))

/-- The remainder that belongs to the quotient rounded down: it has the sign of the divisor, while
that of the machine has the sign of the dividend. -/
def floorRemainder (a b : Int64) : Except EvalError Number :=
  if b = 0 then .error .moduloByZero
  -- the quotient of the machine has to fit, too
  else if a = Int64.minValue ∧ b = -1 then .error .overflow
  else
    let r := a % b
    .ok (int (if r != 0 && (decide (r < 0) != decide (b < 0)) then r + b else r))

/-- The value of an operator on two integers. -/
def applyInts (op : BinaryOp) (a b : Int64) : Except EvalError Number :=
  match op with
  | .add => exact (a.toInt + b.toInt)
  | .sub => exact (a.toInt - b.toInt)
  | .mul => exact (a.toInt * b.toInt)
  | .div => if b = 0 then .error .divisionByZero else .ok (float (a.toFloat / b.toFloat))
  | .floorDiv => floorQuotient a b
  | .mod => floorRemainder a b
  | .pow =>
    if 0 ≤ b.toInt then power a.toInt b.toInt.toNat
    else if a = 0 then .error .zeroToNegative
    else .ok (float (a.toFloat.pow b.toFloat))

/-- The remainder with the sign of the divisor. -/
def floorMod (x y : Float) : Float :=
  let r := Decimal.remainder x y
  if r != 0.0 && (decide (r < 0.0) != decide (y < 0.0)) then r + y else r

/-- The value of an operator on two doubles. -/
def applyFloats (op : BinaryOp) (x y : Float) : Except EvalError Number :=
  match op with
  | .add => .ok (float (x + y))
  | .sub => .ok (float (x - y))
  | .mul => .ok (float (x * y))
  | .div => if y == 0.0 then .error .divisionByZero else .ok (float (x / y))
  | .floorDiv => if y == 0.0 then .error .divisionByZero else .ok (float (x / y).floor)
  | .mod => if y == 0.0 then .error .moduloByZero else .ok (float (floorMod x y))
  | .pow => if x == 0.0 && y < 0.0 then .error .zeroToNegative else .ok (float (x.pow y))

/-- The value of an operator. -/
def apply (op : BinaryOp) (left right : Number) : Except EvalError Number :=
  match left, right with
  | int a, int b => applyInts op a b
  | _, _ => applyFloats op left.toFloat right.toFloat

/-- The opposite number. -/
def negate : Number → Except EvalError Number
  | int n => exact (-n.toInt)
  | float x => .ok (float (-x))

/-- The nearest integral double; a half goes to the even neighbour. -/
def roundHalfEven (x : Float) : Float :=
  let floor := x.floor
  let diff := x - floor
  if 0.5 < diff then floor + 1.0
  else if diff < 0.5 then floor
  else if Decimal.remainder floor 2.0 == 0.0 then floor
  else floor + 1.0

/-- An integral double as an integer, if it is clearly in range. -/
def ofIntegral (x : Float) : Except EvalError Number :=
  if !x.isFinite || 9.2e18 <= x.abs then .error .notAnInteger else .ok (int x.toInt64)

/-- The best of several numbers: the first that no later one beats. -/
def best (c : Comparison) (first : Number) (others : List Number) : Number :=
  others.foldl (fun best candidate => if c.holds candidate best then candidate else best) first

/-- The value of a function with one argument. -/
def applyUnary (f : Function) (x : Number) : Except EvalError Number :=
  match f with
  | .abs => match x with
    | int n => exact n.toInt.natAbs
    | float y => .ok (float y.abs)
  | .round => ofIntegral (roundHalfEven x.toFloat)
  | .int => match x with
    | int n => .ok (int n)
    | float y => ofIntegral (Decimal.truncate y)
  | .float => .ok (float x.toFloat)
  | .sin => .ok (float x.toFloat.sin)
  | .cos => .ok (float x.toFloat.cos)
  | .sqrt => if x.toFloat < 0.0 then .error .negativeRoot else .ok (float x.toFloat.sqrt)
  | .max | .min => .ok x

/-- The value of a function. -/
def applyFunction (f : Function) (args : List Number) : Except EvalError Number :=
  match f, args with
  | .max, first :: others => .ok (best .gt first others)
  | .min, first :: others => .ok (best .lt first others)
  | f, [x] => applyUnary f x
  | f, _ => .error (.argumentCount f)

end Number

namespace Expr

mutual

/-- The value of an expression under bindings. -/
def eval (b : Bindings) : Expr → Except EvalError Number
  | num n => .ok n
  | var name =>
    match b.resolve (.var name) with
    | .num n => .ok n
    | .var _ => .error (.unbound name)
    | t => .error (.notANumber t)
  | neg e => (e.eval b).bind Number.negate
  | binary op left right => do
    let l ← left.eval b
    let r ← right.eval b
    Number.apply op l r
  | call f args => (evalAll b args).bind (Number.applyFunction f)

/-- The values of several expressions, from left to right. -/
def evalAll (b : Bindings) : List Expr → Except EvalError (List Number)
  | [] => .ok []
  | e :: rest => do
    let n ← e.eval b
    let ns ← evalAll b rest
    return n :: ns

end

end Expr

end StackLogic.Horn
