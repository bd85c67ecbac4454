import StackLogic.Horn.Term

/-!
# Arithmetic expressions

Expressions stand on the right of `is` and on both sides of a comparison. They are kept as trees;
a variable in an expression has to be bound to a number when the expression is evaluated.
-/

namespace StackLogic.Horn

/-- The operators with two operands. -/
inductive BinaryOp where
  | add | sub | mul | div | floorDiv | mod | pow
  deriving DecidableEq, Repr

/-- How an operator is written. -/
def BinaryOp.symbol : BinaryOp → String
  | add => "+"
  | sub => "-"
  | mul => "*"
  | div => "/"
  | floorDiv => "//"
  | mod => "mod"
  | pow => "**"

/-- The functions an expression may call. -/
inductive Function where
  | abs | round | int | float | max | min | sin | cos | sqrt
  deriving DecidableEq, Repr

namespace Function

/-- The name of a function. -/
def name : Function → String
  | abs => "abs"
  | round => "round"
  | int => "int"
  | float => "float"
  | max => "max"
  | min => "min"
  | sin => "sin"
  | cos => "cos"
  | sqrt => "sqrt"

/-- The function with this name. -/
def ofName? : String → Option Function
  | "abs" => some abs
  | "round" => some round
  | "int" => some int
  | "float" => some float
  | "max" => some max
  | "min" => some min
  | "sin" => some sin
  | "cos" => some cos
  | "sqrt" => some sqrt
  | _ => none

/-- A function is found under its name. -/
theorem ofName?_name (f : Function) : ofName? f.name = some f := by
  cases f <;> rfl

end Function

/-- An arithmetic expression. -/
inductive Expr where
  | num (n : Number)
  | var (name : String)
  | neg (e : Expr)
  | binary (op : BinaryOp) (left right : Expr)
  | call (f : Function) (args : List Expr)

namespace Expr

mutual

/-- Add the variables of an expression to a list of names, each once. -/
def addVariables (names : List String) : Expr → List String
  | num _ => names
  | var name => Term.addName names name
  | neg e => e.addVariables names
  | binary _ left right => right.addVariables (left.addVariables names)
  | call _ args => addVariablesAll names args

/-- Add the variables of several expressions. -/
def addVariablesAll (names : List String) : List Expr → List String
  | [] => names
  | e :: rest => addVariablesAll (e.addVariables names) rest

end

mutual

/-- Rename the variables of an expression. Here `_` is a name like any other. -/
def rename (f : String → String) : Expr → Expr
  | num n => num n
  | var name => var (f name)
  | neg e => neg (e.rename f)
  | binary op left right => binary op (left.rename f) (right.rename f)
  | call g args => call g (renameAll f args)

/-- Rename the variables of several expressions. -/
def renameAll (f : String → String) : List Expr → List Expr
  | [] => []
  | e :: rest => e.rename f :: renameAll f rest

end

end Expr

end StackLogic.Horn
