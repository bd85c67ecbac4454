import StackLogic.Decimal.Reading
import StackLogic.Machine.Value

/-!
# Number literals of the stack language

A token with a point is read as a float, any other as an integer.
-/

namespace StackLogic.Machine

/-- The number that a token stands for, if any. -/
def Value.ofLiteral? (token : String) : Option Value :=
  let cs := token.toList
  if '.' ∈ cs then (Decimal.float? cs).map .float else (Decimal.word? cs).map .int

end StackLogic.Machine
