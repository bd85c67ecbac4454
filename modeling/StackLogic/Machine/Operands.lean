import StackLogic.Machine.Fault

/-!
# The operand stack

The stack is a list with the top in front. An operation that finds too few cells names the word
that asked for them.
-/

namespace StackLogic.Machine

/-- The operand stack, the top first. -/
abbrev Operands := List Value

namespace Operands

/-- Whether there are `n` cells. -/
def require (s : Operands) (n : Nat) (word : String) : Except Fault Unit :=
  if s.length < n then .error (.underflow word) else .ok ()

/-- Take the top. -/
def pop (s : Operands) (word : String) : Except Fault (Value × Operands) :=
  match s with
  | [] => .error (.underflow word)
  | v :: rest => .ok (v, rest)

/-- The cell `n` places below the top. -/
def peek (s : Operands) (n : Nat) (word : String) : Except Fault Value :=
  match s[n]? with
  | none => .error (.underflow word)
  | some v => .ok v

/-- Take out the cell `n` places below the top. -/
def remove (s : Operands) (n : Nat) (word : String) : Except Fault (Value × Operands) :=
  match s[n]? with
  | none => .error (.underflow word)
  | some v => .ok (v, s.eraseIdx n)

/-- Drop the `n` uppermost cells, or all if there are fewer. -/
def discard (s : Operands) (n : Nat) : Operands := s.drop n

/-- The cells from the bottom to the top. -/
def fromBottom (s : Operands) : List Value := s.reverse

end Operands

end StackLogic.Machine
