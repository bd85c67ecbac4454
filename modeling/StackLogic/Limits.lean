/-!
# Resource limits

Neither language bounds recursion on its own. The limits make every line end: a word that calls
itself for ever, or a query with an infinite proof tree, is reported instead of run.
-/

namespace StackLogic

/-- The bounds that both interpreters respect. -/
structure Limits where
  /-- How many words of the stack language may be active at once. -/
  callDepth : Nat := 128
  /-- How deep calls of predicates may nest. -/
  proofDepth : Nat := 128
  /-- How many goals a query may try. -/
  proofSteps : Nat := 1000000
  /-- How many solutions of a query are shown. -/
  shown : Nat := 5
  deriving DecidableEq, Repr

end StackLogic
