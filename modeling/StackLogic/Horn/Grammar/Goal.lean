import StackLogic.Horn.Goal
import StackLogic.Horn.Grammar.Expr

/-!
# Reading goals

The first operator outside of all brackets decides what a goal is: `=`, `\=`, `is` or a comparison.
A goal without such an operator is a cut, one of the goals with a fixed meaning, or a call.
-/

namespace StackLogic.Horn

namespace Grammar

/-- The operators that make a goal. -/
inductive GoalOperator where
  | unify
  | notUnify
  | is
  | compare (c : Comparison)
  deriving DecidableEq

namespace GoalOperator

/-- How an operator is written. -/
def symbol : GoalOperator → String
  | unify => "="
  | notUnify => "\\="
  | is => "is"
  | compare c => c.symbol

/-- The operator that a lexeme stands for. -/
def ofLexeme? : Lexeme → Option GoalOperator
  | .atom "is" => some is
  | .symbol "=" => some unify
  | .symbol "\\=" => some notUnify
  | .symbol s => (Comparison.ofSymbol? s).map compare
  | _ => none

end GoalOperator

/-- How the nesting depth changes at a lexeme. A closing bracket that closes nothing changes
nothing. -/
def nest (depth : Nat) : Lexeme → Nat
  | .openParen | .openBracket => depth + 1
  | .closeParen | .closeBracket => depth - 1
  | _ => depth

/-- The tokens before the first operator outside of brackets, the operator with its position, and
the tokens after it. -/
def splitOperator (depth : Nat) : List Token →
    Option (List Token × GoalOperator × Nat × List Token)
  | [] => none
  | t :: rest =>
    match depth, GoalOperator.ofLexeme? t.lexeme with
    | 0, some op => some ([], op, t.position, rest)
    | depth, _ =>
      (splitOperator (nest depth t.lexeme) rest).map fun (left, found) => (t :: left, found)

/-- Read a whole list of tokens with a reader. -/
def whole {α : Type} (read : (finish : Nat) → (ts : List Token) → Reading α ts) (finish : Nat)
    (ts : List Token) : Except ReadError α := do
  let parsed ← read finish ts
  expectEnd finish parsed.rest
  return parsed.value

/-- Where the tokens before an operator end: at the last of them. -/
def lastPosition (ts : List Token) : Nat :=
  (ts.getLast?.map Token.position).getD 0

/-- The goal that a predicate name with arguments stands for. -/
def goalOfHead (name : String) (args : List Term) : Goal :=
  match name, args with
  | "true", [] => .succeed
  | "fail", [] => .fail
  | "false", [] => .fail
  | "nl", [] => .newline
  | "write", [t] => .write t
  | "member", [element, list] => .member element list
  | name, args => .call name args

/-- Read a goal without an operator. -/
def simpleGoal (finish : Nat) (ts : List Token) : Except ReadError Goal :=
  match ts with
  | ⟨.bang, _⟩ :: rest => do
    expectEnd finish rest
    return .cut
  | ts => do
    let (name, args) ← whole head finish ts
    return goalOfHead name args

/-- Read the goal with this operator between these tokens. -/
def operatorGoal (left : List Token) (op : GoalOperator) (right : List Token) (finish : Nat) :
    Except ReadError Goal :=
  match op with
  | .unify => do
    let l ← whole term (lastPosition left) left
    return .unify l (← whole term finish right)
  | .notUnify => do
    let l ← whole term (lastPosition left) left
    return .notUnify l (← whole term finish right)
  | .is => do
    let l ← whole term (lastPosition left) left
    return .is l (← whole expr finish right)
  | .compare c => do
    let l ← whole expr (lastPosition left) left
    return .compare c l (← whole expr finish right)

/-- Read a goal. -/
def goal (ts : Tokens) : Except ReadError Goal :=
  match splitOperator 0 ts.items with
  | some ([], op, position, _) => .error { cause := .missingLeft op.symbol, position }
  | some (left, op, _, right) => operatorGoal left op right ts.finish
  | none => simpleGoal ts.finish ts.items

end Grammar

/-- Read a goal from its text. -/
def Goal.ofString (text : String) : Except ReadError Goal := do
  Grammar.goal (← Tokens.ofString text)

end StackLogic.Horn
