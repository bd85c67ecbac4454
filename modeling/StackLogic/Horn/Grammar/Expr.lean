import StackLogic.Horn.Expr
import StackLogic.Horn.Grammar.Term

/-!
# Reading expressions

| level | operators | |
|---|---|---|
| sum | `+ -` | to the left |
| product | `* / // mod %` | to the left |
| signed | `- +` | before their operand |
| power | `**` | its right operand is signed again |

Each level is a reader of its own. The readers `sumTail` and `productTail` take the operand read so
far and collect what follows on their level, so that operators group to the left.
-/

namespace StackLogic.Horn.Grammar

/-- The operators between products. -/
def sumOp? : Lexeme → Option BinaryOp
  | .symbol "+" => some .add
  | .symbol "-" => some .sub
  | _ => none

/-- The operators between signed operands. -/
def productOp? : Lexeme → Option BinaryOp
  | .symbol "*" => some .mul
  | .symbol "/" => some .div
  | .symbol "//" => some .floorDiv
  | .symbol "%" => some .mod
  | .atom "mod" => some .mod
  | _ => none

/-- A reading that may use up no tokens at all. -/
abbrev Continuation (α : Type) (ts : List Token) := Except ReadError (Parsed α (ts.length + 1))

mutual

/-- Read an expression. -/
def expr (finish : Nat) (ts : List Token) : Reading Expr ts :=
  match product finish ts with
  | .error err => .error err
  | .ok first =>
    (sumTail finish first.value first.rest).map (·.weaken first.lt)
termination_by (ts.length, 5)
decreasing_by
  · exact Prod.Lex.right _ (by decide)
  · exact Prod.Lex.left _ _ first.lt

/-- Collect the operands of a sum. -/
def sumTail (finish : Nat) (left : Expr) (ts : List Token) : Continuation Expr ts :=
  match ts with
  | [] => .ok { value := left, rest := [], lt := Nat.lt_succ_self _ }
  | t :: rest =>
    match sumOp? t.lexeme with
    | none => .ok { value := left, rest := t :: rest, lt := Nat.lt_succ_self _ }
    | some op =>
      match product finish rest with
      | .error err => .error err
      | .ok right =>
        (sumTail finish (.binary op left right.value) right.rest).map
          (·.weaken (Nat.le_succ_of_le (Nat.lt_succ_of_lt right.lt)))
termination_by (ts.length, 0)
decreasing_by
  · exact Prod.Lex.left _ _ (Nat.lt_succ_self _)
  · exact Prod.Lex.left _ _ (Nat.lt_succ_of_lt right.lt)

/-- Read a product. -/
def product (finish : Nat) (ts : List Token) : Reading Expr ts :=
  match signed finish ts with
  | .error err => .error err
  | .ok first =>
    (productTail finish first.value first.rest).map (·.weaken first.lt)
termination_by (ts.length, 4)
decreasing_by
  · exact Prod.Lex.right _ (by decide)
  · exact Prod.Lex.left _ _ first.lt

/-- Collect the operands of a product. -/
def productTail (finish : Nat) (left : Expr) (ts : List Token) : Continuation Expr ts :=
  match ts with
  | [] => .ok { value := left, rest := [], lt := Nat.lt_succ_self _ }
  | t :: rest =>
    match productOp? t.lexeme with
    | none => .ok { value := left, rest := t :: rest, lt := Nat.lt_succ_self _ }
    | some op =>
      match signed finish rest with
      | .error err => .error err
      | .ok right =>
        (productTail finish (.binary op left right.value) right.rest).map
          (·.weaken (Nat.le_succ_of_le (Nat.lt_succ_of_lt right.lt)))
termination_by (ts.length, 0)
decreasing_by
  · exact Prod.Lex.left _ _ (Nat.lt_succ_self _)
  · exact Prod.Lex.left _ _ (Nat.lt_succ_of_lt right.lt)

/-- Read an operand with any number of signs before it. -/
def signed (finish : Nat) (ts : List Token) : Reading Expr ts :=
  match ts with
  | ⟨.symbol "-", _⟩ :: rest => Reading.after Expr.neg (signed finish rest) (Nat.le_succ _)
  | ⟨.symbol "+", _⟩ :: rest => Reading.after id (signed finish rest) (Nat.le_succ _)
  | ts => power finish ts
termination_by (ts.length, 3)
decreasing_by
  · exact Prod.Lex.left _ _ (Nat.lt_succ_self _)
  · exact Prod.Lex.left _ _ (Nat.lt_succ_self _)
  · exact Prod.Lex.right _ (by decide)

/-- Read a power. -/
def power (finish : Nat) (ts : List Token) : Reading Expr ts :=
  match primary finish ts with
  | .error err => .error err
  | .ok base =>
    match h : base.rest with
    | ⟨.symbol "**", _⟩ :: rest =>
      Reading.after (Expr.binary .pow base.value) (signed finish rest)
        (Nat.le_of_lt (base.lt_of_rest h))
    | _ => .ok base
termination_by (ts.length, 2)
decreasing_by
  · exact Prod.Lex.right _ (by decide)
  · exact Prod.Lex.left _ _ (base.lt_of_rest h)

/-- Read a number, a variable, a function call, or an expression in parentheses. -/
def primary (finish : Nat) (ts : List Token) : Reading Expr ts :=
  match ts with
  | ⟨.int n, _⟩ :: rest => Reading.one (Expr.num (.int n)) rest
  | ⟨.float x, _⟩ :: rest => Reading.one (Expr.num (.float x)) rest
  | ⟨.variableName name, _⟩ :: rest => Reading.one (Expr.var name) rest
  | ⟨.openParen, _⟩ :: rest =>
    match expr finish rest with
    | .error err => .error err
    | .ok inner =>
      match h : inner.rest with
      | ⟨.closeParen, _⟩ :: after =>
        .ok { value := inner.value, rest := after, lt := Nat.lt_succ_of_lt (inner.lt_of_rest h) }
      | others => .error (unexpected .closeParen finish others)
  | ⟨.atom name, p⟩ :: rest =>
    match Function.ofName? name with
    | none => .error (unexpected .functionName finish (⟨.atom name, p⟩ :: rest))
    | some f => (call f finish rest).map (·.weaken (Nat.le_succ _))
  | ts => .error (unexpected .operand finish ts)
termination_by (ts.length, 0)
decreasing_by
  · exact Prod.Lex.left _ _ (Nat.lt_succ_self _)
  · exact Prod.Lex.left _ _ (Nat.lt_succ_self _)

/-- Read what follows the name of a function. -/
def call (f : Function) (finish : Nat) (ts : List Token) : Reading Expr ts :=
  match ts with
  | ⟨.openParen, _⟩ :: inner =>
    Reading.after (Expr.call f) (callArguments finish inner) (Nat.le_succ _)
  | others => .error (unexpected .openParen finish others)
termination_by (ts.length, 0)
decreasing_by
  · exact Prod.Lex.left _ _ (Nat.lt_succ_self _)

/-- Read expressions with commas between them, up to a closing parenthesis. -/
def callArguments (finish : Nat) (ts : List Token) : Reading (List Expr) ts :=
  match expr finish ts with
  | .error err => .error err
  | .ok first =>
    match h : first.rest with
    | ⟨.comma, _⟩ :: more =>
      Reading.after (first.value :: ·) (callArguments finish more)
        (Nat.le_of_lt (first.lt_of_rest h))
    | ⟨.closeParen, _⟩ :: after =>
      .ok { value := [first.value], rest := after, lt := first.lt_of_rest h }
    | others => .error (unexpected .commaOrParen finish others)
termination_by (ts.length, 6)
decreasing_by
  · exact Prod.Lex.right _ (by decide)
  · exact Prod.Lex.left _ _ (first.lt_of_rest h)

end

end StackLogic.Horn.Grammar
