import StackLogic.Horn.Term
import StackLogic.Horn.Token

/-!
# Reading terms

A reader takes a list of tokens and gives a value and the tokens after it. Its result carries the
proof that tokens have been used up, which is why readers that call each other end. The position
`finish` is reported when the tokens end too early.
-/

namespace StackLogic.Horn

/-- A value that was read, and fewer than `bound` tokens after it. -/
structure Parsed (α : Type) (bound : Nat) where
  /-- The value. -/
  value : α
  /-- The tokens after it. -/
  rest : List Token
  /-- How much is left at most. -/
  lt : rest.length < bound

namespace Parsed

/-- The same value under a weaker bound. -/
def weaken {α : Type} {m n : Nat} (p : Parsed α m) (h : m ≤ n) : Parsed α n :=
  { value := p.value, rest := p.rest, lt := Nat.lt_of_lt_of_le p.lt h }

/-- Another value with the same tokens after it. -/
def map {α β : Type} {n : Nat} (f : α → β) (p : Parsed α n) : Parsed β n :=
  { value := f p.value, rest := p.rest, lt := p.lt }

/-- What is left after one more token. -/
theorem succ_lt {α : Type} {n : Nat} (p : Parsed α n) {t : Token} {more : List Token}
    (h : p.rest = t :: more) : more.length + 1 < n := by
  have left := p.lt
  rw [h, List.length_cons] at left
  exact left

/-- What is left after one more token, in one step. -/
theorem lt_of_rest {α : Type} {n : Nat} (p : Parsed α n) {t : Token} {more : List Token}
    (h : p.rest = t :: more) : more.length < n :=
  Nat.lt_of_succ_lt (p.succ_lt h)

end Parsed

namespace Grammar

/-- The error at the next token. -/
def unexpected (expectation : Expectation) (finish : Nat) : List Token → ReadError
  | [] => { cause := .unexpected expectation none, position := finish }
  | t :: _ => { cause := .unexpected expectation (some t.lexeme), position := t.position }

/-- What stands around a sequence of terms. -/
inductive Enclosure where
  /-- The arguments of a predicate or compound term. -/
  | parens
  /-- The elements of a list. -/
  | brackets
  deriving DecidableEq

namespace Enclosure

/-- The token that ends the sequence. -/
def close : Enclosure → Lexeme
  | parens => .closeParen
  | brackets => .closeBracket

/-- What is missing when an element is followed by these tokens. -/
def missing : Enclosure → List Token → Expectation
  | parens, _ => .commaOrParen
  | brackets, ⟨.pipe, _⟩ :: _ => .noTail
  | brackets, _ => .commaOrBracket

end Enclosure

/-- What reading arguments gives for the tokens after a name. -/
abbrev Reading (α : Type) (ts : List Token) := Except ReadError (Parsed α ts.length)

/-- A reading that ends right after the first token. -/
def Reading.one {α : Type} {t : Token} (value : α) (rest : List Token) : Reading α (t :: rest) :=
  .ok { value, rest, lt := Nat.lt_succ_self _ }

/-- A reading that ends right after the second token. -/
def Reading.two {α : Type} {t u : Token} (value : α) (rest : List Token) :
    Reading α (t :: u :: rest) :=
  .ok { value, rest, lt := Nat.lt_add_of_pos_right Nat.zero_lt_two }

/-- A reading that goes on with fewer tokens. -/
def Reading.after {α β : Type} {ts us : List Token} (f : α → β) (r : Reading α us)
    (h : us.length ≤ ts.length) : Reading β ts :=
  r.map fun p => (p.map f).weaken h

mutual

/-- Read a term. -/
def term (finish : Nat) (ts : List Token) : Reading Term ts :=
  match ts with
  | ⟨.variableName name, _⟩ :: rest => Reading.one (Term.var name) rest
  | ⟨.int n, _⟩ :: rest => Reading.one (Term.num (.int n)) rest
  | ⟨.float x, _⟩ :: rest => Reading.one (Term.num (.float x)) rest
  | ⟨.str s, _⟩ :: rest => Reading.one (Term.str s) rest
  | ⟨.bang, _⟩ :: rest => Reading.one (Term.atom "!") rest
  | ⟨.openBracket, _⟩ :: ⟨.closeBracket, _⟩ :: rest => Reading.two (Term.list []) rest
  | ⟨.openBracket, _⟩ :: inner =>
    Reading.after Term.list (sequence .brackets finish inner) (Nat.le_succ _)
  | ⟨.atom name, _⟩ :: ⟨.openParen, _⟩ :: inner =>
    Reading.after (fun args => Term.atom (Term.displayHead name args)) (arguments finish inner)
      (Nat.le_add_right _ 2)
  | ⟨.atom name, _⟩ :: rest => Reading.one (Term.atom name) rest
  | ⟨.symbol "-", _⟩ :: ⟨.int n, _⟩ :: rest => Reading.two (Term.num (.int (-n))) rest
  | ⟨.symbol "-", _⟩ :: ⟨.float x, _⟩ :: rest => Reading.two (Term.num (.float (-x))) rest
  | ⟨.symbol s, _⟩ :: rest => Reading.one (Term.atom s) rest
  | ts => .error (unexpected .term finish ts)
termination_by (ts.length, 0)
decreasing_by
  · exact Prod.Lex.left _ _ (Nat.lt_succ_self _)
  · exact Prod.Lex.left _ _ (Nat.lt_add_of_pos_right Nat.zero_lt_two)

/-- Read the arguments after an opening parenthesis; there has to be one at least. -/
def arguments (finish : Nat) (ts : List Token) : Reading (List Term) ts :=
  match ts with
  | ⟨.closeParen, p⟩ :: rest => .error (unexpected .arguments finish (⟨.closeParen, p⟩ :: rest))
  | ts => sequence .parens finish ts
termination_by (ts.length, 2)
decreasing_by
  · exact Prod.Lex.right _ Nat.one_lt_two

/-- Read terms with commas between them, up to the closing token. -/
def sequence (e : Enclosure) (finish : Nat) (ts : List Token) : Reading (List Term) ts :=
  match term finish ts with
  | .error err => .error err
  | .ok first =>
    match h : first.rest with
    | ⟨.comma, _⟩ :: more =>
      Reading.after (first.value :: ·) (sequence e finish more)
        (Nat.le_of_lt (first.lt_of_rest h))
    | next :: more =>
      if next.lexeme = e.close then
        .ok { value := [first.value], rest := more, lt := first.lt_of_rest h }
      else .error (unexpected (e.missing first.rest) finish first.rest)
    | [] => .error (unexpected (e.missing []) finish [])
termination_by (ts.length, 1)
decreasing_by
  · exact Prod.Lex.right _ Nat.zero_lt_one
  · exact Prod.Lex.left _ _ (first.lt_of_rest h)

end

/-- Read a predicate name and its arguments, if it has any. -/
def head (finish : Nat) (ts : List Token) : Reading (String × List Term) ts :=
  match ts with
  | ⟨.atom name, _⟩ :: ⟨.openParen, _⟩ :: inner =>
    Reading.after (name, ·) (arguments finish inner) (Nat.le_add_right _ 2)
  | ⟨.atom name, _⟩ :: rest => Reading.one (name, []) rest
  | ts => .error (unexpected .predicateName finish ts)

/-- Nothing but a final `.` may follow. -/
def expectEnd (finish : Nat) (ts : List Token) : Except ReadError Unit :=
  let rest :=
    match ts with
    | t :: rest => if t.isSymbol "." then rest else ts
    | [] => []
  match rest with
  | [] => .ok ()
  | _ => .error (unexpected .endOfInput finish rest)

/-- Read the head of a clause and nothing else. -/
def clauseHead (text : String) : Except ReadError (String × List Term) := do
  let ts ← Tokens.ofString text
  let parsed ← head ts.finish ts.items
  expectEnd ts.finish parsed.rest
  return parsed.value

end Grammar

end StackLogic.Horn
