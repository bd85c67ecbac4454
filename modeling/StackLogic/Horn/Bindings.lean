import StackLogic.Horn.Term

/-!
# Bindings and unification

Bindings give terms to variables. A bound term may hold variables that are bound themselves, so a
variable is resolved by following its bindings, in a chain for `resolve` and inside of lists too for
`resolveDeep`.

Unification never makes a variable part of its own value: it checks that with `occurs` before it
binds. For bindings made this way, no chain of variables visits a variable twice, so the number of
bindings bounds every chain, and the weight of all terms bounds how deep lists can nest. These
bounds are the fuel of the functions below; they make them total for bindings that were put
together in any other way, too.
-/

namespace StackLogic.Horn

/-- The weight of a list of bindings: one for each, and the weights of the terms. -/
def entriesWeight : List (String × Term) → Nat
  | [] => 0
  | (_, t) :: rest => 1 + t.weight + entriesWeight rest

/-- Terms for variables. -/
structure Bindings where
  /-- The bound variables with their terms, the newest first. -/
  entries : List (String × Term) := []
  /-- The weight of the entries, kept at hand. -/
  weight : Nat := 0
  /-- What `weight` is. -/
  weight_eq : weight = entriesWeight entries := by rfl

namespace Bindings

/-- No bindings. -/
def empty : Bindings := {}

/-- The number of bound variables. -/
def size (b : Bindings) : Nat := b.entries.length

/-- Whether nothing is bound. -/
def isEmpty (b : Bindings) : Bool := b.entries.isEmpty

/-- The term a variable is bound to. -/
def get? (b : Bindings) (name : String) : Option Term := b.entries.lookup name

/-- Bind a variable that is free. -/
def extend (b : Bindings) (name : String) (t : Term) : Bindings :=
  { entries := (name, t) :: b.entries
    weight := 1 + t.weight + b.weight
    weight_eq := by simp [entriesWeight, b.weight_eq] }

/-- Bind a variable, whatever it was bound to before. -/
def bind (b : Bindings) (name : String) (t : Term) : Bindings :=
  let others := b.entries.filter (·.1 != name)
  { entries := (name, t) :: others, weight := entriesWeight ((name, t) :: others) }

/-- Follow the bindings of a variable, at most `n` of them. -/
def follow (b : Bindings) : Nat → Term → Term
  | n + 1, .var name =>
    match b.get? name with
    | some t => b.follow n t
    | none => .var name
  | _, t => t

/-- Follow the bindings of a variable to the end. -/
def resolve (b : Bindings) (t : Term) : Term := b.follow b.weight t

/-- Replace bound variables in a term, through at most `n` bindings on each path. -/
def expand (b : Bindings) : Nat → Term → Term
  | 0, t => t
  | n + 1, t => t.subst fun name =>
    match b.get? name with
    | some u => b.expand n u
    | none => .var name

/-- Replace all bound variables in a term. -/
def resolveDeep (b : Bindings) (t : Term) : Term := b.expand b.weight t

/-- Whether a variable is found in a term through at most `n` bindings on each path. -/
def reaches (b : Bindings) (name : String) : Nat → Term → Bool
  | 0, t => t.anyVar (· == name)
  | n + 1, t => t.anyVar fun other =>
    match b.get? other with
    | some u => b.reaches name n u
    | none => other == name

/-- Whether a variable occurs in a term when bound variables are replaced. -/
def occurs (b : Bindings) (name : String) (t : Term) : Bool := b.reaches name b.weight t

/-- Give a term to a free variable, unless the variable occurs in the term. -/
def assign (b : Bindings) (name : String) (t : Term) : Option Bindings :=
  if b.occurs name t then none else some (b.extend name t)

end Bindings

/-- Whether two terms without parts are the same constant. Numbers are the same when their values
are. -/
def Term.sameConstant : Term → Term → Bool
  | .atom a, .atom b => a == b
  | .num m, .num n => m.sameValue n
  | .str s, .str t => s == t
  | _, _ => false

/-- Unify two lists element by element with `step`, each pair under the bindings that the pairs
before it have led to. -/
def unifyEach (step : Term → Term → Bindings → Option Bindings) :
    List Term → List Term → Bindings → Option Bindings
  | [], [], b => some b
  | x :: xs, y :: ys, b =>
    match step x y b with
    | some b' => unifyEach step xs ys b'
    | none => none
  | _, _, _ => none

/-- Unify two terms whose lists nest less than `fuel` deep. -/
def unifyWithin : Nat → Term → Term → Bindings → Option Bindings
  | 0, _, _, _ => none
  | fuel + 1, left, right, b =>
    if left.isAnonymous || right.isAnonymous then some b
    else
      match b.resolve left, b.resolve right with
      | .var x, .var y => if x = y then some b else b.assign x (.var y)
      | .var x, t => b.assign x t
      | t, .var y => b.assign y t
      | .list xs, .list ys => unifyEach (unifyWithin fuel) xs ys b
      | s, t => if s.sameConstant t then some b else none

/-- How deep the lists in terms of this weight can nest when bindings are followed. A path into a
term visits each variable at most once, and between two variables it stays within one term. -/
def nestingBound (weight : Nat) : Nat := (weight + 1) * (weight + 1)

/-- Unify two terms: extend the bindings so that both become the same. -/
def unify (left right : Term) (b : Bindings) : Option Bindings :=
  unifyWithin (nestingBound (b.weight + left.weight + right.weight)) left right b

/-- Unify two lists of arguments; lists of different length do not unify. -/
def unifyAll (left right : List Term) (b : Bindings) : Option Bindings :=
  unifyEach
    (unifyWithin (nestingBound (b.weight + Term.weightAll left + Term.weightAll right)))
    left right b

end StackLogic.Horn
