import StackLogic.Horn.Number

/-!
# Terms

A term is a variable, an atom, a number, a text or a list of terms. A compound term `f(a, b)` has
no structure of its own: it is the atom whose name is its text.

The variable `_` is anonymous: every occurrence of it stands for a term that is not mentioned
again. A clause variable gets a new name `name#k` each time the clause is used; `#` cannot be
written in a source text, so the new names are apart from all names a user can write.
-/

namespace StackLogic.Horn

/-- A term. -/
inductive Term where
  | var (name : String)
  | atom (name : String)
  | num (n : Number)
  | str (s : String)
  | list (items : List Term)

namespace Term

/-- The name of the anonymous variable. -/
def anonymousName : String := "_"

/-- Whether the term is the anonymous variable. -/
def isAnonymous : Term → Bool
  | var name => name == anonymousName
  | _ => false

mutual

/-- Replace every variable by the term that `f` gives for it. -/
def subst (f : String → Term) : Term → Term
  | var name => f name
  | atom name => atom name
  | num n => num n
  | str s => str s
  | list items => list (substAll f items)

/-- Replace every variable in a list of terms. -/
def substAll (f : String → Term) : List Term → List Term
  | [] => []
  | t :: rest => t.subst f :: substAll f rest

end

mutual

/-- Whether some variable of the term satisfies `p`. -/
def anyVar (p : String → Bool) : Term → Bool
  | var name => p name
  | list items => anyVarAll p items
  | _ => false

/-- Whether some variable in a list of terms satisfies `p`. -/
def anyVarAll (p : String → Bool) : List Term → Bool
  | [] => false
  | t :: rest => t.anyVar p || anyVarAll p rest

end

/-- Add a name at the end unless it is there. -/
def addName (names : List String) (name : String) : List String :=
  if name ∈ names then names else names ++ [name]

mutual

/-- Add the variables of a term to a list of names, each once, in the order of their first
occurrence. -/
def addVariables (names : List String) : Term → List String
  | var name => addName names name
  | list items => addVariablesAll names items
  | _ => names

/-- Add the variables of several terms. -/
def addVariablesAll (names : List String) : List Term → List String
  | [] => names
  | t :: rest => addVariablesAll (t.addVariables names) rest

end

/-- The variables of a term in the order of their first occurrence. -/
def variableNames (t : Term) : List String := t.addVariables []

mutual

/-- The number of nodes of a term. -/
def weight : Term → Nat
  | list items => 1 + weightAll items
  | _ => 1

/-- The number of nodes of several terms. -/
def weightAll : List Term → Nat
  | [] => 0
  | t :: rest => t.weight + weightAll rest

end

/-- The name of a clause variable when the clause is used for the `k`-th time. -/
def freshName (k : Nat) (name : String) : String :=
  name ++ "#" ++ toString k

/-- Rename the variables of a term; the anonymous variable keeps its name. -/
def rename (f : String → String) (t : Term) : Term :=
  t.subst fun name => var (if name = anonymousName then name else f name)

/-- Rename the variables of several terms. -/
def renameAll (f : String → String) (ts : List Term) : List Term :=
  substAll (fun name => var (if name = anonymousName then name else f name)) ts

/-- How a variable is shown. A renamed one is shown as `_`, its old name without leading `_`, and
the number of the use. -/
def displayVariable (name : String) : String :=
  let cs := name.toList
  match cs.dropWhile (· != '#') with
  | _ :: use => String.ofList ('_' :: ((cs.takeWhile (· != '#')).dropWhile (· == '_') ++ use))
  | [] => name

mutual

/-- The text of a term. -/
def display : Term → String
  | var name => displayVariable name
  | atom name => name
  | num n => n.display
  | str s => "\x22" ++ s ++ "\x22"
  | list items => "[" ++ ", ".intercalate (displayAll items) ++ "]"

/-- The texts of several terms. -/
def displayAll : List Term → List String
  | [] => []
  | t :: rest => t.display :: displayAll rest

end

/-- The text that `write` emits: a text without its quotes, any other term as shown. -/
def written : Term → String
  | str s => s
  | t => t.display

/-- The text of a predicate or compound term with its arguments. -/
def displayHead (name : String) (args : List Term) : String :=
  if args.isEmpty then name else name ++ "(" ++ ", ".intercalate (displayAll args) ++ ")"

/-- Substituting in a list is substituting in each of its terms. -/
theorem substAll_eq_map (f : String → Term) (ts : List Term) :
    substAll f ts = ts.map (subst f) := by
  induction ts with
  | nil => rfl
  | cons t rest ih => simp [substAll, ih]

/-- The texts of a list are the texts of its terms. -/
theorem displayAll_eq_map (ts : List Term) : displayAll ts = ts.map display := by
  induction ts with
  | nil => rfl
  | cons t rest ih => simp [displayAll, ih]

/-- A list has a variable with the property if one of its terms has. -/
theorem anyVarAll_eq_any (p : String → Bool) (ts : List Term) :
    anyVarAll p ts = ts.any (anyVar p) := by
  induction ts with
  | nil => rfl
  | cons t rest ih => simp [anyVarAll, ih]

end Term

end StackLogic.Horn
