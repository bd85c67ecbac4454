import StackLogic.Horn.Grammar.Goal
import StackLogic.Table

/-!
# Clauses

A clause is a fact or a rule. The body of a rule is kept as the texts of its goals, which is what a
listing shows; each text is stored together with the goal that it reads as.
-/

namespace StackLogic.Horn

/-- A goal of a body, as text and as read. -/
structure BodyGoal where
  /-- The text. -/
  text : String
  /-- What the text reads as. -/
  goal : Except ReadError Goal
  /-- The two belong together. -/
  goal_eq : goal = Goal.ofString text

/-- Read a goal of a body. -/
def BodyGoal.ofText (text : String) : BodyGoal :=
  { text, goal := Goal.ofString text, goal_eq := rfl }

/-- A fact or a rule. -/
inductive Clause where
  | fact (args : List Term)
  | rule (args : List Term) (body : List BodyGoal)

namespace Clause

/-- The arguments of the head. -/
def args : Clause → List Term
  | fact args => args
  | rule args _ => args

/-- A clause of this predicate as it is listed. -/
def display (name : String) : Clause → String
  | fact args => Term.displayHead name args ++ "."
  | rule args body =>
    Term.displayHead name args ++ " :- " ++ ", ".intercalate (body.map BodyGoal.text) ++ "."

end Clause

/-- The clauses of all predicates. -/
structure Database where
  /-- The predicates, each with its clauses in order. -/
  predicates : Table (List Clause) := []
  /-- The names of the predicates in the order of their first clause. -/
  names : List String := []

namespace Database

/-- No clauses. -/
def empty : Database := {}

/-- Add a clause at the end of its predicate, and the name of a new predicate at the end of all. -/
def add (d : Database) (name : String) (c : Clause) : Database :=
  match d.predicates.lookup name with
  | some clauses => { d with predicates := d.predicates.insert name (clauses ++ [c]) }
  | none => { predicates := d.predicates.insert name [c], names := d.names ++ [name] }

/-- The clauses of a predicate. -/
def clauses (d : Database) (name : String) : List Clause :=
  (d.predicates.lookup name).getD []

/-- Whether a predicate has clauses. -/
def contains (d : Database) (name : String) : Bool :=
  (d.predicates.lookup name).isSome

/-- The number of clauses. -/
def size (d : Database) : Nat :=
  (d.predicates.flatMap (·.2)).length

/-- Whether there are no clauses. -/
def isEmpty (d : Database) : Bool := d.names.isEmpty

/-- All clauses as text, with an empty line between predicates. -/
def listing (d : Database) : List String :=
  [""].intercalate (d.names.map fun name => (d.clauses name).map (Clause.display name))

end Database

end StackLogic.Horn
