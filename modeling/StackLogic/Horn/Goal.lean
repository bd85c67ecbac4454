import StackLogic.Horn.Expr

/-!
# Goals

A query and the body of a rule are lists of goals, which are proved from left to right.
-/

namespace StackLogic.Horn

/-- A goal. -/
inductive Goal where
  /-- `true` -/
  | succeed
  /-- `fail` -/
  | fail
  /-- `nl`: emit an empty line. -/
  | newline
  /-- `!`: give up the alternatives of the goals before it and the clauses after this one. -/
  | cut
  /-- Emit the text of a term. -/
  | write (t : Term)
  /-- The first element of a list that unifies. -/
  | member (element list : Term)
  | unify (left right : Term)
  | notUnify (left right : Term)
  /-- Unify with the value of an expression. -/
  | is (target : Term) (e : Expr)
  | compare (c : Comparison) (left right : Expr)
  /-- Call a predicate. -/
  | call (name : String) (args : List Term)

namespace Goal

/-- Add the variables of a goal to a list of names, each once. -/
def addVariables (names : List String) : Goal → List String
  | write t => t.addVariables names
  | member a b => b.addVariables (a.addVariables names)
  | unify a b => b.addVariables (a.addVariables names)
  | notUnify a b => b.addVariables (a.addVariables names)
  | is t e => e.addVariables (t.addVariables names)
  | compare _ left right => right.addVariables (left.addVariables names)
  | call _ args => Term.addVariablesAll names args
  | _ => names

/-- Rename the variables of a goal. -/
def rename (f : String → String) : Goal → Goal
  | write t => write (t.rename f)
  | member a b => member (a.rename f) (b.rename f)
  | unify a b => unify (a.rename f) (b.rename f)
  | notUnify a b => notUnify (a.rename f) (b.rename f)
  | is t e => is (t.rename f) (e.rename f)
  | compare c left right => compare c (left.rename f) (right.rename f)
  | call name args => call name (Term.renameAll f args)
  | g => g

/-- The variables of several goals in the order of their first occurrence. -/
def variablesOf (goals : List Goal) : List String :=
  goals.foldl addVariables []

end Goal

end StackLogic.Horn
