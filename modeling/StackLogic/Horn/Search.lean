import StackLogic.Horn.Clause
import StackLogic.Horn.Failure
import StackLogic.Limits
import StackLogic.Output

/-!
# Depth-first search for proofs

Goals are proved from left to right, and the clauses of a predicate are tried in order. A goal gives
a list of alternatives, the bindings under which it holds; each of them is tried with the goals
after it. A cut drops the pending alternatives of all goals to its left in the same body, and ends
the search through the clauses of the predicate that the body belongs to.

The alternatives that are still to be tried are kept in a list of frames (`walk`). The search ends
because every goal that is tried counts as a step and steps are limited; between two steps, the
frames get fewer or smaller. Calls nest, and a call at a depth uses the prover of the next depth
(`Setting.prover`), so the nesting is a recursion on the depth that is left.
-/

namespace StackLogic.Horn

/-- What a search changes. -/
structure Tally where
  /-- How many goals have been tried. -/
  steps : Nat
  /-- How many clauses have been used so far, in this and in earlier queries. -/
  activations : Nat
  /-- The emitted lines. -/
  output : Output

/-- A computation that counts and emits, and that may fail. What it has counted and emitted before a
failure is kept. -/
def Search (α : Type) : Type := Tally → Except Failure α × Tally

namespace Search

/-- Succeed and change nothing. -/
def succeed {α : Type} (a : α) : Search α := fun s => (.ok a, s)

/-- Fail and change nothing. -/
def fail {α : Type} (f : Failure) : Search α := fun s => (.error f, s)

/-- Go on with the result of a computation. -/
def andThen {α β : Type} (x : Search α) (f : α → Search β) : Search β := fun s =>
  match x s with
  | (.ok a, t) => f a t
  | (.error e, t) => (.error e, t)

instance : Monad Search where
  pure := succeed
  bind := andThen

/-- Emit a line for the user. -/
def log (text : String) : Search Unit := fun s => (.ok (), { s with output := s.output.log text })

/-- Emit a diagnostic line. -/
def debug (text : String) : Search Unit := fun s =>
  (.ok (), { s with output := s.output.debug text })

/-- Emit several lines. -/
def emitAll (lines : List OutputLine) : Search Unit := fun s =>
  (.ok (), { s with output := s.output.emitAll lines })

/-- Count the use of a clause, and tell which use it is. -/
def activate : Search Nat := fun s =>
  (.ok (s.activations + 1), { s with activations := s.activations + 1 })

/-- A result that is already there. -/
def ofExcept {α : Type} : Except Failure α → Search α
  | .ok a => succeed a
  | .error f => fail f

/-- The step count never goes back. -/
def Forward {α : Type} (x : Search α) : Prop := ∀ s, s.steps ≤ (x s).2.steps

theorem forward_succeed {α : Type} (a : α) : Forward (succeed a) := fun _ => Nat.le_refl _

theorem forward_pure {α : Type} (a : α) : Forward (pure a : Search α) := fun _ => Nat.le_refl _

theorem forward_fail {α : Type} (f : Failure) : Forward (fail f : Search α) :=
  fun _ => Nat.le_refl _

theorem forward_log (text : String) : Forward (log text) := fun _ => Nat.le_refl _

theorem forward_debug (text : String) : Forward (debug text) := fun _ => Nat.le_refl _

theorem forward_emitAll (lines : List OutputLine) : Forward (emitAll lines) :=
  fun _ => Nat.le_refl _

theorem forward_activate : Forward activate := fun _ => Nat.le_refl _

theorem forward_ofExcept {α : Type} (x : Except Failure α) : Forward (ofExcept x) := by
  cases x
  · exact forward_fail _
  · exact forward_succeed _

theorem forward_bind {α β : Type} {x : Search α} {f : α → Search β} (hx : Forward x)
    (hf : ∀ a, Forward (f a)) : Forward (x >>= f) := by
  intro s
  show s.steps ≤ (andThen x f s).2.steps
  have first := hx s
  unfold andThen
  split
  next a t found =>
    rw [found] at first
    exact Nat.le_trans first (hf a t)
  next e t found =>
    rw [found] at first
    exact first

theorem forward_ite {α : Type} {c : Prop} [Decidable c] {x y : Search α} (hx : Forward x)
    (hy : Forward y) : Forward (if c then x else y) := by
  split
  · exact hx
  · exact hy

end Search

/-- A way to prove a goal: the bindings under which it holds. -/
structure Prover where
  /-- The alternatives of a goal. -/
  prove : Goal → Bindings → Search (List Bindings)
  /-- It counts forward. -/
  forward : ∀ g b, (prove g b).Forward

/-- Count a step and try a goal. -/
def Prover.attempt (p : Prover) (limit : Nat) (g : Goal) (b : Bindings) :
    Search (List Bindings) := fun s =>
  let s' := { s with steps := s.steps + 1 }
  if s.steps < limit then p.prove g b s' else (.error (.exhausted .steps limit), s')

/-- Trying a goal takes a step. -/
theorem Prover.attempt_steps (p : Prover) (limit : Nat) (g : Goal) (b : Bindings) (s : Tally) :
    s.steps < (p.attempt limit g b s).2.steps := by
  unfold attempt
  split
  · exact p.forward g b { s with steps := s.steps + 1 }
  · exact Nat.lt_succ_self _

/-- A goal is tried only while steps are left. -/
theorem Prover.lt_limit_of_attempt {p : Prover} {limit : Nat} {g : Goal} {b : Bindings} {s t : Tally}
    {next : List Bindings} (h : p.attempt limit g b s = (.ok next, t)) : s.steps < limit := by
  unfold attempt at h
  split at h
  next lt => exact lt
  next => cases h

/-- Alternatives that are still to be tried with the goals after them. -/
structure Frame where
  /-- The goals that are left. -/
  goals : List Goal
  /-- The alternatives. -/
  alternatives : List Bindings

/-- How much there is to do in frames before the next step. -/
def pendingWork : List Frame → Nat
  | [] => 0
  | f :: outer => 1 + f.alternatives.length * (2 + 2 * f.goals.length) + pendingWork outer

/-- What proving a list of goals gives. -/
structure Proof where
  /-- The bindings under which all goals hold, in the order they are found. -/
  solutions : List Bindings
  /-- Whether a cut was met. -/
  cut : Bool

/-- Work through the frames. `found` holds the solutions so far, the latest first. -/
def walk (p : Prover) (limit : Nat) (found : List Bindings) (cut : Bool) (pending : List Frame)
    (s : Tally) : Except Failure Proof × Tally :=
  match pending with
  | [] => (.ok { solutions := found.reverse, cut }, s)
  | ⟨_, []⟩ :: outer => walk p limit found cut outer s
  | ⟨[], b :: more⟩ :: outer => walk p limit (b :: found) cut (⟨[], more⟩ :: outer) s
  | ⟨.cut :: goals, b :: _⟩ :: _ => walk p limit found true [⟨goals, [b]⟩] s
  | ⟨g :: goals, b :: more⟩ :: outer =>
    match _tried : p.attempt limit g b s with
    | (.ok next, t) => walk p limit found cut (⟨goals, next⟩ :: ⟨g :: goals, more⟩ :: outer) t
    | (.error e, t) => (.error e, t)
termination_by (limit - s.steps, pendingWork pending)
decreasing_by
  · apply Prod.Lex.right
    simp [pendingWork]
  · apply Prod.Lex.right
    simp [pendingWork]
  · apply Prod.Lex.right
    simp [pendingWork, Nat.add_mul]
    omega
  · apply Prod.Lex.left
    have bound := Prover.lt_limit_of_attempt _tried
    have taken := p.attempt_steps limit g b s
    rw [_tried] at taken
    simp only at taken
    omega

/-- Working through frames counts forward. -/
theorem walk_forward (p : Prover) (limit : Nat) (found : List Bindings) (cut : Bool)
    (pending : List Frame) (s : Tally) :
    s.steps ≤ (walk p limit found cut pending s).2.steps := by
  fun_induction walk p limit found cut pending s with
  | case1 => exact Nat.le_refl _
  | case2 _ _ _ _ _ ih => exact ih
  | case3 _ _ _ _ _ _ ih => exact ih
  | case4 _ _ _ _ _ _ _ ih => exact ih
  | case5 found cut s g goals b more outer _ next t tried ih =>
    have taken := p.attempt_steps limit g b s
    rw [tried] at taken
    exact Nat.le_trans (Nat.le_of_lt taken) ih
  | case6 found cut s g goals b more outer _ e t tried =>
    have taken := p.attempt_steps limit g b s
    rw [tried] at taken
    exact Nat.le_of_lt taken

/-- Prove goals from left to right. -/
def Prover.proveAll (p : Prover) (limit : Nat) (goals : List Goal) (b : Bindings) : Search Proof :=
  walk p limit [] false [⟨goals, [b]⟩]

/-- What a search works with. -/
structure Setting where
  /-- The clauses. -/
  database : Database
  /-- Whether calls are reported. -/
  trace : Bool
  /-- The limits. -/
  limits : Limits

/-- The goals of a body with the variables of its `k`-th use. -/
def instantiate (k : Nat) (body : List BodyGoal) : Except Failure (List Goal) :=
  body.mapM fun part =>
    match part.goal with
    | .ok g => .ok (g.rename (Term.freshName k))
    | .error e => .error (.malformed (.unreadable e) part.text)

namespace Setting

/-- Try clauses one after the other: unify the arguments with the head, then prove the body. A cut
in a body ends the search. -/
def tryClauses (w : Setting) (inner : Prover) (args : List Term) (b : Bindings) :
    List Clause → Search (List Bindings)
  | [] => pure []
  | clause :: others => do
    let k ← Search.activate
    match unifyAll args (Term.renameAll (Term.freshName k) clause.args) b with
    | none => tryClauses w inner args b others
    | some unified =>
      match clause with
      | .fact _ => do
        let rest ← tryClauses w inner args b others
        return unified :: rest
      | .rule _ body => do
        let goals ← Search.ofExcept (instantiate k body)
        let proof ← inner.proveAll w.limits.proofSteps goals unified
        if proof.cut then return proof.solutions
        else do
          let rest ← tryClauses w inner args b others
          return proof.solutions ++ rest

/-- What is reported when a call begins. -/
def entryLines (w : Setting) (name : String) (args : List Term) : List OutputLine :=
  (if w.trace then [⟨.log, "Call: " ++ Term.displayHead name args⟩] else [])
    ++ (if w.database.contains name then []
      else [⟨.debug, "Unknown procedure: " ++ name ++ "/" ++ toString args.length⟩])

/-- What is reported when a call has been worked through. -/
def exitLines (w : Setting) (name : String) (args : List Term) (solutions : List Bindings) :
    List OutputLine :=
  if !w.trace then []
  else if solutions.isEmpty then [⟨.log, "Fail: " ++ Term.displayHead name args⟩]
  else solutions.map fun b =>
    ⟨.log, "Exit: " ++ Term.displayHead name (args.map b.resolveDeep)⟩

/-- Call a predicate with arguments in which all bound variables are replaced. -/
def callResolved (w : Setting) (inner : Prover) (name : String) (args : List Term) (b : Bindings) :
    Search (List Bindings) := do
  Search.emitAll (w.entryLines name args)
  let solutions ← w.tryClauses inner args b (w.database.clauses name)
  Search.emitAll (w.exitLines name args solutions)
  return solutions

/-- Call a predicate; its bodies are proved by `inner`. -/
def call (w : Setting) (inner : Prover) (name : String) (args : List Term) (b : Bindings) :
    Search (List Bindings) :=
  w.callResolved inner name (args.map b.resolveDeep) b

end Setting

/-- The alternatives after an expression without a value: there are none. -/
def arithmeticFailure (e : EvalError) : Search (List Bindings) := do
  Search.debug e.report
  return []

/-- Prove a goal; predicates are called by `call`. -/
def proveWith (call : String → List Term → Bindings → Search (List Bindings)) (g : Goal)
    (b : Bindings) : Search (List Bindings) :=
  match g with
  | .succeed | .cut => pure [b]
  | .fail => pure []
  | .newline => do
    Search.log ""
    return [b]
  | .write t => do
    Search.log (b.resolveDeep t).written
    return [b]
  | .member element list =>
    match b.resolve list with
    | .list items => pure (items.findSome? (unify element · b)).toList
    | _ => pure []
  | .unify left right => pure (unify left right b).toList
  | .notUnify left right => pure (if (unify left right b).isSome then [] else [b])
  | .is target e =>
    match e.eval b with
    | .ok n => pure (unify target (.num n) b).toList
    | .error err => arithmeticFailure err
  | .compare c left right =>
    match (left.eval b).bind fun l => (right.eval b).map (l, ·) with
    | .ok (l, r) => pure (if c.holds l r then [b] else [])
    | .error err => arithmeticFailure err
  | .call name args => call name args b

namespace Setting

/-- Trying clauses counts forward. -/
theorem tryClauses_forward (w : Setting) (inner : Prover) (args : List Term) (b : Bindings)
    (clauses : List Clause) : (w.tryClauses inner args b clauses).Forward := by
  induction clauses with
  | nil => exact Search.forward_pure _
  | cons clause others ih =>
    refine Search.forward_bind Search.forward_activate fun k => ?_
    split
    · exact ih
    · split
      · exact Search.forward_bind ih fun _ => Search.forward_pure _
      · refine Search.forward_bind (Search.forward_ofExcept _) fun goals => ?_
        refine Search.forward_bind (fun s => walk_forward ..) fun proof => ?_
        exact Search.forward_ite (Search.forward_pure _)
          (Search.forward_bind ih fun _ => Search.forward_pure _)

/-- A call counts forward. -/
theorem call_forward (w : Setting) (inner : Prover) (name : String) (args : List Term)
    (b : Bindings) : (w.call inner name args b).Forward := by
  refine Search.forward_bind (Search.forward_emitAll _) fun _ => ?_
  refine Search.forward_bind (w.tryClauses_forward _ _ _ _) fun _ => ?_
  exact Search.forward_bind (Search.forward_emitAll _) fun _ => Search.forward_pure _

end Setting

/-- Proving a goal counts forward if calling a predicate does. -/
theorem proveWith_forward {call : String → List Term → Bindings → Search (List Bindings)}
    (h : ∀ name args b, (call name args b).Forward) (g : Goal) (b : Bindings) :
    (proveWith call g b).Forward := by
  have failing (e : EvalError) : (arithmeticFailure e).Forward :=
    Search.forward_bind (Search.forward_debug _) fun _ => Search.forward_pure _
  unfold proveWith
  split
  · exact Search.forward_pure _
  · exact Search.forward_pure _
  · exact Search.forward_pure _
  · exact Search.forward_bind (Search.forward_log _) fun _ => Search.forward_pure _
  · exact Search.forward_bind (Search.forward_log _) fun _ => Search.forward_pure _
  · split <;> exact Search.forward_pure _
  · exact Search.forward_pure _
  · exact Search.forward_pure _
  · split
    · exact Search.forward_pure _
    · exact failing _
  · split
    · exact Search.forward_pure _
    · exact failing _
  · exact h _ _ _

/-- The prover that may nest calls so deep. -/
def Setting.prover (w : Setting) : Nat → Prover
  | 0 =>
    { prove := proveWith fun _ _ _ => Search.fail (.exhausted .depth w.limits.proofDepth)
      forward := proveWith_forward fun _ _ _ => Search.forward_fail _ }
  | depth + 1 =>
    { prove := fun g b => proveWith (fun name args b => w.call (w.prover depth) name args b) g b
      forward := proveWith_forward fun _ _ _ => w.call_forward _ _ _ _ }

/-- Prove the goals of a query. -/
def Setting.solve (w : Setting) (goals : List Goal) : Search Proof :=
  (w.prover w.limits.proofDepth).proveAll w.limits.proofSteps goals .empty

end StackLogic.Horn
