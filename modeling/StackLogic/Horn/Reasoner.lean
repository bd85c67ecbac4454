import StackLogic.Horn.Search
import StackLogic.Horn.Source

/-!
# The logic interpreter

A reasoner takes one line after the other. A line is a rule, a query, a fact or a command; a line
that cannot be used is reported and changes nothing else. No line ever fails as a whole: a query
without solutions is an answer.
-/

namespace StackLogic.Horn

/-- The state of the logic interpreter. -/
structure Reasoner where
  /-- The clauses. -/
  database : Database := {}
  /-- Whether calls are reported. -/
  trace : Bool := false
  /-- How many clauses have been used since the last reset. -/
  activations : Nat := 0
  /-- How many goals the latest query has tried. -/
  steps : Nat := 0
  /-- The lines emitted so far. -/
  output : Output := {}
  /-- The limits. -/
  limits : Limits := {}

/-- Read a text as a goal, or say what is wrong with the text. -/
def readGoal (text : String) : Except Failure Goal :=
  match Goal.ofString text with
  | .ok g => .ok g
  | .error e => .error (.malformed (.unreadable e) text)

/-- Read a body: every goal has to be readable. -/
def readBody (line : String) : List String → Except Failure (List BodyGoal)
  | [] => .ok []
  | text :: rest =>
    if text.isEmpty then .error (.malformed .emptyBodyGoal line)
    else
      match readGoal text with
      | .ok _ => (readBody line rest).map (BodyGoal.ofText text :: ·)
      | .error f => .error f

/-- The goals of a text, which are separated by commas. -/
def goalTexts (text : List Char) : List String :=
  (Source.split ',' (Source.stripTerminator text)).map String.ofList

/-- Read a fact: its predicate and the clause. -/
def readFact (line : String) : Except Failure (String × Clause) :=
  match Grammar.clauseHead line with
  | .ok (name, args) => .ok (name, .fact args)
  | .error e => .error (.malformed (.unreadable e) line)

/-- Read a rule, given the texts of its head and body: its predicate and the clause. -/
def readRule (line : String) (head body : List Char) : Except Failure (String × Clause) :=
  match Grammar.clauseHead (String.ofList head) with
  | .error e => .error (.malformed (.unreadable e) line)
  | .ok (name, args) =>
    match goalTexts body with
    | [] => .error (.malformed .emptyBody line)
    | texts => (readBody line texts).map fun goals => (name, .rule args goals)

/-- Read a query. -/
def readQuery (text : String) : Except Failure (List Goal) :=
  let texts := goalTexts (Text.trim text.toList)
  if texts.isEmpty || texts.any String.isEmpty then .error (.malformed .emptyQueryGoal text)
  else texts.mapM readGoal

/-- A term as an answer shows it: variables that are still free become `_`. -/
def hideFree (t : Term) : Term := t.subst fun _ => .var Term.anonymousName

/-- One solution as an answer shows it. -/
def answerLine (names : List String) (b : Bindings) : String :=
  ", ".intercalate (names.map fun name =>
    name ++ " = " ++ (hideFree (b.resolveDeep (.var name))).display)

/-- The answer to a query. Only the first solutions are shown; the others are counted. -/
def answer (shown : Nat) (names : List String) (solutions : List Bindings) : List String :=
  if solutions.isEmpty then ["false."]
  else if names.isEmpty then ["true."]
  else
    (solutions.take shown).map (answerLine names)
      ++ (if shown < solutions.length then
          ["... and " ++ toString (solutions.length - shown) ++ " more"]
        else [])

/-- The variables that the answer to a query tells about: those that do not start with `_`. -/
def answerVariables (goals : List Goal) : List String :=
  (Goal.variablesOf goals).filter fun name => name.toList.head? != some '_'

namespace Reasoner

/-- A reasoner in its initial state. -/
def fresh (limits : Limits) : Reasoner := { limits }

/-- Forget everything except the limits and what was emitted. -/
def reset (r : Reasoner) : Reasoner := { limits := r.limits, output := r.output }

/-- Emit a line for the user. -/
def log (r : Reasoner) (text : String) : Reasoner := { r with output := r.output.log text }

/-- Emit lines for the user. -/
def logAll (r : Reasoner) (texts : List String) : Reasoner :=
  { r with output := r.output.emitAll (texts.map fun text => ⟨.log, text⟩) }

/-- What a search works with. -/
def setting (r : Reasoner) : Setting :=
  { database := r.database, trace := r.trace, limits := r.limits }

/-- Take over what a search has changed. -/
def withTally (r : Reasoner) (s : Tally) : Reasoner :=
  { r with steps := s.steps, activations := s.activations, output := s.output }

/-- Report a failure. -/
def report (r : Reasoner) (f : Failure) : Reasoner := r.log f.message

/-- Add a clause that was read. -/
def define (r : Reasoner) (read : Except Failure (String × Clause)) : Reasoner :=
  match read with
  | .ok (name, clause) => { r with database := r.database.add name clause }
  | .error f => r.report f

/-- Prove goals and answer. -/
def query (r : Reasoner) (goals : List Goal) : Reasoner :=
  match r.setting.solve goals { steps := 0, activations := r.activations, output := r.output } with
  | (.ok proof, s) =>
    (r.withTally s).logAll (answer r.limits.shown (answerVariables goals) proof.solutions)
  | (.error f, s) => (r.withTally s).report f

/-- Run a query given by its text. -/
def runQuery (r : Reasoner) (text : String) : Reasoner :=
  match readQuery text with
  | .ok goals => r.query goals
  | .error f => r.report f

/-- Emit all clauses. -/
def list (r : Reasoner) : Reasoner :=
  if r.database.isEmpty then r.log "% database is empty" else r.logAll r.database.listing

/-- Run a command. A word that starts with a small letter is a fact without arguments. -/
def command (r : Reasoner) (line : String) : Reasoner :=
  let word := Source.stripTerminator line.toList
  match String.ofList (word.map Char.toUpper) with
  | "LISTING" => r.list
  | "TRACE" => { r with trace := true }.log "% trace on"
  | "NOTRACE" => { r with trace := false }.log "% trace off"
  | "RESET" => r.reset.log "% database cleared"
  | _ =>
    if word.head?.any Char.isLower then r.define (readFact line)
    else r.report (.malformed .unknownCommand line)

/-- Use a line without a comment and without blanks around it. -/
def use (r : Reasoner) (line : List Char) : Reasoner :=
  let text := String.ofList line
  match Source.splitAt? Source.arrow none line with
  | some (head, arrowAndBody) => r.define (readRule text head (arrowAndBody.drop 2))
  | none =>
    match Source.classify line with
    | .query => r.runQuery (String.ofList (line.drop 2))
    | .fact => r.define (readFact text)
    | _ => r.command text

/-- Execute a line. -/
def execute (r : Reasoner) (line : String) : Reasoner × Outcome :=
  match Text.trim (Source.stripComment line.toList) with
  | [] => (r, .done)
  | trimmed => (r.use trimmed, .done)

/-- Take the emitted lines out of the reasoner. -/
def takeOutput (r : Reasoner) : List OutputLine × Reasoner :=
  (r.output.lines, { r with output := .empty })

end Reasoner

end StackLogic.Horn
