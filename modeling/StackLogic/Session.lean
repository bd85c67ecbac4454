import StackLogic.Horn.Reasoner
import StackLogic.Language
import StackLogic.Machine.Run
import StackLogic.Text.Lines

/-!
# Sessions

A session holds one interpreter of each language. Each keeps its own output until it is taken. A
program is run line by line; a line of the stack language that fails ends it, while lines of the
logic language never do.
-/

namespace StackLogic

open Horn (Reasoner)

/-- One interpreter of each language. -/
structure Session where
  /-- The interpreter of the stack language. -/
  machine : Machine
  /-- The interpreter of the logic language. -/
  reasoner : Reasoner

/-- What running a program has led to. -/
structure ProgramReport where
  /-- How many lines were executed; blank ones are not. -/
  executed : Nat := 0
  /-- The number of the line that ended the program early, counted from one. -/
  stoppedAt : Option Nat := none
  /-- What was emitted. -/
  output : List OutputLine := []

namespace Session

/-- A session with fresh interpreters. -/
def fresh (limits : Limits) : Session :=
  { machine := .fresh limits, reasoner := .fresh limits }

/-- Execute a line. -/
def execute (s : Session) (language : Language) (line : String) : Session × Outcome :=
  match language with
  | .forth =>
    let (machine, outcome) := s.machine.execute line
    ({ s with machine }, outcome)
  | .prolog =>
    let (reasoner, outcome) := s.reasoner.execute line
    ({ s with reasoner }, outcome)

/-- Take the output of one language. -/
def takeOutput (s : Session) (language : Language) : List OutputLine × Session :=
  match language with
  | .forth =>
    let (lines, machine) := s.machine.takeOutput
    (lines, { s with machine })
  | .prolog =>
    let (lines, reasoner) := s.reasoner.takeOutput
    (lines, { s with reasoner })

/-- Reset one interpreter and drop its output. -/
def reset (s : Session) (language : Language) : Session :=
  match language with
  | .forth => { s with machine := s.machine.reset.takeOutput.2 }
  | .prolog => { s with reasoner := s.reasoner.reset.takeOutput.2 }

/-- Run the lines of a program, the first of which has this number. -/
def runLines (language : Language) (number : Nat) : List String → Session → ProgramReport × Session
  | [], s => ({}, s)
  | line :: rest, s =>
    if Text.isBlankString line then runLines language (number + 1) rest s
    else
      let (executed, outcome) := s.execute language line
      let (output, taken) := executed.takeOutput language
      match outcome with
      | .failed => ({ executed := 1, stoppedAt := some number, output }, taken)
      | .done =>
        let (report, final) := runLines language (number + 1) rest taken
        ({ report with executed := report.executed + 1, output := output ++ report.output }, final)

/-- Run a program. -/
def runProgram (s : Session) (language : Language) (text : String) : ProgramReport × Session :=
  runLines language 1 (Text.linesOfString text) s

end Session

end StackLogic
