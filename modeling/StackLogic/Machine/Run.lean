import StackLogic.Limits
import StackLogic.Machine.Control
import StackLogic.Machine.Effect
import StackLogic.Machine.Number
import StackLogic.Output

/-!
# The stack machine

A machine runs one line after the other. The operand stack, the dictionary and a definition that is
still open survive a line; the open control structures and the active words do not.

Running is split in two. `Machine.step` says what one token does: it leads to the next machine, to a
fault, or to a call of a defined word. `runWith` runs a list of tokens, given a way to carry out
calls, and `run` supplies that way: a call runs the body with room for one word less. So both
recursions are structural, and every line ends.
-/

namespace StackLogic.Machine

/-- The state of compilation. Between `:` and `;`, the tokens of a definition are kept. -/
structure Compilation where
  /-- Whether a definition is open. -/
  compiling : Bool := false
  /-- Its name in upper case, once it has been read. -/
  name : Option String := none
  /-- The tokens that have been read after the name. -/
  pending : List Token := []
  deriving DecidableEq, Repr

namespace Compilation

/-- No definition is open. -/
def closed : Compilation := {}

/-- A definition has been opened, and its name is still missing. -/
def opened : Compilation := { compiling := true }

end Compilation

/-- An open definition, as it is shown. -/
inductive Draft where
  /-- The name is still missing. -/
  | unnamed
  /-- The name in upper case, and the tokens read so far. -/
  | named (name : String) (body : List Token)
  deriving DecidableEq, Repr

end StackLogic.Machine

namespace StackLogic

open Machine

/-- The state of the stack machine. -/
structure Machine where
  /-- The operand stack. -/
  stack : Operands := []
  /-- The open control structures. -/
  control : Control := []
  /-- The names of the active words, the innermost first. -/
  active : List String := []
  /-- The meanings of names. -/
  dictionary : Dictionary := {}
  /-- The state of compilation. -/
  compilation : Compilation := .closed
  /-- The lines emitted so far. -/
  output : Output := {}
  /-- The limits. -/
  limits : Limits := {}
  deriving DecidableEq

namespace Machine

/-- The open definition. -/
def draft (m : Machine) : Option Draft :=
  if m.compilation.compiling then
    some (match m.compilation.name with
      | none => .unnamed
      | some name => .named name m.compilation.pending)
  else none

/-- A machine in its initial state. -/
def fresh (limits : Limits) : Machine := { limits }

/-- Forget everything except the limits and what was emitted. -/
def reset (m : Machine) : Machine :=
  { limits := m.limits, output := m.output }

/-- What one token leads to. -/
inductive Step where
  /-- Go on with the next token. -/
  | next (m : Machine)
  /-- Stop. -/
  | fault (f : Fault) (m : Machine)
  /-- Run the body of a defined word. -/
  | call (name : String) (body : List Token)

/-- A token inside an open definition. -/
def compile (m : Machine) (t : Token) : Step :=
  if t = ":" then
    .fault (.malformed .nestedDefinition) { m with compilation := .closed }
  else
    match m.compilation.name with
    | none =>
      if t = ";" then
        .fault (.malformed .unnamedDefinition) { m with compilation := .closed }
      else .next { m with compilation := { m.compilation with name := some (Text.upper t) } }
    | some name =>
      if t = ";" then
        .next { m with
          dictionary := m.dictionary.define name m.compilation.pending
          compilation := .closed }
      else
        .next { m with
          compilation := { m.compilation with pending := m.compilation.pending ++ [t] } }

/-- Run a control word. -/
def controlStep (m : Machine) (w : ControlWord) : Step :=
  let (st, fault?) := w.run { control := m.control, stack := m.stack }
  let m' := { m with control := st.control, stack := st.stack }
  match fault? with
  | none => .next m'
  | some f => .fault f m'

/-- Run a primitive word. -/
def primitiveStep (m : Machine) (p : Primitive) : Step :=
  match p.run m.dictionary m.stack with
  | .ok effect =>
    .next { m with
      stack := effect.stack
      output := match effect.emitted with
        | some text => m.output.log text
        | none => m.output }
  | .error f => .fault f m

/-- Carry out the meaning of a name. -/
def meaningStep (m : Machine) (name : String) : Meaning → Step
  | .primitive p => m.primitiveStep p
  | .defined body => .call name body

/-- `RECURSE` calls the innermost active word again, under the meaning its name has now. -/
def recurseStep (m : Machine) : Step :=
  match m.active with
  | [] => .fault (.malformed .recurseOutside) m
  | name :: _ =>
    match m.dictionary.get? name with
    | some meaning => m.meaningStep name meaning
    | none => .fault (.unknownWord name) m

/-- A token that is neither a control word nor part of a definition. -/
def plainStep (m : Machine) (t : Token) (upper : String) : Step :=
  if upper = ":" then .next { m with compilation := .opened }
  else if upper = ";" then .fault (.malformed .strayEnd) m
  else if upper = "RECURSE" then m.recurseStep
  else if t.isQuoted then .next { m with stack := .str t.unquote :: m.stack }
  else
    match m.dictionary.get? upper with
    | some meaning => m.meaningStep upper meaning
    | none =>
      match Value.ofLiteral? t with
      | some v => .next { m with stack := v :: m.stack }
      | none => .fault (.unknownWord t) m

/-- What one token does. -/
def step (m : Machine) (t : Token) : Step :=
  if m.compilation.compiling then m.compile t
  else
    let upper := Text.upper t
    match ControlWord.ofName? upper with
    | some w => m.controlStep w
    | none => if m.control.isSkipping then .next m else m.plainStep t upper

/-- Where a run has stopped: the machine, and the fault that stopped it. -/
abbrev Halt := Machine × Option Fault

/-- Run tokens one after the other up to the first fault. Calls of defined words are carried out by
`call`. -/
def runWith (call : String → List Token → Machine → Halt) : List Token → Machine → Halt
  | [], m => (m, none)
  | t :: rest, m =>
    match m.step t with
    | .next m' => runWith call rest m'
    | .fault f m' => (m', some f)
    | .call name body =>
      match call name body m with
      | (m', none) => runWith call rest m'
      | (m', some f) => (m', some f)

/-- Run tokens with room for so many more active words. A called word is active while its body
runs, whether that succeeds or not. -/
def run : Nat → List Token → Machine → Halt
  | 0 => runWith fun _ _ m => (m, some (.callDepth m.limits.callDepth))
  | room + 1 => runWith fun name body m =>
    let (m', fault?) := run room body { m with active := name :: m.active }
    ({ m' with active := m'.active.tail }, fault?)

/-- The diagnostic about control structures that a line has left open. -/
def unbalanced (control : Control) : String :=
  "Unbalanced control structure: " ++ toString control.length ++ " marker(s) left open ("
    ++ control.describe ++ ")"

/-- Report and drop the control structures that a line has left open. -/
def closeLine (m : Machine) : Machine :=
  if m.control.isEmpty then m
  else { m with output := m.output.debug (unbalanced m.control), control := [] }

/-- Report a fault. -/
def report (m : Machine) (f : Fault) : Machine :=
  let logged := m.output.log f.message
  { m with
    output := match f.diagnostic? with
      | some text => logged.debug text
      | none => logged
    active := [] }

/-- Run the tokens of a line on a machine without open control structures and active words. -/
def runLine (m : Machine) (line : String) : Halt :=
  match Token.scan line with
  | .ok tokens => run m.limits.callDepth tokens m
  | .error f => (m, some f)

/-- Execute a line. -/
def execute (m : Machine) (line : String) : Machine × Outcome :=
  let (m', fault?) := runLine { m with control := [], active := [] } line
  let closed := m'.closeLine
  match fault? with
  | none => (closed, .done)
  | some f => (closed.report f, .failed)

/-- Take the emitted lines out of the machine. -/
def takeOutput (m : Machine) : List OutputLine × Machine :=
  (m.output.lines, { m with output := .empty })

end Machine

end StackLogic
