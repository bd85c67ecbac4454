/-!
# Control markers

While a line runs, every open conditional or loop has a marker. Some markers say that the tokens
up to the matching end are skipped. Control words are the only tokens that are looked at while
anything is skipped.
-/

namespace StackLogic.Machine

/-- The state of one open control structure. -/
inductive Marker where
  /-- A conditional whose present branch runs. -/
  | ifRun
  /-- A conditional whose present branch is skipped. -/
  | ifSkip
  /-- A loop before its condition. -/
  | loop
  /-- A loop body that runs. -/
  | whileRun
  /-- A loop body that is skipped. -/
  | whileSkip
  deriving DecidableEq, Repr

namespace Marker

/-- The name of a marker in diagnostics. -/
def name : Marker → String
  | ifRun => "IfExec"
  | ifSkip => "IfSkip"
  | loop => "Begin"
  | whileRun => "WhileExec"
  | whileSkip => "WhileSkip"

/-- Whether tokens are skipped under this marker. -/
def isSkip : Marker → Bool
  | ifSkip | whileSkip => true
  | _ => false

/-- Whether this is a conditional. -/
def isIf : Marker → Bool
  | ifRun | ifSkip => true
  | _ => false

/-- Whether this is a loop body. -/
def isWhile : Marker → Bool
  | whileRun | whileSkip => true
  | _ => false

/-- The other branch of a conditional. -/
def flip : Marker → Marker
  | ifRun => ifSkip
  | _ => ifRun

end Marker

/-- The open control structures, the innermost first. -/
abbrev Control := List Marker

namespace Control

/-- Whether tokens are skipped. -/
def isSkipping (c : Control) : Bool := c.any Marker.isSkip

/-- Whether tokens around the innermost structure are skipped. -/
def isSkippingBelowTop (c : Control) : Bool := c.tail.any Marker.isSkip

/-- Replace the innermost marker; nothing happens when there is none. -/
def setTop (c : Control) (m : Marker) : Control :=
  match c with
  | [] => []
  | _ :: rest => m :: rest

/-- The markers as shown in diagnostics, the outermost first. -/
def describe (c : Control) : String :=
  "[" ++ ", ".intercalate (c.reverse.map Marker.name) ++ "]"

end Control

/-- The words that open, divide and close control structures. -/
inductive ControlWord where
  | ifWord
  | elseWord
  | thenWord
  | beginWord
  | untilWord
  | whileWord
  | repeatWord
  deriving DecidableEq, Repr

/-- The control word with this name in upper case. -/
def ControlWord.ofName? : String → Option ControlWord
  | "IF" => some .ifWord
  | "ELSE" => some .elseWord
  | "THEN" => some .thenWord
  | "BEGIN" => some .beginWord
  | "UNTIL" => some .untilWord
  | "WHILE" => some .whileWord
  | "REPEAT" => some .repeatWord
  | _ => none

end StackLogic.Machine
