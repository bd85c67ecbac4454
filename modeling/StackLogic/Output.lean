/-!
# Output lines and outcomes

An interpreter never prints: it emits lines on one of two channels, and whoever runs it decides
what becomes of them. `Output` is the record of the emitted lines.
-/

namespace StackLogic

/-- Where a line is meant to go. -/
inductive Channel where
  /-- What the user is to read. -/
  | log
  /-- Internal diagnostics. -/
  | debug
  deriving DecidableEq, Repr

/-- A line with its channel. -/
structure OutputLine where
  /-- The channel the line was emitted on. -/
  channel : Channel
  /-- The text without a line end. -/
  text : String
  deriving DecidableEq, Repr

/-- The lines emitted and not yet taken. -/
structure Output where
  /-- The lines, the newest first, so that emitting takes constant time. -/
  newestFirst : List OutputLine := []
  deriving DecidableEq, Repr

namespace Output

/-- No lines. -/
def empty : Output := {}

/-- The lines in the order of their emission. -/
def lines (o : Output) : List OutputLine := o.newestFirst.reverse

/-- Whether there are no lines. -/
def isEmpty (o : Output) : Bool := o.newestFirst.isEmpty

/-- Emit a line. -/
def emit (o : Output) (channel : Channel) (text : String) : Output :=
  { newestFirst := { channel, text } :: o.newestFirst }

/-- Emit a line for the user. -/
def log (o : Output) (text : String) : Output := o.emit .log text

/-- Emit a diagnostic line. -/
def debug (o : Output) (text : String) : Output := o.emit .debug text

/-- Emit several lines. -/
def emitAll (o : Output) (lines : List OutputLine) : Output :=
  { newestFirst := lines.reverse ++ o.newestFirst }

/-- The texts emitted on one channel, in order. -/
def on (o : Output) (channel : Channel) : List String :=
  (o.lines.filter (·.channel == channel)).map (·.text)

/-- Emitting adds a line at the end. -/
@[simp] theorem lines_emit (o : Output) (channel : Channel) (text : String) :
    (o.emit channel text).lines = o.lines ++ [⟨channel, text⟩] := by
  simp [emit, lines]

/-- Emitting several lines adds them at the end. -/
@[simp] theorem lines_emitAll (o : Output) (ls : List OutputLine) :
    (o.emitAll ls).lines = o.lines ++ ls := by
  simp [emitAll, lines]

/-- The empty record has no lines. -/
@[simp] theorem lines_empty : empty.lines = [] := rfl

end Output

/-- How a line ended. -/
inductive Outcome where
  /-- The line ran to its end. -/
  | done
  /-- The line was stopped by a fault. -/
  | failed
  deriving DecidableEq, Repr

end StackLogic
