import StackLogic.Console.Editor
import StackLogic.Console.Transcript
import StackLogic.Session

/-!
# The console

The console turns key presses into edits, executed lines and scrolling. It holds a session, the
line editor and the transcript; nothing here draws anything.
-/

namespace StackLogic

namespace Console

/-- The keys the console tells apart. -/
inductive Key where
  | escape
  | tab
  | backTab
  | enter
  | backspace
  | delete
  | insert
  | left
  | right
  | home
  | endKey
  | up
  | down
  | pageUp
  | pageDown
  /-- A function key by its number. -/
  | function (n : Nat)
  /-- A key that types a character. -/
  | char (c : Char)
  deriving DecidableEq

/-- A key press. -/
structure Press where
  /-- The key. -/
  key : Key
  /-- Whether the control key is held. -/
  control : Bool := false
  deriving DecidableEq

/-- The pane that the page keys scroll. -/
inductive Pane where
  | transcript
  | state
  deriving DecidableEq, Repr

/-- The other pane. -/
def Pane.other : Pane → Pane
  | transcript => state
  | state => transcript

/-- The greatest scroll offset; it stands for the end of whatever is scrolled. -/
def maxOffset : Nat := UInt64.size - 1

/-- How far a page key scrolls. -/
def pageSize : Nat := 5

end Console

open Console

/-- The state of the console. -/
structure Console where
  /-- The interpreters. -/
  session : Session
  /-- The language that lines are executed in. -/
  language : Language
  /-- The line editor. -/
  editor : Editor := {}
  /-- What has been submitted and emitted. -/
  transcript : List Entry := []
  /-- The pane that the page keys scroll. -/
  focus : Pane := .transcript
  /-- The first entry of the transcript that is shown. -/
  transcriptScroll : Nat := 0
  /-- The first line of the state pane that is shown. -/
  stateScroll : Nat := 0
  /-- Whether diagnostics are shown. -/
  showDebug : Bool := false
  /-- Whether the user wants to leave. -/
  quit : Bool := false
  /-- The message in the status bar. -/
  status : String := "Ready!"
  /-- How the latest line ended. -/
  outcome : Outcome := .done

namespace Console

/-- A console at its start. -/
def fresh (session : Session) (language : Language) : Console := { session, language }

/-- The message about how a line ended. -/
def outcomeMessage : Outcome → String
  | .done => "ok"
  | .failed => "error"

/-- Execute a line that is not blank and record what it emits. -/
def run (c : Console) (line : List Char) : Console :=
  let (executed, outcome) := c.session.execute c.language (String.ofList line)
  let (output, session) := executed.takeOutput c.language
  { c with
    session
    editor := c.editor.remember line
    transcript := c.transcript ++ output.map (Entry.ofOutput c.language outcome)
    outcome
    status := outcomeMessage outcome
    transcriptScroll := maxOffset }

/-- Submit the line in the editor. A blank line is recorded and otherwise ignored. -/
def submit (c : Console) : Console :=
  let line := c.editor.text
  let recorded := { c with
    editor := c.editor.clear
    transcript := c.transcript ++ [Entry.ofInput c.language (String.ofList line)] }
  if Text.isBlankString (String.ofList line) then recorded else recorded.run line

/-- Move the scroll offset of the pane in focus. -/
def scroll (c : Console) (f : Nat → Nat) : Console :=
  match c.focus with
  | .transcript => { c with transcriptScroll := f c.transcriptScroll }
  | .state => { c with stateScroll := f c.stateScroll }

/-- Edit the line. -/
def edit (c : Console) (f : Editor → Editor) : Console := { c with editor := f c.editor }

/-- Type a character, or do what it stands for together with the control key. -/
def type (c : Console) (control : Bool) (ch : Char) : Console :=
  match control, ch with
  | true, 'c' => { c with quit := true }
  | true, 'l' => { c with transcript := [], transcriptScroll := 0, status := "Transcript cleared" }
  | true, 'r' =>
    { c with
      session := c.session.reset c.language
      status := c.language.name ++ " engine reset" }
  | _, ch => c.edit (·.insert ch)

/-- React to a key press. -/
def press (c : Console) (p : Press) : Console :=
  match p.key with
  | .escape => { c with quit := true }
  | .tab =>
    { c with
      language := c.language.toggle
      status := "Switched to " ++ c.language.toggle.name }
  | .backTab => { c with focus := c.focus.other }
  | .function 1 => { c with showDebug := !c.showDebug, transcriptScroll := maxOffset }
  | .enter => c.submit
  | .char ch => c.type p.control ch
  | .backspace => c.edit Editor.backspace
  | .delete => c.edit Editor.delete
  | .left => c.edit Editor.left
  | .right => c.edit Editor.right
  | .home => c.edit Editor.toStart
  | .endKey => c.edit Editor.toEnd
  | .up => c.edit Editor.previous
  | .down => c.edit Editor.next
  | .pageUp => c.scroll (· - pageSize)
  | .pageDown => c.scroll fun n => min (n + pageSize) maxOffset
  | .insert | .function _ => c

end Console

end StackLogic
