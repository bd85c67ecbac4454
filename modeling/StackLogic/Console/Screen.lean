import StackLogic.Console.Basic
import StackLogic.Console.Terminal
import StackLogic.Text.Upper

/-!
# The screen

The screen has the transcript on the left, the state of the current interpreter on the right, below
them the line editor, and a status bar at the bottom. Drawing limits the scroll offsets to what there
is to show, so it gives back a console as well.
-/

namespace StackLogic.Console

/-- How many rows fit into a pane of this height; a pane shows at least one. -/
def visibleRows (height : Nat) : Nat := max (height - 2) 1

/-- A scroll offset limited so that the last rows stay at the bottom. -/
def clampScroll (offset total height : Nat) : Nat := min offset (total - visibleRows height)

/-- The entries of the transcript that are shown at all. -/
def shownEntries (c : Console) : List Entry :=
  c.transcript.filter fun e => c.showDebug || e.kind != .debug

/-- The rows of the transcript pane, and the scroll offset they start at. The offset counts entries. -/
def transcriptRows (T : Terminal) (c : Console) (height : Nat) : List Row × Nat :=
  let entries := c.shownEntries
  if entries.isEmpty then
    (T.paragraph (height - 2) 0 ["(type a line and press Enter)"], c.transcriptScroll)
  else
    let offset := clampScroll c.transcriptScroll entries.length height
    let window := (entries.drop offset).take (visibleRows height)
    ((T.list (height - 2) (window.map Entry.text)).map (T.padded 1), offset)

/-- A number with at least three places. -/
def placeNumber (n : Nat) : String :=
  let digits := toString n
  String.ofList (List.replicate (3 - digits.length) ' ') ++ digits

/-- The state of the stack machine, line by line. -/
def machineLines (m : Machine) : List String :=
  ("Stack <" ++ toString m.stack.length ++ ">")
    :: (if m.stack.isEmpty then ["  (empty)"] else [])
    ++ m.stack.zipIdx.map (fun (v, i) => "  " ++ placeNumber i ++ ": " ++ v.quoted)
    ++ (match m.draft with
      | some (.named name _) => ["", "Compiling " ++ name ++ " ..."]
      | _ => [])
    ++ ["", "User words"]
    ++ (if m.dictionary.definitions.isEmpty then ["  (none)"] else [])
    ++ m.dictionary.definitions.map
      (fun (name, body) => "  : " ++ name ++ " " ++ " ".intercalate body ++ " ;")

/-- The state of the logic interpreter, line by line. -/
def reasonerLines (r : Horn.Reasoner) : List String :=
  ("Database (" ++ toString r.database.size ++ " clauses)" ++ (if r.trace then " [trace]" else ""))
    :: (if r.database.isEmpty then ["  (empty)"] else [])
    ++ r.database.listing.map ("  " ++ ·)

/-- The state of the current interpreter, line by line. -/
def stateLines (c : Console) : List String :=
  match c.language with
  | .forth => machineLines c.session.machine
  | .prolog => reasonerLines c.session.reasoner

/-- The rows of the state pane, and the scroll offset. The offset is drawn modulo `2 ^ 16`, the range
of screen coordinates. -/
def stateRows (T : Terminal) (c : Console) (height : Nat) : List Row × Nat :=
  let lines := c.stateLines
  let offset := clampScroll c.stateScroll lines.length height
  (T.paragraph (height - 2) (offset % UInt16.size) lines, offset)

/-- The line of the line editor. -/
def inputLine (c : Console) : String := c.language.prompt ++ String.ofList c.editor.text

/-- The left part of the status bar. -/
def statusRow (c : Console) : Row :=
  (" " ++ Text.upper c.language.name ++ " " ++ " | " ++ " " ++ c.status ++ " ").toList

/-- The key hints in the right part of the status bar. -/
def keyHints (c : Console) : Row :=
  (" ↹  language │  ⇞/⇟  scroll │  F1  debug │  ^R  reset │ esc quit "
    ++ (if c.showDebug then "│ DEBUG " else "")).toList

/-- What is drawn: the rows without trailing spaces, and the place of the cursor. -/
structure Screen where
  /-- The rows from top to bottom. -/
  rows : List String
  /-- The column of the cursor. -/
  cursorX : Nat
  /-- The row of the cursor. -/
  cursorY : Nat

/-- A row as text without trailing spaces. -/
def rowText (cs : Row) : String :=
  String.ofList (cs.reverse.dropWhile (· == ' ')).reverse

/-- Draw the console on a screen of this size. -/
def drawOn (T : Terminal) (c : Console) (width height : Nat) : Console × Screen :=
  let paneHeight := height - 4
  let (leftWidth, rightWidth) := T.columns 65 width
  let (transcript, transcriptScroll) := c.transcriptRows T paneHeight
  let (state, stateScroll) := c.stateRows T paneHeight
  let left := T.box " Transcript " leftWidth paneHeight transcript
  let right := T.box (" " ++ c.language.name ++ " state ") rightWidth paneHeight state
  let input := T.box " Input " width 3 (T.paragraph 1 0 [c.inputLine])
  let (statusWidth, hintsWidth) := T.columns 40 width
  let status := T.atLeft statusWidth c.statusRow ++ T.atRight hintsWidth c.keyHints
  let column := (c.language.prompt.length + c.editor.cursor) % UInt16.size
  ({ c with transcriptScroll, stateScroll },
    { rows := (List.zipWith (· ++ ·) left right ++ input ++ [status]).map rowText
      cursorX := min (1 + column) (width - 2)
      cursorY := height - 3 })

/-- Draw the console on the standard terminal. -/
def draw (c : Console) (width height : Nat) : Console × Screen := c.drawOn .standard width height

end StackLogic.Console
