/-!
# The line editor

The editor holds the line that is being typed, the place of the cursor in it, and the lines
submitted before. Walking through the earlier lines replaces the line that is being typed.
-/

namespace StackLogic.Console

/-- The state of the line editor. -/
structure Editor where
  /-- The line that is being typed. -/
  text : List Char := []
  /-- How many characters stand before the cursor. -/
  cursor : Nat := 0
  /-- The submitted lines, the oldest first. -/
  history : List (List Char) := []
  /-- The place in the history that is shown, if any. -/
  recalled : Option Nat := none
  deriving DecidableEq

namespace Editor

/-- Put a character at the cursor and move past it. -/
def insert (e : Editor) (c : Char) : Editor :=
  { e with text := e.text.take e.cursor ++ c :: e.text.drop e.cursor, cursor := e.cursor + 1 }

/-- Remove the character at the cursor. -/
def delete (e : Editor) : Editor :=
  { e with text := e.text.eraseIdx e.cursor }

/-- Remove the character before the cursor. -/
def backspace (e : Editor) : Editor :=
  match e.cursor with
  | 0 => e
  | before + 1 => { e with text := e.text.eraseIdx before, cursor := before }

/-- Move one character to the left. -/
def left (e : Editor) : Editor := { e with cursor := e.cursor - 1 }

/-- Move one character to the right. -/
def right (e : Editor) : Editor := { e with cursor := min (e.cursor + 1) e.text.length }

/-- Move to the beginning. -/
def toStart (e : Editor) : Editor := { e with cursor := 0 }

/-- Move to the end. -/
def toEnd (e : Editor) : Editor := { e with cursor := e.text.length }

/-- Show another line, with the cursor at its end. -/
def replace (e : Editor) (text : List Char) : Editor := { e with text, cursor := text.length }

/-- Show the line at this place of the history. -/
def bringBack (e : Editor) (i : Nat) : Editor :=
  { e with recalled := some i }.replace (e.history[i]?.getD [])

/-- Go back in the history. -/
def previous (e : Editor) : Editor :=
  if e.history.isEmpty then e
  else
    match e.recalled with
    | some i => e.bringBack (i - 1)
    | none => e.bringBack (e.history.length - 1)

/-- Go forward in the history; after the latest line comes an empty one. -/
def next (e : Editor) : Editor :=
  match e.recalled with
  | none => e
  | some i =>
    if i + 1 < e.history.length then e.bringBack (i + 1)
    else { e with recalled := none }.replace []

/-- Start a new line. -/
def clear (e : Editor) : Editor := { e with text := [], cursor := 0, recalled := none }

/-- Remember a submitted line, unless it is the same as the one before. -/
def remember (e : Editor) (line : List Char) : Editor :=
  if e.history.getLast? = some line then e else { e with history := e.history ++ [line] }

end Editor

end StackLogic.Console
