import StackLogic.Text.Lines

/-!
# Drawing on a terminal

The console does not draw single characters. It asks for columns, boxes, lists and paragraphs, and a
`Terminal` says what these look like. `Terminal.standard` is the one that the console runs on.
-/

namespace StackLogic.Console

/-- A row of the screen. -/
abbrev Row := List Char

/-- What is asked of the library that draws on the terminal. -/
structure Terminal where
  /-- The widths of two columns, of which the first takes a percentage of the whole width. -/
  columns : (percent width : Nat) → Nat × Nat
  /-- A box of this width and height with a title in its upper edge around rows of text. -/
  box : (title : String) → (width height : Nat) → List Row → List Row
  /-- A row of text between the sides of a box of this width. -/
  sides : (width : Nat) → Row → Row
  /-- A row moved to the right by the padding of a box. -/
  padded : (padding : Nat) → Row → Row
  /-- The rows of an item of a list. -/
  itemRows : String → List Row
  /-- The rows of a list of items, with room for so many rows. -/
  list : (room : Nat) → List String → List Row
  /-- The row of a line of a paragraph. -/
  lineRow : String → Row
  /-- The rows of a paragraph from a scroll offset on, with room for so many rows. -/
  paragraph : (room offset : Nat) → List String → List Row
  /-- The greatest number of lines that a paragraph counts while it is drawn. -/
  lastLine : Nat
  /-- A row at the left edge of an area of this width. -/
  atLeft : (width : Nat) → Row → Row
  /-- A row at the right edge of an area of this width. -/
  atRight : (width : Nat) → Row → Row

namespace Terminal

/-- A row cut or filled with spaces to a width. -/
def fit (width : Nat) (cs : Row) : Row :=
  cs.take width ++ List.replicate (width - cs.length) ' '

/-- A row of text between the sides of a box. -/
def boxRow (width : Nat) (cs : Row) : Row := '│' :: fit (width - 2) cs ++ ['│']

/-- A box with a title in its upper edge around rows of text. -/
def drawBox (title : String) (width height : Nat) (rows : List Row) : List Row :=
  let inner := width - 2
  let name := title.toList.take inner
  let upper := '┌' :: (name ++ List.replicate (inner - name.length) '─') ++ ['┐']
  let lower := '└' :: List.replicate inner '─' ++ ['┘']
  upper :: (List.range (height - 2)).map (fun i => boxRow width (rows[i]?.getD [])) ++ [lower]

/-- One row for each line of a text, and one for an empty text. -/
def textRows (text : String) : List Row :=
  match Text.lines text.toList with
  | [] => [[]]
  | lines => lines

/-- The rows of the items that have room, up to the first item that does not fit as a whole. -/
def fill (room : Nat) : List (List Row) → List Row
  | [] => []
  | item :: rest =>
    if item.length ≤ room then item ++ fill (room - item.length) rest else []

/-- The row of a line, which leaves out line breaks. -/
def flatRow (line : String) : Row := (Text.lines line.toList).flatten

/-- The rows of lines from an offset on. The lines are counted from the first one on, up to the last
row that has room; the count is kept in 16 bits. -/
def scrolled (room offset : Nat) (lines : List String) : List Row :=
  ((lines.take ((room + offset) % UInt16.size)).drop offset).map flatRow

/-- A row moved to the right edge; one that is too long is cut there. -/
def alignRight (width : Nat) (cs : Row) : Row :=
  List.replicate (width - cs.length) ' ' ++ cs.take width

/-- The terminal that the console is drawn on. A percentage is rounded to the nearest column. -/
def standard : Terminal where
  columns percent width :=
    let first := (width * percent + 50) / 100
    (first, width - first)
  box := drawBox
  sides := boxRow
  padded padding cs := List.replicate padding ' ' ++ cs
  itemRows := textRows
  list room items := fill room (items.map textRows)
  lineRow := flatRow
  paragraph := scrolled
  lastLine := UInt16.size - 1
  atLeft := fit
  atRight := alignRight

end Terminal

end StackLogic.Console
