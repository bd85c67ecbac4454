import StackLogic.Text.Blank

/-!
# Lines of the logic language

Before its parts are read, a line is taken apart on its raw text: a comment is dropped, the kind of
the line is told, and a body is split into goals at its commas. All of this looks at quotes and
brackets only, so that nothing inside a text, a quoted atom or a list is taken for a part of the
line. A quoted stretch ends at the next quote of the same kind.
-/

namespace StackLogic.Horn.Source

/-- The quote that is open, if any. -/
abbrev Quote := Option Char

/-- Whether a character opens a quoted stretch. -/
def isQuote (c : Char) : Bool := c == '\x22' || c == '\x27'

/-- The open quote after a character. -/
def Quote.next (q : Quote) (c : Char) : Quote :=
  match q with
  | some opened => if c = opened then none else some opened
  | none => if isQuote c then some c else none

/-- Drop a comment that goes on in these characters. A `%` starts one outside of quotes, at the
beginning or after a `.`; `last` is the last character that was not blank. -/
def dropComment (q : Quote) (last : Option Char) : List Char → List Char
  | [] => []
  | c :: rest =>
    if q.isNone && c == '%' && (last == none || last == some '.') then []
    else c :: dropComment (q.next c) (if Text.isBlank c then last else some c) rest

/-- A line without its comment. -/
def stripComment (line : List Char) : List Char := dropComment none none line

/-- The text before the first place outside of quotes where `pattern` starts, and the text from
there on. -/
def splitAt? (pattern : List Char) (q : Quote) : List Char → Option (List Char × List Char)
  | [] => none
  | c :: rest =>
    if q.isNone && !isQuote c && pattern.isPrefixOf (c :: rest) then some ([], c :: rest)
    else (splitAt? pattern (q.next c) rest).map fun (before, found) => (c :: before, found)

/-- The first place outside of quotes where `pattern` starts, as a number of bytes. -/
def find? (pattern text : List Char) : Option Nat :=
  (splitAt? pattern none text).map fun (before, _) => (String.ofList before).utf8ByteSize

/-- The nesting depth after a character outside of quotes. A closing bracket that closes nothing
changes nothing. -/
def nest (depth : Nat) (c : Char) : Nat :=
  if c = '(' ∨ c = '[' then depth + 1
  else if c = ')' ∨ c = ']' then depth - 1
  else depth

/-- Whether a character is a separator: it is outside of quotes and brackets, and no quote or
bracket itself. -/
def separates (separator : Char) (q : Quote) (depth : Nat) (c : Char) : Bool :=
  q.isNone && depth == 0 && c == separator && !isQuote c && !"()[]".toList.contains c

/-- The pieces between separators: the first and the others. -/
def pieces (separator : Char) (q : Quote) (depth : Nat) : List Char → List Char × List (List Char)
  | [] => ([], [])
  | c :: rest =>
    if separates separator q depth c then
      let (first, others) := pieces separator none 0 rest
      ([], first :: others)
    else
      let depth' := if q.isNone then nest depth c else depth
      let (first, others) := pieces separator (q.next c) depth' rest
      (c :: first, others)

/-- Split a text at a separator outside of quotes and brackets and trim the pieces. A blank text
has no pieces. -/
def split (separator : Char) (text : List Char) : List (List Char) :=
  match pieces separator none 0 text with
  | (only, []) => if Text.trim only = [] then [] else [Text.trim only]
  | (first, others) => (first :: others).map Text.trim

/-- A text without blanks at its end, without a final `.`, and without blanks before that. -/
def stripTerminator (text : List Char) : List Char :=
  let trimmed := Text.trimEnd text
  if trimmed.getLast? = some '.' then Text.trimEnd trimmed.dropLast else trimmed

/-- The kinds of lines. -/
inductive Kind where
  | rule
  | query
  | fact
  | command
  deriving DecidableEq, Repr

/-- The arrow between head and body of a rule. -/
def arrow : List Char := [':', '-']

/-- What a query starts with. -/
def queryMark : List Char := ['?', '-']

/-- The kind of a line. -/
def classify (text : List Char) : Kind :=
  let line := Text.trim text
  if (splitAt? arrow none line).isSome then .rule
  else if queryMark.isPrefixOf line then .query
  else if '(' ∈ line ∧ ')' ∈ line then .fact
  else .command

end StackLogic.Horn.Source
