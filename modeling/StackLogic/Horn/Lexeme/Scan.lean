import StackLogic.Decimal.Reading
import StackLogic.Horn.ReadError

/-!
# Scanning one lexeme

`Lexeme.scan` reads the lexeme at the beginning of a text. Operator characters are grouped
greedily, so `=:=` is one symbol; a point belongs to a number only if a digit follows it. The main
facts are that a lexeme and what follows it add up to the text (`scan_width`), and that a lexeme is
never empty (`scan_pos`).
-/

namespace StackLogic.Horn

namespace Lexeme

/-- The characters that make up symbols. -/
def symbolChars : List Char := "+-*/\\^<>=~:.?@#&$%".toList

/-- Whether a character can be part of a symbol. -/
def isSymbolChar (c : Char) : Bool := symbolChars.contains c

/-- Whether a character can continue a name. -/
def isNameChar (c : Char) : Bool := c.isAlphanum || c == '_'

/-- A lexeme at the beginning of a text. -/
structure Scanned where
  /-- What was read. -/
  lexeme : Lexeme
  /-- How many characters it takes. -/
  width : Nat
  /-- What follows it. -/
  rest : List Char

/-- What a character after a backslash stands for. -/
def unescape : Char → Char
  | 'n' => '\n'
  | 't' => '\t'
  | c => c

/-- A text up to the closing quote: its characters, how many were read, and what follows. -/
def quoted (quote : Char) : List Char → Option (List Char × Nat × List Char)
  | [] => none
  | ['\\'] => none
  | '\\' :: c :: rest =>
    (quoted quote rest).map fun (text, n, after) => (unescape c :: text, n + 2, after)
  | c :: rest =>
    if c = quote then some ([], 1, rest)
    else (quoted quote rest).map fun (text, n, after) => (c :: text, n + 1, after)

/-- The longest run of characters with a property, and what follows it. -/
def run (p : Char → Bool) (make : String → Lexeme) (c : Char) (rest : List Char) : Scanned :=
  let more := rest.takeWhile p
  { lexeme := make (String.ofList (c :: more)), width := 1 + more.length, rest := rest.dropWhile p }

/-- A number. A point belongs to it only if a digit follows. -/
def number (c : Char) (rest : List Char) : Except ReadCause Scanned :=
  let whole := c :: rest.takeWhile Char.isDigit
  match rest.dropWhile Char.isDigit with
  | '.' :: d :: more =>
    if d.isDigit then
      let places := d :: more.takeWhile Char.isDigit
      let digits := whole ++ places
      .ok {
        lexeme := float (Decimal.nearest (Decimal.ofDigits digits) digits.length (-places.length))
        width := whole.length + 1 + places.length
        rest := more.dropWhile Char.isDigit }
    else integer whole ('.' :: d :: more)
  | after => integer whole after
where
  /-- An integer, if it fits. -/
  integer (digits after : List Char) : Except ReadCause Scanned :=
    match Decimal.fit? (Decimal.ofDigits digits) with
    | some n => .ok { lexeme := int n, width := digits.length, rest := after }
    | none => .error (.integerRange (String.ofList digits))

/-- The lexemes of one character. -/
def punctuation? : Char → Option Lexeme
  | '(' => some openParen
  | ')' => some closeParen
  | '[' => some openBracket
  | ']' => some closeBracket
  | ',' => some comma
  | '|' => some pipe
  | '!' => some bang
  | _ => none

/-- A text in quotes, made into a lexeme; `missing` is reported when it is not closed. -/
def enclosed (make : String → Lexeme) (missing : ReadCause) (quote : Char) (rest : List Char) :
    Except ReadCause Scanned :=
  match quoted quote rest with
  | some (text, n, after) =>
    .ok { lexeme := make (String.ofList text), width := n + 1, rest := after }
  | none => .error missing

/-- The lexeme that starts with the character `c` and goes on in `rest`. -/
def scan (c : Char) (rest : List Char) : Except ReadCause Scanned :=
  if c = '\x22' then enclosed str .unterminatedString c rest
  else if c = '\x27' then enclosed atom .unterminatedAtom c rest
  else if c.isDigit then number c rest
  else if c.isUpper || c == '_' then .ok (run isNameChar variableName c rest)
  else if c.isLower then .ok (run isNameChar atom c rest)
  else if isSymbolChar c then .ok (run isSymbolChar symbol c rest)
  else
    match punctuation? c with
    | some l => .ok { lexeme := l, width := 1, rest }
    | none => .error (.unexpectedCharacter c)

/-- The closing quote is counted: what is read and what follows add up. -/
theorem quoted_width {q : Char} {cs text after : List Char} {n : Nat}
    (h : quoted q cs = some (text, n, after)) : n + after.length = cs.length := by
  fun_induction quoted q cs generalizing text n after with
  | case1 => simp at h
  | case2 => simp at h
  | case3 c rest ih =>
    simp only [Option.map_eq_some_iff, Prod.mk.injEq] at h
    obtain ⟨⟨text', n', after'⟩, found, -, rfl, rfl⟩ := h
    have := ih found
    simp only [List.length_cons]
    omega
  | case4 rest _ =>
    cases h
    simp only [List.length_cons]
    omega
  | case5 c rest _ _ _ ih =>
    simp only [Option.map_eq_some_iff, Prod.mk.injEq] at h
    obtain ⟨⟨text', n', after'⟩, found, -, rfl, rfl⟩ := h
    have := ih found
    simp only [List.length_cons]
    omega

/-- A run and what follows it add up. -/
theorem run_width (p : Char → Bool) (make : String → Lexeme) (c : Char) (rest : List Char) :
    (run p make c rest).width + (run p make c rest).rest.length = rest.length + 1 := by
  have split := congrArg List.length (List.takeWhile_append_dropWhile (p := p) (l := rest))
  simp only [List.length_append] at split
  simp only [run]
  omega

/-- An integer and what follows it add up. -/
theorem integer_width {digits after : List Char} {s : Scanned}
    (h : number.integer digits after = .ok s) :
    s.width + s.rest.length = digits.length + after.length := by
  unfold number.integer at h
  split at h
  · cases h; rfl
  · cases h

/-- A number and what follows it add up. -/
theorem number_width {c : Char} {rest : List Char} {s : Scanned} (h : number c rest = .ok s) :
    s.width + s.rest.length = rest.length + 1 := by
  have split := congrArg List.length
    (List.takeWhile_append_dropWhile (p := Char.isDigit) (l := rest))
  simp only [List.length_append] at split
  unfold number at h
  split at h
  next d more found =>
    rw [found] at split
    simp only [List.length_cons] at split
    split at h
    · have inner := congrArg List.length
        (List.takeWhile_append_dropWhile (p := Char.isDigit) (l := more))
      simp only [List.length_append] at inner
      cases h
      simp only [List.length_cons]
      omega
    · have := integer_width h
      simp only [List.length_cons] at this
      omega
  next =>
    have := integer_width h
    simp only [List.length_cons] at this
    omega

/-- A text in quotes and what follows it add up. -/
theorem enclosed_width {make : String → Lexeme} {missing : ReadCause} {quote : Char}
    {rest : List Char} {s : Scanned} (h : enclosed make missing quote rest = .ok s) :
    s.width + s.rest.length = rest.length + 1 := by
  unfold enclosed at h
  split at h
  next found =>
    have := quoted_width found
    cases h
    simp only []
    omega
  next => cases h

/-- A lexeme and what follows it add up to the text. -/
theorem scan_width {c : Char} {rest : List Char} {s : Scanned} (h : scan c rest = .ok s) :
    s.width + s.rest.length = rest.length + 1 := by
  unfold scan at h
  split at h
  · exact enclosed_width h
  split at h
  · exact enclosed_width h
  split at h
  · exact number_width h
  split at h
  · cases h; exact run_width ..
  split at h
  · cases h; exact run_width ..
  split at h
  · cases h; exact run_width ..
  split at h
  · cases h; exact Nat.add_comm ..
  · cases h

/-- A number takes at least one character. -/
theorem number_pos {c : Char} {rest : List Char} {s : Scanned} (h : number c rest = .ok s) :
    0 < s.width := by
  have whole {digits after : List Char} (nonempty : 0 < digits.length)
      (found : number.integer digits after = .ok s) : 0 < s.width := by
    unfold number.integer at found
    split at found
    · cases found; exact nonempty
    · cases found
  unfold number at h
  split at h
  · split at h
    · cases h; simp only [List.length_cons]; omega
    · exact whole (by simp) h
  · exact whole (by simp) h

/-- A lexeme takes at least one character. -/
theorem scan_pos {c : Char} {rest : List Char} {s : Scanned} (h : scan c rest = .ok s) :
    0 < s.width := by
  have closed {make : String → Lexeme} {missing : ReadCause}
      (found : enclosed make missing c rest = .ok s) : 0 < s.width := by
    unfold enclosed at found
    split at found
    · cases found; exact Nat.succ_pos _
    · cases found
  unfold scan at h
  split at h
  · exact closed h
  split at h
  · exact closed h
  split at h
  · exact number_pos h
  split at h
  · cases h; simp only [run]; omega
  split at h
  · cases h; simp only [run]; omega
  split at h
  · cases h; simp only [run]; omega
  split at h
  · cases h; exact Nat.one_pos
  · cases h

end Lexeme

end StackLogic.Horn
