import StackLogic.Horn.Source
import StackLogic.Horn.Token
import Mathlib.Data.Bool.Basic
import Mathlib.Data.List.Basic

/-!
# What a lexeme takes of a text

`Spans` is the grammar of lexemes: which characters stand for a lexeme, and what may not follow them.
Numbers, names and symbols go on as long as they can; escapes in quotes take the next character with
them. `Unreadable` says why no lexeme starts with a character. At every place of a text one of the two
holds (`begins_or_unreadable`), and the scanner finds out which (`Spans.scan_eq`,
`Unreadable.scan_eq`).
-/

namespace StackLogic.Horn.Lexeme

open Source

variable {c d q : Char} {rest inside text span after : List Char} {l : Lexeme} {cause : ReadCause}

/-! ## Characters -/

theorem isUpper_iff : c.isUpper = true ↔ 65 ≤ c.toNat ∧ c.toNat ≤ 90 := by
  have hrange : c.isUpper = decide (65 ≤ c.val ∧ c.val ≤ 90) := rfl
  simp [hrange, UInt32.le_iff_toNat_le, ← Char.toNat_val]

theorem isLower_iff : c.isLower = true ↔ 97 ≤ c.toNat ∧ c.toNat ≤ 122 := by
  have hrange : c.isLower = (decide (97 ≤ c.val) && decide (c.val ≤ 122)) := rfl
  simp [hrange, UInt32.le_iff_toNat_le, ← Char.toNat_val]

theorem isDigit_iff : c.isDigit = true ↔ 48 ≤ c.toNat ∧ c.toNat ≤ 57 := by
  simp [Char.isDigit, UInt32.le_iff_toNat_le, ← Char.toNat_val]

/-- The characters that names go on with. -/
theorem isNameChar_eq (c : Char) :
    isNameChar c = (c.isUpper || c.isLower || c.isDigit || c == '_') := rfl

theorem isBlank_eq_false (hlow : 33 ≤ c.toNat) (hhigh : c.toNat ≤ 126) :
    Text.isBlank c = false := by
  simp [Text.isBlank, Text.blankRanges]
  omega

/-- What the first character of a variable excludes. -/
theorem isUpper_cases (hc : (c.isUpper || c == '_') = true) :
    c.isDigit = false ∧ Text.isBlank c = false ∧ isNameChar c = true := by
  rw [Bool.or_eq_true, beq_iff_eq] at hc
  rcases hc with hc | rfl
  · obtain ⟨hlow, hhigh⟩ := isUpper_iff.1 hc
    refine ⟨?_, isBlank_eq_false (by omega) (by omega), ?_⟩
    · rw [← Bool.not_eq_true, isDigit_iff]
      omega
    · simp [isNameChar_eq, hc]
  · decide

/-- What the first character of an atom excludes. -/
theorem isLower_cases (hc : c.isLower = true) :
    c.isDigit = false ∧ (c.isUpper || c == '_') = false ∧ Text.isBlank c = false ∧
      isNameChar c = true := by
  obtain ⟨hlow, hhigh⟩ := isLower_iff.1 hc
  refine ⟨?_, ?_, isBlank_eq_false (by omega) (by omega), ?_⟩
  · rw [← Bool.not_eq_true, isDigit_iff]
    omega
  · rw [← Bool.not_eq_true, Bool.or_eq_true, beq_iff_eq, isUpper_iff, not_or]
    refine ⟨by omega, ?_⟩
    rintro rfl
    exact absurd hc (by decide)
  · simp [isNameChar_eq, hc]

theorem isSymbolChar_cases (hc : isSymbolChar c = true) :
    c ≠ '\x22' ∧ c ≠ '\x27' ∧ c.isDigit = false ∧ (c.isUpper || c == '_') = false ∧
      c.isLower = false ∧ Text.isBlank c = false := by
  have hall : (symbolChars.all fun x => x != '\x22' && x != '\x27' && !x.isDigit &&
      !(x.isUpper || x == '_') && !x.isLower && !Text.isBlank x) = true := by decide
  have hmem : c ∈ symbolChars := by simpa [isSymbolChar] using hc
  simpa [and_assoc] using List.all_eq_true.1 hall c hmem

theorem mem_of_punctuation? (hc : punctuation? c = some l) : c ∈ "()[],|!".toList := by
  unfold punctuation? at hc
  split at hc <;> first | decide | cases hc

/-- A mark of punctuation is of no other kind. -/
theorem punctuation?_cases (hc : punctuation? c = some l) :
    c ≠ '\x22' ∧ c ≠ '\x27' ∧ c.isDigit = false ∧ (c.isUpper || c == '_') = false ∧
      c.isLower = false ∧ isSymbolChar c = false ∧ Text.isBlank c = false := by
  have hall : ("()[],|!".toList.all fun x => x != '\x22' && x != '\x27' && !x.isDigit &&
      !(x.isUpper || x == '_') && !x.isLower && !isSymbolChar x && !Text.isBlank x) = true := by
    decide
  simpa [and_assoc] using List.all_eq_true.1 hall c (mem_of_punctuation? hc)

theorem isBlank_of_isDigit (hc : c.isDigit = true) : Text.isBlank c = false := by
  obtain ⟨hlow, hhigh⟩ := isDigit_iff.1 hc
  exact isBlank_eq_false (by omega) (by omega)

/-! ## The grammar -/

/-- In quotes `q`, the characters `inside` stand for `text`. -/
inductive Escaped (q : Char) : List Char → List Char → Prop where
  | nil : Escaped q [] []
  | escape {c : Char} {inside text : List Char} (h : Escaped q inside text) :
      Escaped q ('\\' :: c :: inside) (unescape c :: text)
  | char {c : Char} {inside text : List Char} (hquote : c ≠ q) (hbackslash : c ≠ '\\')
      (h : Escaped q inside text) : Escaped q (c :: inside) (c :: text)

/-- An integer ends here: no digit follows, and no point with a digit behind it. -/
structure IntegerEnds (after : List Char) : Prop where
  digit : ∀ x ∈ after.head?, x.isDigit = false
  point : ∀ d more, after = '.' :: d :: more → d.isDigit = false

/-- The characters are the span of the lexeme in front of the rest of a text. -/
inductive Spans : List Char → Lexeme → List Char → Prop where
  | variableName {c : Char} {rest after : List Char} (hc : (c.isUpper || c == '_') = true)
      (hrest : ∀ x ∈ rest, isNameChar x = true) (hafter : ∀ x ∈ after.head?, isNameChar x = false) :
      Spans (c :: rest) (.variableName (String.ofList (c :: rest))) after
  | atom {c : Char} {rest after : List Char} (hc : c.isLower = true)
      (hrest : ∀ x ∈ rest, isNameChar x = true) (hafter : ∀ x ∈ after.head?, isNameChar x = false) :
      Spans (c :: rest) (.atom (String.ofList (c :: rest))) after
  | symbol {c : Char} {rest after : List Char} (hchars : ∀ x ∈ c :: rest, isSymbolChar x = true)
      (hafter : ∀ x ∈ after.head?, isSymbolChar x = false) :
      Spans (c :: rest) (.symbol (String.ofList (c :: rest))) after
  | int {c : Char} {rest after : List Char} {n : Int64}
      (hdigits : ∀ x ∈ c :: rest, x.isDigit = true)
      (hn : Decimal.fit? (Decimal.ofDigits (c :: rest)) = some n) (hafter : IntegerEnds after) :
      Spans (c :: rest) (.int n) after
  | float {c d : Char} {rest places after : List Char} (hdigits : ∀ x ∈ c :: rest, x.isDigit = true)
      (hplaces : ∀ x ∈ d :: places, x.isDigit = true)
      (hafter : ∀ x ∈ after.head?, x.isDigit = false) :
      Spans (c :: rest ++ '.' :: d :: places)
        (.float (Decimal.nearest (Decimal.ofDigits (c :: rest ++ d :: places))
          (c :: rest ++ d :: places).length (-(d :: places).length))) after
  | str {inside text after : List Char} (h : Escaped '\x22' inside text) :
      Spans ('\x22' :: (inside ++ ['\x22'])) (.str (String.ofList text)) after
  | quotedAtom {inside text after : List Char} (h : Escaped '\x27' inside text) :
      Spans ('\x27' :: (inside ++ ['\x27'])) (.atom (String.ofList text)) after
  | punctuation {c : Char} {l : Lexeme} {after : List Char} (hc : punctuation? c = some l) :
      Spans [c] l after

/-- No lexeme starts with the character `c` in front of `rest`, for this reason. -/
inductive Unreadable : Char → List Char → ReadCause → Prop where
  | str {rest : List Char}
      (h : ∀ inside text after, Escaped '\x22' inside text → rest ≠ inside ++ '\x22' :: after) :
      Unreadable '\x22' rest .unterminatedString
  | quotedAtom {rest : List Char}
      (h : ∀ inside text after, Escaped '\x27' inside text → rest ≠ inside ++ '\x27' :: after) :
      Unreadable '\x27' rest .unterminatedAtom
  | int {c : Char} {rest after : List Char} (hdigits : ∀ x ∈ c :: rest, x.isDigit = true)
      (hn : Decimal.fit? (Decimal.ofDigits (c :: rest)) = none) (hafter : IntegerEnds after) :
      Unreadable c (rest ++ after) (.integerRange (String.ofList (c :: rest)))
  | character {c : Char} {rest : List Char} (hquote : isQuote c = false)
      (hname : isNameChar c = false) (hsymbol : isSymbolChar c = false)
      (hmark : punctuation? c = none) : Unreadable c rest (.unexpectedCharacter c)

/-! ## Text in quotes -/

/-- A character that is not escaped ends the text in quotes or belongs to it. -/
theorem quoted_cons {quote : Char} (hc : c ≠ '\\') (rest : List Char) :
    quoted quote (c :: rest) =
      if c = quote then some ([], 1, rest)
      else (quoted quote rest).map fun (text, n, after) => (c :: text, n + 1, after) := by
  rw [quoted]
  · intro heq
    cases heq
    exact absurd rfl hc
  · intro d more heq
    cases heq
    exact absurd rfl hc

/-- Text in quotes ends at the first quote that is not escaped. -/
theorem Escaped.quoted_eq (h : Escaped q inside text) (hq : q ≠ '\\') (after : List Char) :
    quoted q (inside ++ q :: after) = some (text, inside.length + 1, after) := by
  induction h with
  | nil =>
    rw [List.nil_append, quoted_cons hq, if_pos rfl]
    rfl
  | escape h ih =>
    rw [List.cons_append, List.cons_append, quoted, ih]
    rfl
  | char hquote hbackslash h ih =>
    rw [List.cons_append, quoted_cons hbackslash, if_neg hquote, ih]
    rfl

/-- What is read between quotes is escaped text. -/
theorem exists_escaped_of_quoted {n : Nat} (h : quoted q rest = some (text, n, after)) :
    ∃ inside, rest = inside ++ q :: after ∧ Escaped q inside text := by
  fun_induction quoted q rest generalizing text n with
  | case1 => cases h
  | case2 => cases h
  | case3 c rest ih =>
    obtain ⟨⟨text', n', after'⟩, hrest, heq⟩ := Option.map_eq_some_iff.1 h
    cases heq
    obtain ⟨inside, rfl, hinside⟩ := ih hrest
    exact ⟨'\\' :: c :: inside, rfl, hinside.escape⟩
  | case4 rest _ =>
    cases h
    exact ⟨[], rfl, .nil⟩
  | case5 c rest hlast hescape hc ih =>
    obtain ⟨⟨text', n', after'⟩, hrest, heq⟩ := Option.map_eq_some_iff.1 h
    cases heq
    obtain ⟨inside, rfl, hinside⟩ := ih hrest
    -- the character behind a backslash is read with it, and at least the closing quote is behind it
    have hbackslash : c ≠ '\\' := by
      rintro rfl
      cases inside with
      | nil => exact hescape q _ rfl rfl
      | cons x more => exact hescape x _ rfl rfl
    exact ⟨c :: inside, rfl, hinside.char hc hbackslash⟩

/-- A text that no quote closes is not read as quoted. -/
theorem quoted_eq_none
    (h : ∀ inside text after, Escaped q inside text → rest ≠ inside ++ q :: after) :
    quoted q rest = none := by
  cases hquoted : quoted q rest with
  | none => rfl
  | some found =>
    obtain ⟨text, n, after⟩ := found
    obtain ⟨inside, heq, hinside⟩ := exists_escaped_of_quoted hquoted
    exact absurd heq (h inside text after hinside)

/-- Escaped text between quotes is one lexeme. -/
theorem enclosed_of_escaped {make : String → Lexeme} {missing : ReadCause} (hq : q ≠ '\\')
    (h : Escaped q inside text) (after : List Char) :
    enclosed make missing q (inside ++ q :: after) =
      .ok ⟨make (String.ofList text), (q :: (inside ++ [q])).length, after⟩ := by
  rw [enclosed, h.quoted_eq hq]
  simp

/-! ## Numbers -/

/-- Digits without a place behind a point are an integer. -/
theorem number_of_integerEnds (hrest : ∀ x ∈ rest, x.isDigit = true) (hafter : IntegerEnds after) :
    number c (rest ++ after) = number.integer (c :: rest) after := by
  obtain ⟨htake, hdrop⟩ := Text.takeWhile_append_of_forall hrest hafter.digit
  unfold number
  rw [htake, hdrop]
  split
  next d more =>
    rw [if_neg (by simp [hafter.point d more rfl])]
  next => rfl

/-- Digits with a point and places are a float. -/
theorem number_of_places {places : List Char} (hrest : ∀ x ∈ rest, x.isDigit = true)
    (hplaces : ∀ x ∈ d :: places, x.isDigit = true) (hafter : ∀ x ∈ after.head?, x.isDigit = false) :
    number c (rest ++ '.' :: d :: (places ++ after)) =
      .ok ⟨.float (Decimal.nearest (Decimal.ofDigits (c :: rest ++ d :: places))
        (c :: rest ++ d :: places).length (-(d :: places).length)),
        (c :: rest ++ '.' :: d :: places).length, after⟩ := by
  obtain ⟨hd, hplaces⟩ := List.forall_mem_cons.1 hplaces
  have hpoint : ∀ x ∈ ('.' :: d :: (places ++ after)).head?, x.isDigit = false := by
    simp
  obtain ⟨htake, hdrop⟩ := Text.takeWhile_append_of_forall hrest hpoint
  obtain ⟨htake', hdrop'⟩ := Text.takeWhile_append_of_forall hplaces hafter
  unfold number
  rw [htake, hdrop]
  have hwidth : (c :: rest).length + 1 + (d :: places).length =
      (c :: rest ++ '.' :: d :: places).length := by
    simp only [List.length_append, List.length_cons]
    omega
  simp only [hd, if_true, htake', hdrop', hwidth]

/-! ## The scanner follows the grammar -/

/-- Names and symbols go on as long as they can. -/
theorem run_append {p : Char → Bool} {make : String → Lexeme} (hrest : ∀ x ∈ rest, p x = true)
    (hafter : ∀ x ∈ after.head?, p x = false) (c : Char) :
    run p make c (rest ++ after) =
      ⟨make (String.ofList (c :: rest)), (c :: rest).length, after⟩ := by
  obtain ⟨htake, hdrop⟩ := Text.takeWhile_append_of_forall hrest hafter
  rw [run, htake, hdrop, List.length_cons, Nat.add_comm]

theorem scan_of_isUpper (hc : (c.isUpper || c == '_') = true) (rest : List Char) :
    scan c rest = .ok (run isNameChar variableName c rest) := by
  obtain ⟨hdigit, -, hname⟩ := isUpper_cases hc
  have hquote : c ≠ '\x22' := by
    rintro rfl
    exact absurd hname (by decide)
  have hsingle : c ≠ '\x27' := by
    rintro rfl
    exact absurd hname (by decide)
  rw [scan, if_neg hquote, if_neg hsingle, if_neg (by simp [hdigit]), if_pos hc]

theorem scan_of_isLower (hc : c.isLower = true) (rest : List Char) :
    scan c rest = .ok (run isNameChar atom c rest) := by
  obtain ⟨hdigit, hupper, -, hname⟩ := isLower_cases hc
  have hquote : c ≠ '\x22' := by
    rintro rfl
    exact absurd hname (by decide)
  have hsingle : c ≠ '\x27' := by
    rintro rfl
    exact absurd hname (by decide)
  rw [scan, if_neg hquote, if_neg hsingle, if_neg (by simp [hdigit]), if_neg (by simp [hupper]),
    if_pos hc]

theorem scan_of_isSymbolChar (hc : isSymbolChar c = true) (rest : List Char) :
    scan c rest = .ok (run isSymbolChar symbol c rest) := by
  obtain ⟨hquote, hsingle, hdigit, hupper, hlower, -⟩ := isSymbolChar_cases hc
  rw [scan, if_neg hquote, if_neg hsingle, if_neg (by simp [hdigit]), if_neg (by simp [hupper]),
    if_neg (by simp [hlower]), if_pos hc]

theorem scan_of_punctuation? (hc : punctuation? c = some l) (rest : List Char) :
    scan c rest = .ok ⟨l, 1, rest⟩ := by
  obtain ⟨hquote, hsingle, hdigit, hupper, hlower, hsymbol, -⟩ := punctuation?_cases hc
  rw [scan, if_neg hquote, if_neg hsingle, if_neg (by simp [hdigit]), if_neg (by simp [hupper]),
    if_neg (by simp [hlower]), if_neg (by simp [hsymbol]), hc]

theorem scan_of_isDigit (hc : c.isDigit = true) (rest : List Char) :
    scan c rest = number c rest := by
  have hquote : c ≠ '\x22' := by
    rintro rfl
    exact absurd hc (by decide)
  have hsingle : c ≠ '\x27' := by
    rintro rfl
    exact absurd hc (by decide)
  rw [scan, if_neg hquote, if_neg hsingle, if_pos hc]

/-- The scanner takes exactly the span of a lexeme. -/
theorem Spans.scan_eq (h : Spans span l after) :
    ∃ c rest, span = c :: rest ∧ Text.isBlank c = false ∧
      scan c (rest ++ after) = .ok ⟨l, span.length, after⟩ := by
  cases h with
  | variableName hc hrest hafter =>
    refine ⟨_, _, rfl, (isUpper_cases hc).2.1, ?_⟩
    rw [scan_of_isUpper hc, run_append hrest hafter]
  | atom hc hrest hafter =>
    refine ⟨_, _, rfl, (isLower_cases hc).2.2.1, ?_⟩
    rw [scan_of_isLower hc, run_append hrest hafter]
  | symbol hchars hafter =>
    obtain ⟨hc, hrest⟩ := List.forall_mem_cons.1 hchars
    refine ⟨_, _, rfl, (isSymbolChar_cases hc).2.2.2.2.2, ?_⟩
    rw [scan_of_isSymbolChar hc, run_append hrest hafter]
  | int hdigits hn hafter =>
    obtain ⟨hc, hrest⟩ := List.forall_mem_cons.1 hdigits
    refine ⟨_, _, rfl, isBlank_of_isDigit hc, ?_⟩
    rw [scan_of_isDigit hc, number_of_integerEnds hrest hafter, number.integer, hn]
  | @float c d rest places _ hdigits hplaces hafter =>
    obtain ⟨hc, hrest⟩ := List.forall_mem_cons.1 hdigits
    refine ⟨c, rest ++ '.' :: d :: places, rfl, isBlank_of_isDigit hc, ?_⟩
    rw [scan_of_isDigit hc, List.append_assoc]
    exact number_of_places hrest hplaces hafter
  | str h =>
    refine ⟨_, _, rfl, by decide, ?_⟩
    rw [List.append_assoc, scan, if_pos rfl]
    exact enclosed_of_escaped (by decide) h _
  | quotedAtom h =>
    refine ⟨_, _, rfl, by decide, ?_⟩
    rw [List.append_assoc, scan, if_neg (by decide), if_pos rfl]
    exact enclosed_of_escaped (by decide) h _
  | punctuation hc =>
    exact ⟨_, _, rfl, (punctuation?_cases hc).2.2.2.2.2.2, scan_of_punctuation? hc _⟩

/-- A lexeme takes a character at least. -/
theorem Spans.length_pos (h : Spans span l after) : 0 < span.length := by
  obtain ⟨c, rest, rfl, -, -⟩ := h.scan_eq
  exact Nat.succ_pos _

/-- Where no lexeme starts, the scanner tells the reason. -/
theorem Unreadable.scan_eq (h : Unreadable c rest cause) : scan c rest = .error cause := by
  cases h with
  | str h => rw [scan, if_pos rfl, enclosed, quoted_eq_none h]
  | quotedAtom h => rw [scan, if_neg (by decide), if_pos rfl, enclosed, quoted_eq_none h]
  | int hdigits hn hafter =>
    obtain ⟨hc, hrest⟩ := List.forall_mem_cons.1 hdigits
    rw [scan_of_isDigit hc, number_of_integerEnds hrest hafter, number.integer, hn]
  | character hquote hname hsymbol hmark =>
    simp only [isQuote, Bool.or_eq_false_iff, beq_eq_false_iff_ne] at hquote
    simp only [isNameChar_eq, Bool.or_eq_false_iff] at hname
    obtain ⟨⟨⟨hupper, hlower⟩, hdigit⟩, hunderscore⟩ := hname
    have hstart : (c.isUpper || c == '_') = false := by rw [hupper, hunderscore, Bool.or_self]
    rw [scan, if_neg hquote.1, if_neg hquote.2, if_neg (by simp [hdigit]),
      if_neg (by rw [hstart]; exact Bool.false_ne_true), if_neg (by simp [hlower]),
      if_neg (by simp [hsymbol]), hmark]

/-- Digits go on as an integer or as a float. -/
theorem exists_integer_or_places (hc : c.isDigit = true) (rest : List Char) :
    (∃ digits after, rest = digits ++ after ∧ (∀ x ∈ c :: digits, x.isDigit = true) ∧
      IntegerEnds after) ∨
    ∃ digits d places after, rest = digits ++ '.' :: d :: (places ++ after) ∧
      (∀ x ∈ c :: digits, x.isDigit = true) ∧ (∀ x ∈ d :: places, x.isDigit = true) ∧
      ∀ x ∈ after.head?, x.isDigit = false := by
  obtain ⟨digits, after, rfl, hdigits, hafter⟩ := Text.exists_span Char.isDigit rest
  have hwhole : ∀ x ∈ c :: digits, x.isDigit = true := List.forall_mem_cons.2 ⟨hc, hdigits⟩
  by_cases hpoint : ∃ d more, after = '.' :: d :: more ∧ d.isDigit = true
  · obtain ⟨d, more, rfl, hd⟩ := hpoint
    obtain ⟨places, after, rfl, hplaces, hend⟩ := Text.exists_span Char.isDigit more
    exact .inr ⟨digits, d, places, after, rfl, hwhole, List.forall_mem_cons.2 ⟨hd, hplaces⟩, hend⟩
  · refine .inl ⟨digits, after, rfl, hwhole, hafter, fun d more heq => ?_⟩
    by_contra hd
    exact hpoint ⟨d, more, heq, (Bool.not_eq_false _).mp hd⟩

/-- A text starts with a lexeme. -/
def Begins (cs : List Char) : Prop := ∃ span l after, cs = span ++ after ∧ Spans span l after

/-- A number that is too large is the only one that cannot be read. -/
theorem begins_or_unreadable_of_isDigit (hc : c.isDigit = true) (rest : List Char) :
    Begins (c :: rest) ∨ ∃ cause, Unreadable c rest cause := by
  rcases exists_integer_or_places hc rest with
    ⟨digits, after, rfl, hdigits, hafter⟩ | ⟨digits, d, places, after, rfl, hdigits, hplaces, hafter⟩
  · cases hn : Decimal.fit? (Decimal.ofDigits (c :: digits)) with
    | none => exact .inr ⟨_, .int hdigits hn hafter⟩
    | some n => exact .inl ⟨_, _, after, rfl, .int hdigits hn hafter⟩
  · exact .inl ⟨_, _, after, by simp, .float hdigits hplaces hafter⟩

/-- A text in quotes that does not end cannot be read. -/
theorem begins_or_unreadable_of_isQuote (hc : isQuote c = true) (rest : List Char) :
    Begins (c :: rest) ∨ ∃ cause, Unreadable c rest cause := by
  by_cases hclosed : ∃ inside text after, Escaped c inside text ∧ rest = inside ++ c :: after
  · obtain ⟨inside, text, after, hinside, rfl⟩ := hclosed
    refine .inl ?_
    rw [isQuote, Bool.or_eq_true, beq_iff_eq, beq_iff_eq] at hc
    rcases hc with rfl | rfl
    · exact ⟨_, _, after, by simp, .str hinside⟩
    · exact ⟨_, _, after, by simp, .quotedAtom hinside⟩
  · have hopen : ∀ inside text after, Escaped c inside text → rest ≠ inside ++ c :: after :=
      fun inside text after hinside heq => hclosed ⟨inside, text, after, hinside, heq⟩
    refine .inr ?_
    rw [isQuote, Bool.or_eq_true, beq_iff_eq, beq_iff_eq] at hc
    rcases hc with rfl | rfl
    · exact ⟨_, .str hopen⟩
    · exact ⟨_, .quotedAtom hopen⟩

theorem begins_of_isNameChar (hname : isNameChar c = true) (hdigit : c.isDigit = false)
    (rest : List Char) : Begins (c :: rest) := by
  obtain ⟨more, after, rfl, hmore, hafter⟩ := Text.exists_span isNameChar rest
  by_cases hlower : c.isLower = true
  · exact ⟨_, _, after, rfl, .atom hlower hmore hafter⟩
  · have hupper : (c.isUpper || c == '_') = true := by
      rw [Bool.not_eq_true] at hlower
      simpa only [isNameChar_eq, hlower, hdigit, Bool.or_false] using hname
    exact ⟨_, _, after, rfl, .variableName hupper hmore hafter⟩

/-- Every text that is not empty starts with a lexeme, or there is a reason why it does not. -/
theorem begins_or_unreadable (c : Char) (rest : List Char) :
    Begins (c :: rest) ∨ ∃ cause, Unreadable c rest cause := by
  by_cases hquote : isQuote c = true
  · exact begins_or_unreadable_of_isQuote hquote rest
  by_cases hdigit : c.isDigit = true
  · exact begins_or_unreadable_of_isDigit hdigit rest
  rw [Bool.not_eq_true] at hquote hdigit
  by_cases hname : isNameChar c = true
  · exact .inl (begins_of_isNameChar hname hdigit rest)
  by_cases hsymbol : isSymbolChar c = true
  · obtain ⟨more, after, rfl, hmore, hafter⟩ := Text.exists_span isSymbolChar rest
    exact .inl ⟨_, _, after, rfl, .symbol (List.forall_mem_cons.2 ⟨hsymbol, hmore⟩) hafter⟩
  rw [Bool.not_eq_true] at hname hsymbol
  cases hmark : punctuation? c with
  | none => exact .inr ⟨_, .character hquote hname hsymbol hmark⟩
  | some l => exact .inl ⟨[c], l, rest, rfl, .punctuation hmark⟩

/-- What the scanner reads is the span of its lexeme. -/
theorem exists_spans_of_scan {s : Scanned} (h : scan c rest = .ok s) :
    ∃ span, c :: rest = span ++ s.rest ∧ span.length = s.width ∧ Spans span s.lexeme s.rest := by
  rcases begins_or_unreadable c rest with ⟨span, l, after, heq, hspan⟩ | ⟨cause, hcause⟩
  · obtain ⟨c', more, rfl, -, hscan⟩ := hspan.scan_eq
    obtain ⟨rfl, rfl⟩ := List.cons.inj heq
    cases h.symm.trans hscan
    exact ⟨_, rfl, rfl, hspan⟩
  · cases h.symm.trans hcause.scan_eq

/-! ## Cutting the text after a lexeme -/

theorem forall_mem_head?_take {p : Char → Prop} (h : ∀ x ∈ after.head?, p x) (n : Nat) :
    ∀ x ∈ (after.take n).head?, p x := by
  cases n with
  | zero => simp
  | succ n =>
    cases after with
    | nil => simp
    | cons x more => exact h

theorem IntegerEnds.take (h : IntegerEnds after) (n : Nat) : IntegerEnds (after.take n) where
  digit := forall_mem_head?_take h.digit n
  point d more heq := by
    refine h.point d (more ++ after.drop n) ?_
    have hafter := List.take_append_drop n after
    rw [heq] at hafter
    exact hafter.symm

/-- A lexeme keeps its span when the text ends earlier behind it. -/
theorem Spans.take (h : Spans span l after) (n : Nat) : Spans span l (after.take n) := by
  cases h with
  | variableName hc hrest hafter => exact .variableName hc hrest (forall_mem_head?_take hafter n)
  | atom hc hrest hafter => exact .atom hc hrest (forall_mem_head?_take hafter n)
  | symbol hchars hafter => exact .symbol hchars (forall_mem_head?_take hafter n)
  | int hdigits hn hafter => exact .int hdigits hn (hafter.take n)
  | float hdigits hplaces hafter =>
    exact .float hdigits hplaces (forall_mem_head?_take hafter n)
  | str h => exact .str h
  | quotedAtom h => exact .quotedAtom h
  | punctuation hc => exact .punctuation hc

end StackLogic.Horn.Lexeme
