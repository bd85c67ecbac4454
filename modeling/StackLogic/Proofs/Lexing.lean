import StackLogic.Proofs.LexemeSpans
import StackLogic.Proofs.RawText

/-!
# How lexemes are written

`Writes` says which texts stand for a lexeme, apart from where they end, and without escapes, quoted
atoms and floating-point numbers. The scanner follows it in both directions: what it reads is written
in front of what it leaves (`writes_of_scan`), and a written lexeme is read wherever the text after it
does not go on with it (`scan_of_writes`).

`Lexes` relates a text to its lexemes without their positions. A text in which the raw passes find
neither comment nor arrow is laid out from its lexemes, with blanks between them, and the passes go
over each of them (`laidOut_of_lexes`).
-/

namespace StackLogic.Horn

namespace Lexeme

variable {c x : Char} {rest text after : List Char} {l : Lexeme}

/-! ## Written lexemes -/

/-- The text is one way to write the lexeme. -/
inductive Writes : List Char → Lexeme → Prop where
  | variableName {c : Char} {rest : List Char} (hc : (c.isUpper || c == '_') = true)
      (hrest : ∀ x ∈ rest, isNameChar x = true) :
      Writes (c :: rest) (.variableName (String.ofList (c :: rest)))
  | atom {c : Char} {rest : List Char} (hc : c.isLower = true)
      (hrest : ∀ x ∈ rest, isNameChar x = true) :
      Writes (c :: rest) (.atom (String.ofList (c :: rest)))
  | int {c : Char} {rest : List Char} {n : Int64} (hdigits : ∀ x ∈ c :: rest, x.isDigit = true)
      (hn : Decimal.fit? (Decimal.ofDigits (c :: rest)) = some n) : Writes (c :: rest) (.int n)
  | symbol {c : Char} {rest : List Char} (hchars : ∀ x ∈ c :: rest, isSymbolChar x = true) :
      Writes (c :: rest) (.symbol (String.ofList (c :: rest)))
  | str {cs : List Char} (hquote : '\x22' ∉ cs) (hbackslash : '\\' ∉ cs) :
      Writes ('\x22' :: (cs ++ ['\x22'])) (.str (String.ofList cs))
  | punctuation {c : Char} {l : Lexeme} (hc : punctuation? c = some l) : Writes [c] l

/-- The text after a lexeme does not go on with it. -/
def EndsBefore : Lexeme → List Char → Prop
  | variableName _, after => ∀ x ∈ after.head?, isNameChar x = false
  | atom _, after => ∀ x ∈ after.head?, isNameChar x = false
  | int _, after => ∀ x ∈ after.head?, x.isDigit = false ∧ x ≠ '.'
  | symbol _, after => ∀ x ∈ after.head?, isSymbolChar x = false
  | _, _ => True

/-! ## Reading what is written -/

theorem escaped_self {q : Char} {cs : List Char} (hquote : q ∉ cs) (hbackslash : '\\' ∉ cs) :
    Escaped q cs cs := by
  induction cs with
  | nil => exact .nil
  | cons c rest ih =>
    rw [List.mem_cons, not_or] at hquote hbackslash
    exact .char (Ne.symm hquote.1) (Ne.symm hbackslash.1) (ih hquote.2 hbackslash.2)

theorem Escaped.eq_self {q : Char} {inside text : List Char} (h : Escaped q inside text)
    (hbackslash : '\\' ∉ inside) : text = inside ∧ q ∉ inside := by
  induction h with
  | nil => exact ⟨rfl, List.not_mem_nil⟩
  | escape => exact absurd List.mem_cons_self hbackslash
  | char hquote _ _ ih =>
    rw [List.mem_cons, not_or] at hbackslash
    obtain ⟨rfl, hmem⟩ := ih hbackslash.2
    rw [List.mem_cons, not_or]
    exact ⟨rfl, Ne.symm hquote, hmem⟩

/-- A written lexeme is a span wherever it ends. -/
theorem Writes.spans (h : Writes text l) (hafter : l.EndsBefore after) : Spans text l after := by
  cases h with
  | variableName hc hrest => exact .variableName hc hrest hafter
  | atom hc hrest => exact .atom hc hrest hafter
  | int hdigits hn =>
    refine .int hdigits hn ⟨fun x hx => (hafter x hx).1, ?_⟩
    rintro d more rfl
    exact absurd rfl (hafter '.' rfl).2
  | symbol hchars => exact .symbol hchars hafter
  | str hquote hbackslash => exact .str (escaped_self hquote hbackslash)
  | punctuation hc => exact .punctuation hc

/-- A written lexeme is read wherever it ends. -/
theorem scan_of_writes (h : Writes text l) (hafter : l.EndsBefore after) :
    ∃ c rest, text = c :: rest ∧ Text.isBlank c = false ∧
      scan c (rest ++ after) = .ok ⟨l, text.length, after⟩ :=
  (h.spans hafter).scan_eq

/-- What is read is written in front of what is left. -/
theorem writes_of_scan {s : Scanned} (h : scan c rest = .ok s) (hquote : c ≠ '\x27')
    (hbackslash : '\\' ∉ rest) (hfloat : ∀ x, s.lexeme ≠ .float x) :
    ∃ text, Writes text s.lexeme ∧ c :: rest = text ++ s.rest := by
  obtain ⟨l, width, after⟩ := s
  obtain ⟨text, heq, -, hspan⟩ := exists_spans_of_scan h
  refine ⟨text, ?_, heq⟩
  cases hspan with
  | variableName hc hrest _ => exact .variableName hc hrest
  | atom hc hrest _ => exact .atom hc hrest
  | symbol hchars _ => exact .symbol hchars
  | int hdigits hn _ => exact .int hdigits hn
  | float => exact absurd rfl (hfloat _)
  | @str inside text _ hinside =>
    have hrest : rest = inside ++ ['\x22'] ++ after := (List.cons.inj heq).2
    have hmem : '\\' ∉ inside := fun hmem => hbackslash (by simp [hrest, hmem])
    obtain ⟨rfl, hopen⟩ := hinside.eq_self hmem
    exact .str hopen hmem
  | quotedAtom => exact absurd (List.cons.inj heq).1 hquote
  | punctuation hc => exact .punctuation hc

end Lexeme

/-! ## The lexemes of a text -/

/-- The text is read as these lexemes. A comment may start here if `boundary` holds. -/
inductive Lexes : Bool → List Char → List Lexeme → Prop where
  | nil {boundary : Bool} : Lexes boundary [] []
  | blank {boundary : Bool} {c : Char} {rest : List Char} {ls : List Lexeme}
      (hc : Text.isBlank c = true) (h : Lexes boundary rest ls) : Lexes boundary (c :: rest) ls
  | comment {rest : List Char} {ls : List Lexeme}
      (h : Lexes true (rest.dropWhile (· != '\n')) ls) : Lexes true ('%' :: rest) ls
  | token {boundary : Bool} {c : Char} {rest : List Char} {scanned : Lexeme.Scanned}
      {ls : List Lexeme} (hblank : Text.isBlank c = false)
      (hcomment : ¬ (c = '%' ∧ boundary = true))
      (hscan : Lexeme.scan c rest = .ok scanned)
      (h : Lexes (scanned.lexeme == .symbol ".") scanned.rest ls) :
      Lexes boundary (c :: rest) (scanned.lexeme :: ls)

/-- What is scanned are lexemes of the text. -/
theorem lexes_of_scanFrom {boundary : Bool} {position : Nat} {cs : List Char} {ts : Tokens}
    (h : Tokens.scanFrom boundary position cs = .ok ts) :
    Lexes boundary cs (ts.items.map Token.lexeme) := by
  fun_induction Tokens.scanFrom boundary position cs generalizing ts with
  | case1 =>
    cases h
    exact .nil
  | case2 _ _ c rest hblank ih => exact .blank hblank (ih h)
  | case3 boundary position c rest hblank hcomment ih =>
    obtain ⟨rfl, rfl⟩ := hcomment
    exact .comment (ih h)
  | case4 => cases h
  | case5 boundary position c rest hblank hcomment scanned hscan token =>
    rename_i ih
    obtain ⟨after, hafter, rfl⟩ := Grammar.exists_of_map_eq_ok h
    exact .token (Bool.eq_false_of_not_eq_true hblank) hcomment hscan (ih hafter)

/-- Lexemes of a text are scanned, wherever the text starts. -/
theorem Lexes.exists_scanFrom {boundary : Bool} {cs : List Char} {ls : List Lexeme}
    (h : Lexes boundary cs ls) (position : Nat) :
    ∃ ts, Tokens.scanFrom boundary position cs = .ok ts ∧ ts.items.map Token.lexeme = ls := by
  induction h generalizing position with
  | nil => exact ⟨_, by rw [Tokens.scanFrom], rfl⟩
  | blank hc h ih =>
    rw [Tokens.scanFrom, if_pos hc]
    exact ih _
  | comment h ih =>
    rw [Tokens.scanFrom, if_neg (by decide), if_pos ⟨rfl, rfl⟩]
    exact ih _
  | @token boundary c rest scanned ls hblank hcomment hscan h ih =>
    obtain ⟨after, hafter, rfl⟩ := ih (position + scanned.width)
    rw [Tokens.scanFrom, if_neg (by simp [hblank]), if_neg hcomment]
    split
    next cause heq => cases heq.symm.trans hscan
    next found heq =>
      cases heq.symm.trans hscan
      refine ⟨{ after with items := ⟨scanned.lexeme, position⟩ :: after.items }, ?_, rfl⟩
      exact congrArg (Except.map _) hafter

open Lexeme in
/-- A written lexeme in front of a text that does not go on with it. -/
theorem Lexes.append {boundary : Bool} {text after : List Char} {l : Lexeme} {ls : List Lexeme}
    (h : Writes text l) (hboundary : boundary = true → text.head? ≠ some '%')
    (hafter : l.EndsBefore after) (hrest : Lexes (l == .symbol ".") after ls) :
    Lexes boundary (text ++ after) (l :: ls) := by
  obtain ⟨c, rest, rfl, hblank, hscan⟩ := scan_of_writes h hafter
  have hcomment : ¬ (c = '%' ∧ boundary = true) := by
    rintro ⟨rfl, hb⟩
    exact hboundary hb rfl
  exact .token hblank hcomment hscan hrest

/-! ## Plain lexemes -/

namespace Lexeme

open Source

/-- The text that a lexeme holds as it is written. -/
def verbatim? : Lexeme → Option String
  | variableName s => some s
  | atom s => some s
  | symbol s => some s
  | _ => none

/-- The lexemes of one character. -/
def IsMark : Lexeme → Prop
  | openParen | closeParen | openBracket | closeBracket | comma | pipe | bang => True
  | _ => False

theorem isMark_of_punctuation? {c : Char} {l : Lexeme} (h : punctuation? c = some l) :
    l.IsMark := by
  unfold punctuation? at h
  split at h <;> cases h <;> trivial

/-- A lexeme that stands for itself is written in one way. -/
theorem Writes.eq_toList {text : List Char} {l : Lexeme} {s : String} (h : Writes text l)
    (hs : l.verbatim? = some s) : text = s.toList := by
  cases h with
  | variableName | atom | symbol =>
    cases hs
    rw [String.toList_ofList]
  | int | str => cases hs
  | punctuation hc =>
    have hmark := isMark_of_punctuation? hc
    cases l <;> first | exact hmark.elim | cases hs

theorem isQuote_of_isNameChar {c : Char} (h : isNameChar c = true) : isQuote c = false := by
  by_contra hquote
  rw [Bool.not_eq_false, isQuote, Bool.or_eq_true, beq_iff_eq, beq_iff_eq] at hquote
  rcases hquote with rfl | rfl <;> exact absurd h (by decide)

/-- A lexeme leaves no quote open. -/
theorem Writes.after_eq_none {text : List Char} {l : Lexeme} (h : Writes text l) :
    Quote.after none text = none := by
  cases h with
  | variableName hc hrest =>
    refine Quote.after_eq_none (List.forall_mem_cons.2 ⟨?_, fun x hx => ?_⟩)
    · exact isQuote_of_isNameChar (isUpper_cases hc).2.2
    · exact isQuote_of_isNameChar (hrest x hx)
  | atom hc hrest =>
    refine Quote.after_eq_none (List.forall_mem_cons.2 ⟨?_, fun x hx => ?_⟩)
    · exact isQuote_of_isNameChar (isLower_cases hc).2.2.2
    · exact isQuote_of_isNameChar (hrest x hx)
  | int hdigits hn =>
    refine Quote.after_eq_none fun x hx => isQuote_of_isNameChar ?_
    simp [isNameChar_eq, hdigits x hx]
  | symbol hchars =>
    refine Quote.after_eq_none fun x hx => ?_
    obtain ⟨hquote, hsingle, -⟩ := isSymbolChar_cases (hchars x hx)
    simp [isQuote, hquote, hsingle]
  | str hquote _ => exact (passes_quoted hquote).quote
  | punctuation hc =>
    obtain ⟨hquote, hsingle, -⟩ := punctuation?_cases hc
    refine Quote.after_eq_none (List.forall_mem_singleton.2 ?_)
    simp [isQuote, hquote, hsingle]

theorem Writes.passes {text : List Char} {l : Lexeme} {last : Option Char} (h : Writes text l)
    (hcomment : dropComment none last text = text) (harrow : splitAt? arrow none text = none) :
    Passes text := by
  have hends : l.EndsBefore [] := by cases l <;> simp [EndsBefore]
  obtain ⟨c, rest, rfl, hblank, -⟩ := scan_of_writes h hends
  refine ⟨h.after_eq_none, fun x hx => ?_, harrow⟩
  rw [dropComment] at hcomment
  rw [dropComment_cons hx, if_neg (by simp [hblank])]
  split at hcomment
  · cases hcomment
  · rwa [if_neg (by simp [hblank])] at hcomment

/-- A lexeme is plain if it can be written so that the raw passes go over it. -/
def IsPlain (l : Lexeme) : Prop := ∃ text, Writes text l ∧ Passes text

end Lexeme

/-- The text consists of these lexemes and of blanks, and the raw passes go over each lexeme. -/
inductive LaidOut : List Char → List Lexeme → Prop where
  | nil : LaidOut [] []
  | blank {c : Char} {rest : List Char} {ls : List Lexeme} (hc : Text.isBlank c = true)
      (h : LaidOut rest ls) : LaidOut (c :: rest) ls
  | token {text rest : List Char} {l : Lexeme} {ls : List Lexeme} (hwrites : Lexeme.Writes text l)
      (hpasses : Source.Passes text) (h : LaidOut rest ls) : LaidOut (text ++ rest) (l :: ls)

/-- Every lexeme of a text that is laid out is plain. -/
theorem LaidOut.isPlain {cs : List Char} {ls : List Lexeme} (h : LaidOut cs ls) :
    ∀ l ∈ ls, l.IsPlain := by
  induction h with
  | nil => exact List.forall_mem_nil _
  | blank _ _ ih => exact ih
  | token hwrites hpasses _ ih => exact List.forall_mem_cons.2 ⟨⟨_, hwrites, hpasses⟩, ih⟩

open Lexeme Source in
/-- A text in which the raw passes find neither comment nor arrow is laid out from its lexemes:
wherever a comment may start for the scanner, one may start for the raw pass. -/
theorem laidOut_of_lexes {boundary : Bool} {last : Option Char} {cs : List Char} {ls : List Lexeme}
    (h : Lexes boundary cs ls) (hboundary : boundary = true → last = none ∨ last = some '.')
    (hquote : '\x27' ∉ cs) (hbackslash : '\\' ∉ cs) (hfloat : ∀ x, Lexeme.float x ∉ ls)
    (hcomment : dropComment none last cs = cs) (harrow : splitAt? arrow none cs = none) :
    LaidOut cs ls := by
  induction h generalizing last with
  | nil => exact .nil
  | @blank boundary c rest ls hc h ih =>
    rw [List.mem_cons, not_or] at hquote hbackslash
    have hnext : Quote.next none c = none := Quote.next_none (isQuote_of_isBlank hc)
    rw [dropComment] at hcomment
    split at hcomment
    · cases hcomment
    · rw [hnext] at hcomment
      have harrow := (splitAt?_cons_eq_none.1 harrow).2
      rw [hnext] at harrow
      exact .blank hc
        (ih hboundary hquote.2 hbackslash.2 hfloat (List.cons.inj hcomment).2 harrow)
  | comment h ih =>
    rw [dropComment, if_pos] at hcomment
    · cases hcomment
    · rcases hboundary rfl with rfl | rfl <;> rfl
  | @token boundary c rest scanned ls hblank _ hscan h ih =>
    rw [List.mem_cons, not_or] at hquote hbackslash
    have hfloat' : ∀ x, scanned.lexeme ≠ .float x := by
      intro x hx
      exact hfloat x (hx ▸ List.mem_cons_self)
    obtain ⟨text, hwrites, htext⟩ := writes_of_scan hscan (Ne.symm hquote.1) hbackslash.2 hfloat'
    have hrest : scanned.rest ⊆ c :: rest := by
      rw [htext]
      exact List.subset_append_right _ _
    rw [htext] at hcomment harrow ⊢
    obtain ⟨hcomment₁, hcomment₂⟩ := dropComment_append_eq_iff.1 hcomment
    obtain ⟨harrow₁, harrow₂⟩ := splitAt?_append_eq_none harrow
    rw [hwrites.after_eq_none] at hcomment₂ harrow₂
    refine .token hwrites (hwrites.passes hcomment₁ harrow₁) ?_
    refine ih (fun hpoint => .inr ?_) (fun hmem => ?_) (fun hmem => ?_) (fun x hx => ?_) hcomment₂
      harrow₂
    · have hlexeme : scanned.lexeme = .symbol "." := beq_iff_eq.1 hpoint
      rw [hlexeme] at hwrites
      rw [hwrites.eq_toList rfl]
      rfl
    · exact (List.mem_cons.1 (hrest hmem)).elim hquote.1 hquote.2
    · exact (List.mem_cons.1 (hrest hmem)).elim hbackslash.1 hbackslash.2
    · exact hfloat x (List.mem_cons_of_mem _ hx)

end StackLogic.Horn
