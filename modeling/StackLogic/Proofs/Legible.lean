import StackLogic.Proofs.BodyText
import StackLogic.Proofs.Spelling

/-!
# Shown terms can be read again

A term is legible if its text is a spelling of it. `Shows` relates such a text to its lexemes: it is
read as these lexemes in front of any delimiter, and the raw passes go over it. Every term that is
spelled by plain lexemes is legible (`Spells.legible`), whatever the spelling was: numbers are shown
without leading zeros, and arguments with one blank after each comma.
-/

namespace StackLogic.Horn

open Source Lexeme

variable {text more : List Char} {ls ms : List Lexeme} {l : Lexeme} {t : Term} {name : String}

/-! ## Texts in front of a delimiter -/

/-- A character that ends an argument or an element. -/
def IsDelimiter (d : Char) : Prop := d = ',' ∨ d = ')' ∨ d = ']'

/-- In front of a delimiter the text is read as these lexemes, and the raw passes go over it. -/
structure Shows (text : List Char) (ls : List Lexeme) : Prop where
  lexes : ∀ d after rest, IsDelimiter d → Lexes false (d :: after) rest →
    Lexes false (text ++ d :: after) (ls ++ rest)
  passes : Passes text

theorem Lexes.punctuation {boundary : Bool} {c : Char} {after : List Char} {rest : List Lexeme}
    (hc : punctuation? c = some l) (h : Lexes false after rest) :
    Lexes boundary (c :: after) (l :: rest) := by
  have hmark := isMark_of_punctuation? hc
  have hends : l.EndsBefore after := by cases l <;> first | exact hmark.elim | trivial
  have hpercent : c ≠ '%' := by
    rintro rfl
    cases hc
  have hpoint : (l == .symbol ".") = false := by
    rw [beq_eq_false_iff_ne]
    rintro rfl
    exact hmark
  refine Lexes.append (.punctuation hc) (fun _ => ?_) hends (hpoint ▸ h)
  simpa using hpercent

/-- A delimiter is read in the same way after any lexeme. -/
theorem Lexes.of_delimiter {boundary : Bool} {d : Char} {after : List Char} {rest : List Lexeme}
    (hd : IsDelimiter d) (h : Lexes false (d :: after) rest) :
    Lexes boundary (d :: after) rest := by
  have hpercent : d ≠ '%' := by rcases hd with rfl | rfl | rfl <;> decide
  have hblank : Text.isBlank d = false := by rcases hd with rfl | rfl | rfl <;> decide
  cases h with
  | blank hc _ => exact absurd hc (by simp [hblank])
  | token hblank _ hscan h => exact .token hblank (fun hc => hpercent hc.1) hscan h

/-- No lexeme goes on with a delimiter. -/
theorem IsDelimiter.endsBefore {d : Char} (hd : IsDelimiter d) (l : Lexeme) (after : List Char) :
    l.EndsBefore (d :: after) := by
  have hall : isNameChar d = false ∧ d.isDigit = false ∧ d ≠ '.' ∧ isSymbolChar d = false := by
    rcases hd with rfl | rfl | rfl <;> decide
  obtain ⟨hname, hdigit, hpoint, hsymbol⟩ := hall
  cases l <;> simp [EndsBefore, hname, hdigit, hpoint, hsymbol]

theorem shows_nil : Shows [] [] := ⟨fun _ _ _ _ h => h, passes_nil⟩

/-- A plain lexeme as it is written. -/
theorem shows_of_writes (h : Writes text l) (hpasses : Passes text) : Shows text [l] := by
  refine ⟨fun d after rest hd hafter => ?_, hpasses⟩
  exact Lexes.append h nofun (hd.endsBefore l after) (hafter.of_delimiter hd)

theorem divides_of_mem {c : Char} (h : c ∈ "()[],".toList) : Divides c := by
  have hall : ("()[],".toList.all fun x => !isQuote x && !Text.isBlank x && x != '%' && x != '.' &&
      x != ':' && x != '-') = true := by decide
  have hc := List.all_eq_true.1 hall c h
  simp only [Bool.and_eq_true, Bool.not_eq_true', bne_iff_ne] at hc
  obtain ⟨⟨⟨⟨⟨hquote, hblank⟩, hpercent⟩, hpoint⟩, hcolon⟩, hminus⟩ := hc
  exact ⟨hquote, hblank, hpercent, hpoint, hcolon, hminus⟩

/-- Texts with a comma between them show their lexemes with a comma between them. -/
theorem Shows.comma (h : Shows text ls) (hmore : Shows more ms) :
    Shows (text ++ ',' :: ' ' :: more) (ls ++ .comma :: ms) := by
  refine ⟨fun d after rest hd hafter => ?_, ?_⟩
  · rw [List.append_assoc, List.append_assoc, List.cons_append, List.cons_append, List.cons_append]
    refine h.lexes _ _ _ (.inl rfl) (.punctuation rfl (.blank rfl ?_))
    exact hmore.lexes d after rest hd hafter
  · exact h.passes.join (divides_of_mem (by decide)) (hmore.passes.cons_blank rfl)

/-- A text in brackets shows its lexemes in brackets. -/
theorem Shows.brackets (h : Shows text ls) :
    Shows ('[' :: (text ++ [']'])) (.openBracket :: (ls ++ [.closeBracket])) := by
  refine ⟨fun d after rest hd hafter => ?_, ?_⟩
  · rw [List.cons_append, List.cons_append, List.append_assoc, List.append_assoc]
    refine .punctuation rfl (h.lexes _ _ _ (.inr (.inr rfl)) ?_)
    exact .punctuation rfl hafter
  · have hclosed := h.passes.join (divides_of_mem (c := ']') (by decide)) passes_nil
    exact hclosed.cons (divides_of_mem (by decide))

/-- The text starts with a small letter. It is read as these lexemes also at the beginning of a
line, in front of what does not go on with a name, and the raw passes go over it. -/
structure ShowsHead (text : List Char) (ls : List Lexeme) : Prop where
  lexes : ∀ boundary after rest, (∀ x ∈ after.head?, isNameChar x = false) →
    Lexes false after rest → Lexes boundary (text ++ after) (ls ++ rest)
  passes : Passes text
  lower : ∃ c cs, text = c :: cs ∧ c.isLower = true

theorem ShowsHead.shows (h : ShowsHead text ls) : Shows text ls := by
  refine ⟨fun d after rest hd hafter => h.lexes false _ _ ?_ hafter, h.passes⟩
  have hname : isNameChar d = false := by rcases hd with rfl | rfl | rfl <;> decide
  simpa using hname

theorem showsHead_atom (h : Writes text (.atom name)) (hpasses : Passes text) :
    ShowsHead text [.atom name] := by
  have hlower : ∃ c cs, text = c :: cs ∧ c.isLower = true := by
    cases h with
    | atom hc _ => exact ⟨_, _, rfl, hc⟩
    | punctuation hc => exact (isMark_of_punctuation? hc).elim
  refine ⟨fun boundary after rest hafter hrest => ?_, hpasses, hlower⟩
  refine Lexes.append h (fun _ => ?_) hafter hrest
  obtain ⟨c, cs, rfl, hc⟩ := hlower
  intro heq
  cases heq
  exact absurd hc (by decide)

/-- A name and a text in parentheses show a head. -/
theorem ShowsHead.parens (hname : ShowsHead text [.atom name]) (h : Shows more ls) :
    ShowsHead (text ++ '(' :: (more ++ [')']))
      (.atom name :: .openParen :: (ls ++ [.closeParen])) := by
  refine ⟨fun boundary after rest hafter hrest => ?_, ?_, ?_⟩
  · simp only [List.append_assoc, List.cons_append, List.nil_append]
    have hinner : Lexes false (more ++ ')' :: after) (ls ++ .closeParen :: rest) :=
      h.lexes _ _ _ (.inr (.inl rfl)) (.punctuation rfl hrest)
    refine hname.lexes boundary _ _ ?_ (.punctuation rfl hinner)
    intro x hx
    cases hx
    decide
  · have hclosed := h.passes.join (divides_of_mem (c := ')') (by decide)) passes_nil
    exact hname.passes.join (divides_of_mem (by decide)) hclosed
  · obtain ⟨c, cs, rfl, hc⟩ := hname.lower
    exact ⟨c, _, rfl, hc⟩

/-! ## Legible terms -/

/-- The term is spelled by its text. -/
def Term.Legible (t : Term) : Prop := ∃ ls, Spells ls t ∧ Shows t.display.toList ls

/-- A term of one lexeme is legible if its text writes the lexeme. -/
theorem legible_of_writes (h : Writes t.display.toList l) (hpasses : Passes t.display.toList)
    (hspells : Spells [l] t) : t.Legible :=
  ⟨[l], hspells, shows_of_writes h hpasses⟩

theorem displayVariable_eq_self (h : '#' ∉ name.toList) : Term.displayVariable name = name := by
  have hnone : name.toList.dropWhile (· != '#') = [] := by
    rw [List.dropWhile_eq_nil_iff]
    intro c hc
    have hne : c ≠ '#' := fun heq => h (heq ▸ hc)
    simpa using hne
  unfold Term.displayVariable
  dsimp only
  rw [hnone]

theorem legible_var (h : (Lexeme.variableName name).IsPlain) : (Term.var name).Legible := by
  obtain ⟨text, hwrites, hpasses⟩ := h
  have hhash : '#' ∉ name.toList := by
    rw [← hwrites.eq_toList rfl]
    cases hwrites with
    | variableName hc hrest =>
      intro hmem
      rcases List.mem_cons.1 hmem with rfl | hmem
      · exact absurd hc (by decide)
      · exact absurd (hrest _ hmem) (by decide)
    | punctuation hc => exact (isMark_of_punctuation? hc).elim
  have hdisplay : (Term.var name).display.toList = text := by
    rw [Term.display, displayVariable_eq_self hhash, hwrites.eq_toList rfl]
  exact legible_of_writes (hdisplay ▸ hwrites) (hdisplay ▸ hpasses) (.var name)

theorem legible_symbol {s : String} (h : (Lexeme.symbol s).IsPlain) : (Term.atom s).Legible := by
  obtain ⟨text, hwrites, hpasses⟩ := h
  obtain rfl := hwrites.eq_toList rfl
  exact legible_of_writes hwrites hpasses (.symbol s)

theorem legible_atom (h : (Lexeme.atom name).IsPlain) : (Term.atom name).Legible := by
  obtain ⟨text, hwrites, hpasses⟩ := h
  obtain rfl := hwrites.eq_toList rfl
  exact legible_of_writes hwrites hpasses (.atom name)

theorem legible_bang : (Term.atom "!").Legible := by
  have hpasses : Passes ['!'] := passes_of_forall (List.forall_mem_singleton.2 (by decide))
  exact legible_of_writes (.punctuation rfl) hpasses .bang

theorem legible_str {s : String} (h : (Lexeme.str s).IsPlain) : (Term.str s).Legible := by
  obtain ⟨text, hwrites, hpasses⟩ := h
  have hdisplay : (Term.str s).display.toList = '"' :: (s.toList ++ ['"']) := by
    simp [Term.display]
  have htext : text = '"' :: (s.toList ++ ['"']) := by
    cases hwrites with
    | str _ _ => rw [String.toList_ofList]
    | punctuation hc => exact (isMark_of_punctuation? hc).elim
  subst htext
  exact legible_of_writes (hdisplay ▸ hwrites) (hdisplay ▸ hpasses) (.str s)

/-! ### Numbers -/

/-- A number that fits into a word is the word. -/
theorem toInt_of_fit? {k : Nat} {n : Int64} (h : Decimal.fit? k = some n) :
    n.toInt = k ∧ (k : Int) ≤ Int64.maxValue.toInt := by
  unfold Decimal.fit? at h
  split at h
  next hfits =>
    cases h
    have hmax : Int64.maxValue.toInt = 9223372036854775807 := by decide
    refine ⟨?_, hfits.2⟩
    rw [Int64.toInt_ofInt]
    rw [hmax] at hfits
    apply Int.bmod_eq_of_le
    · simp
    · simp
      omega
  next => cases h

/-- The digits of a number are read back as the number. -/
theorem ofDigits_toDigits (k : Nat) : Decimal.ofDigits (Nat.toDigits 10 k) = k := by
  have h : Nat.ofDigitChars 10 (Nat.toDigits 10 k) 0 = k :=
    Nat.ofDigitChars_toDigits (by decide) (by decide)
  rwa [Nat.ofDigitChars] at h

theorem isDigit_of_mem_toDigits {k : Nat} {c : Char} (h : c ∈ Nat.toDigits 10 k) :
    c.isDigit = true :=
  Nat.isDigit_of_mem_toDigits (by decide) (by decide) h

/-- A number is written by its digits. -/
theorem writes_toDigits {k : Nat} {n : Int64} (h : Decimal.fit? k = some n) :
    Writes (Nat.toDigits 10 k) (.int n) := by
  have hdigits : ∀ c ∈ Nat.toDigits 10 k, c.isDigit = true := fun c => isDigit_of_mem_toDigits
  have hvalue := ofDigits_toDigits k
  cases hk : Nat.toDigits 10 k with
  | nil => exact absurd hk Nat.toDigits_ne_nil
  | cons c rest =>
    rw [hk] at hdigits hvalue
    exact .int hdigits (by rw [hvalue, h])

theorem unnoticed_of_mem_toDigits (k : Nat) :
    ∀ c ∈ Nat.toDigits 10 k, isQuote c = false ∧ c ≠ '%' ∧ c ≠ ':' := by
  intro c hc
  have hdigit := isDigit_of_mem_toDigits hc
  refine ⟨?_, ?_, ?_⟩
  · exact isQuote_of_isNameChar (by simp [isNameChar_eq, hdigit])
  · rintro rfl
    exact absurd hdigit (by decide)
  · rintro rfl
    exact absurd hdigit (by decide)

theorem passes_toDigits (k : Nat) : Passes (Nat.toDigits 10 k) :=
  passes_of_forall (unnoticed_of_mem_toDigits k)

theorem toList_toString_natCast (k : Nat) : (toString (k : Int)).toList = Nat.toDigits 10 k := by
  have hrepr : toString (k : Int) = k.repr := rfl
  rw [hrepr, Nat.toList_repr]

theorem toList_toString_neg {k : Nat} (h : k ≠ 0) :
    (toString (-(k : Int))).toList = '-' :: Nat.toDigits 10 k := by
  obtain ⟨m, rfl⟩ := Nat.exists_eq_succ_of_ne_zero h
  have hrepr : toString (-((m.succ : Nat) : Int)) = "-" ++ m.succ.repr := rfl
  rw [hrepr, String.toList_append, Nat.toList_repr]
  rfl

/-- An integer in a text has no sign, which is a symbol of its own. -/
theorem exists_fit?_of_isPlain {n : Int64} (h : (Lexeme.int n).IsPlain) :
    ∃ k : Nat, Decimal.fit? k = some n := by
  obtain ⟨text, hwrites, -⟩ := h
  cases hwrites with
  | int _ hn => exact ⟨_, hn⟩
  | punctuation hc => exact (isMark_of_punctuation? hc).elim

/-- Floating-point numbers are not plain: the nearest double need not be shown as it was written. -/
theorem not_isPlain_float (x : Float) : ¬ (Lexeme.float x).IsPlain := by
  rintro ⟨text, hwrites, -⟩
  cases hwrites with
  | punctuation hc => exact isMark_of_punctuation? hc

/-- Integers are legible. -/
theorem legible_int {k : Nat} {n : Int64} (h : Decimal.fit? k = some n) :
    (Term.num (.int n)).Legible := by
  have hdisplay : (Term.num (.int n)).display.toList = Nat.toDigits 10 k := by
    rw [Term.display, Number.display, (toInt_of_fit? h).1, toList_toString_natCast]
  exact legible_of_writes (hdisplay ▸ writes_toDigits h) (hdisplay ▸ passes_toDigits k) (.int n)

theorem toInt_neg_of_fit? {k : Nat} {n : Int64} (h : Decimal.fit? k = some n) :
    (-n).toInt = -(k : Int) := by
  obtain ⟨hn, hle⟩ := toInt_of_fit? h
  have hmax : Int64.maxValue.toInt = 9223372036854775807 := by decide
  rw [hmax] at hle
  rw [Int64.toInt_neg, hn]
  apply Int.bmod_eq_of_le
  · simp
    omega
  · simp
    omega

/-- A negative integer shows its sign and then its digits. -/
theorem shows_negative {k : Nat} {n : Int64} (h : Decimal.fit? k = some n) :
    Shows ('-' :: Nat.toDigits 10 k) [.symbol "-", .int n] := by
  refine ⟨fun d after rest hd hafter => ?_, passes_of_forall ?_⟩
  · have hminus : Writes ['-'] (.symbol "-") := .symbol (List.forall_mem_singleton.2 (by decide))
    have hdigits : Lexes false (Nat.toDigits 10 k ++ d :: after) ([.int n] ++ rest) :=
      (shows_of_writes (writes_toDigits h) (passes_toDigits k)).lexes d after rest hd hafter
    have hends : (Lexeme.symbol "-").EndsBefore (Nat.toDigits 10 k ++ d :: after) := by
      intro c hc
      cases hk : Nat.toDigits 10 k with
      | nil => exact absurd hk Nat.toDigits_ne_nil
      | cons c' more =>
        rw [hk] at hc
        cases hc
        have hdigit : c.isDigit = true := isDigit_of_mem_toDigits (hk ▸ List.mem_cons_self)
        by_contra hsymbol
        rw [Bool.not_eq_false] at hsymbol
        cases (isSymbolChar_cases hsymbol).2.2.1.symm.trans hdigit
    show Lexes false (['-'] ++ (Nat.toDigits 10 k ++ d :: after)) _
    exact Lexes.append hminus nofun hends hdigits
  · exact List.forall_mem_cons.2 ⟨by decide, unnoticed_of_mem_toDigits k⟩

/-- A negative number is shown with its sign; zero has none. -/
theorem legible_negInt {k : Nat} {n : Int64} (h : Decimal.fit? k = some n) :
    (Term.num (.int (-n))).Legible := by
  have hneg := toInt_neg_of_fit? h
  by_cases hk : k = 0
  · have hsame : -n = n := by
      rw [← Int64.toInt_inj, hneg, (toInt_of_fit? h).1, hk]
      rfl
    rw [hsame]
    exact legible_int h
  · have hdisplay : (Term.num (.int (-n))).display.toList = '-' :: Nat.toDigits 10 k := by
      rw [Term.display, Number.display, hneg, toList_toString_neg hk]
    exact ⟨_, .negInt n, hdisplay ▸ shows_negative h⟩

/-! ### Lists and compound terms -/

theorem toList_intercalate_display (ts : List Term) :
    (", ".intercalate (Term.displayAll ts)).toList =
      commaJoined (ts.map fun t => t.display.toList) := by
  rw [String.toList_intercalate, Term.displayAll_eq_map, List.map_map]
  rfl

/-- Legible terms are spelled by their texts with commas between them. -/
theorem exists_parts_of_legible {ts : List Term} (h : ∀ t ∈ ts, t.Legible) :
    ∃ parts : List (List Lexeme × Term), parts.map Prod.snd = ts ∧
      (∀ part ∈ parts, Spells part.1 part.2) ∧
      Shows (commaJoined (ts.map fun t => t.display.toList))
        (commaSeparated (parts.map Prod.fst)) := by
  induction ts with
  | nil => exact ⟨[], rfl, List.forall_mem_nil _, shows_nil⟩
  | cons t rest ih =>
    obtain ⟨ht, hrest⟩ := List.forall_mem_cons.1 h
    obtain ⟨ls, hspells, hshows⟩ := ht
    obtain ⟨parts, rfl, hparts, hmore⟩ := ih hrest
    refine ⟨(ls, t) :: parts, rfl, List.forall_mem_cons.2 ⟨hspells, hparts⟩, ?_⟩
    by_cases hlast : parts = []
    · subst hlast
      rw [List.map_cons, List.map_cons]
      show Shows (commaJoined [t.display.toList]) (commaSeparated [ls])
      rw [commaJoined_singleton, commaSeparated_singleton]
      exact hshows
    · rw [List.map_cons, List.map_cons, commaJoined_cons (by simpa using hlast),
        commaSeparated_cons (by simpa using hlast)]
      exact hshows.comma hmore

theorem toList_display_list (items : List Term) :
    (Term.list items).display.toList =
      '[' :: (commaJoined (items.map fun t => t.display.toList) ++ [']']) := by
  rw [Term.display, String.toList_append, String.toList_append, toList_intercalate_display]
  rfl

/-- Lists of legible terms are legible. -/
theorem legible_list {items : List Term} (h : ∀ t ∈ items, t.Legible) :
    (Term.list items).Legible := by
  obtain ⟨parts, rfl, hparts, hshows⟩ := exists_parts_of_legible h
  refine ⟨_, .list hparts, ?_⟩
  rw [toList_display_list]
  exact hshows.brackets

theorem toList_displayHead {args : List Term} (h : args ≠ []) :
    (Term.displayHead name args).toList =
      name.toList ++ '(' :: (commaJoined (args.map fun t => t.display.toList) ++ [')']) := by
  rw [Term.displayHead, if_neg (by simpa using h), String.toList_append, String.toList_append,
    String.toList_append, toList_intercalate_display]
  simp

/-- The head of a clause with legible arguments is spelled by its text. -/
theorem exists_showsHead {args : List Term} (hname : (Lexeme.atom name).IsPlain)
    (hargs : ∀ t ∈ args, t.Legible) :
    ∃ ls, SpellsHead ls name args ∧ ShowsHead (Term.displayHead name args).toList ls := by
  obtain ⟨text, hwrites, hpasses⟩ := hname
  obtain rfl := hwrites.eq_toList rfl
  have hatom := showsHead_atom hwrites hpasses
  by_cases hempty : args = []
  · subst hempty
    exact ⟨_, .atom name, hatom⟩
  · rw [toList_displayHead hempty]
    obtain ⟨parts, rfl, hparts, hshows⟩ := exists_parts_of_legible hargs
    exact ⟨_, .compound (by simpa using hempty) hparts, hatom.parens hshows⟩

/-- Compound terms of legible terms are legible. -/
theorem legible_compound {args : List Term} (hname : (Lexeme.atom name).IsPlain) (hne : args ≠ [])
    (hargs : ∀ t ∈ args, t.Legible) : (Term.atom (Term.displayHead name args)).Legible := by
  obtain ⟨ls, hspells, hshows⟩ := exists_showsHead hname hargs
  refine ⟨ls, ?_, hshows.shows⟩
  cases hspells with
  | atom => exact absurd rfl hne
  | compound hparts h => exact .compound hparts h

theorem subset_commaSeparated {parts : List (List Lexeme × Term)} {part : List Lexeme × Term}
    (h : part ∈ parts) : part.1 ⊆ commaSeparated (parts.map Prod.fst) := by
  induction parts with
  | nil => cases h
  | cons first others ih =>
    by_cases hlast : others = []
    · subst hlast
      rw [List.mem_singleton] at h
      subst h
      show part.1 ⊆ commaSeparated [part.1]
      rw [commaSeparated_singleton]
      exact List.Subset.refl _
    · rw [List.map_cons, commaSeparated_cons (by simpa using hlast)]
      rcases List.mem_cons.1 h with rfl | h
      · exact List.subset_append_left _ _
      · intro l hl
        exact List.mem_append_right _ (List.mem_cons_of_mem _ (ih h hl))

/-- A term that is spelled by plain lexemes is legible. -/
theorem Spells.legible (h : Spells ls t) (hplain : ∀ l ∈ ls, l.IsPlain) : t.Legible := by
  have hparts : ∀ {parts : List (List Lexeme × Term)},
      (∀ l ∈ commaSeparated (parts.map Prod.fst), l.IsPlain) →
      (∀ part ∈ parts, (∀ l ∈ part.1, l.IsPlain) → part.2.Legible) →
      ∀ t ∈ parts.map Prod.snd, t.Legible := by
    intro parts hplain hlegible t ht
    obtain ⟨part, hpart, rfl⟩ := List.mem_map.1 ht
    exact hlegible part hpart fun l hl => hplain l (subset_commaSeparated hpart hl)
  induction h with
  | var name => exact legible_var (hplain _ List.mem_cons_self)
  | int n =>
    obtain ⟨k, hk⟩ := exists_fit?_of_isPlain (hplain _ List.mem_cons_self)
    exact legible_int hk
  | negInt n =>
    obtain ⟨k, hk⟩ := exists_fit?_of_isPlain (hplain (.int n) (by simp))
    exact legible_negInt hk
  | float x => exact absurd (hplain _ List.mem_cons_self) (not_isPlain_float x)
  | negFloat x => exact absurd (hplain (.float x) (by simp)) (not_isPlain_float x)
  | str s => exact legible_str (hplain _ List.mem_cons_self)
  | bang => exact legible_bang
  | symbol s => exact legible_symbol (hplain _ List.mem_cons_self)
  | atom name => exact legible_atom (hplain _ List.mem_cons_self)
  | list h ih =>
    refine legible_list (hparts (fun l hl => hplain l ?_) ih)
    exact List.mem_cons_of_mem _ (List.mem_append_left _ hl)
  | compound hne h ih =>
    refine legible_compound (hplain _ List.mem_cons_self) (by simpa using hne)
      (hparts (fun l hl => hplain l ?_) ih)
    exact List.mem_cons_of_mem _ (List.mem_cons_of_mem _ (List.mem_append_left _ hl))

/-- The head of a clause that is spelled by plain lexemes can be read again. -/
theorem SpellsHead.exists_showsHead {args : List Term} (h : SpellsHead ls name args)
    (hplain : ∀ l ∈ ls, l.IsPlain) :
    ∃ ms, SpellsHead ms name args ∧ ShowsHead (Term.displayHead name args).toList ms := by
  cases h with
  | atom name => exact Horn.exists_showsHead (hplain _ List.mem_cons_self) (List.forall_mem_nil _)
  | @compound name parts hne h =>
    refine Horn.exists_showsHead (hplain _ List.mem_cons_self) fun t ht => ?_
    obtain ⟨part, hpart, rfl⟩ := List.mem_map.1 ht
    refine (h part hpart).legible fun l hl => hplain l ?_
    exact List.mem_cons_of_mem _ (List.mem_cons_of_mem _
      (List.mem_append_left _ (subset_commaSeparated hpart hl)))

end StackLogic.Horn
