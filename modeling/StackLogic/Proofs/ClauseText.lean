import StackLogic.Proofs.Database
import StackLogic.Proofs.Legible

/-!
# Clauses as lines

A plain line has no `'` and no backslash, and no floating-point number in its head. A clause that
such a line defines is defined by its own text, too (`Defines.display`): its head can be read again
because its terms are legible, and the goals of its body are found again because they are the pieces
of a text in which no comment starts. A fact without arguments is a word, and it names no command
because the word on the line named none.
-/

namespace StackLogic.Horn

open Source Lexeme

variable {line name : String} {c : Clause} {args : List Term}

/-! ## Lines -/

namespace Source

variable {text cs : List Char} {first : Char} {rest : List Char}

/-- The text of the head on a line: what is before the arrow, or all if there is none. -/
def headText (line : String) : List Char :=
  match splitAt? arrow none (core line) with
  | some (head, _) => head
  | none => core line

/-- A line without quoted atoms, escapes and floating-point numbers. Only the numbers in its head
matter, because the goals of a body are kept as texts. -/
structure IsPlainLine (line : String) : Prop where
  quote : '\x27' ∉ line.toList
  backslash : '\\' ∉ line.toList
  float : ∀ tokens, Tokens.ofString (String.ofList (headText line)) = .ok tokens →
    ∀ t ∈ tokens.items, ∀ x, t.lexeme ≠ .float x

/-- A line is plain if it has lexemes other than floats and neither a backslash nor a single quote.
-/
theorem IsPlainLine.of_lexes {ls : List Lexeme} (hquote : '\x27' ∉ line.toList)
    (hbackslash : '\\' ∉ line.toList) (h : Lexes true (headText line) ls)
    (hfloat : ∀ l ∈ ls, ∀ x, l ≠ .float x) : IsPlainLine line := by
  refine ⟨hquote, hbackslash, fun tokens htokens t ht => ?_⟩
  obtain ⟨found, hfound, rfl⟩ := h.exists_scanFrom 0
  rw [Tokens.ofString, String.toList_ofList, hfound] at htokens
  cases htokens
  exact hfloat t.lexeme (List.mem_map_of_mem ht)

/-- The core of a line holds no comment. -/
theorem dropComment_core (line : String) : dropComment none none (core line) = core line := by
  have hstripped : dropComment none none (stripComment line.toList) = stripComment line.toList :=
    dropComment_dropComment none none line.toList
  obtain ⟨before, after, hcs, hbefore, -⟩ := exists_trim (stripComment line.toList)
  rw [hcs] at hstripped
  have hrest := (dropComment_append_eq_iff.1 hstripped).2
  rw [lastAfter_blank hbefore,
    Quote.after_eq_none fun c hc => isQuote_of_isBlank (hbefore c hc)] at hrest
  exact (dropComment_append_eq_iff.1 hrest).1

theorem core_subset (line : String) : core line ⊆ line.toList := by
  obtain ⟨before, after, hcs, -, -⟩ := exists_trim (stripComment line.toList)
  intro c hc
  refine (dropComment_isPrefix none none line.toList).subset ?_
  show c ∈ stripComment line.toList
  rw [hcs]
  exact List.mem_append_right _ (List.mem_append_left _ hc)

theorem isBlank_of_trim_eq_self (h : Text.trim (first :: rest) = first :: rest) :
    Text.isBlank first = false := by
  by_contra hblank
  rw [Bool.not_eq_false] at hblank
  rw [Text.trim, List.dropWhile_cons_of_pos hblank] at h
  have hend := (trimEnd_isPrefix (rest.dropWhile Text.isBlank)).length_le
  have hstart := (List.dropWhile_suffix Text.isBlank (l := rest)).length_le
  rw [h, List.length_cons] at hend
  omega

/-- The core of a line has no blanks around it. -/
theorem trim_core (line : String) : Text.trim (core line) = core line := trim_trim _

/-- What is before the arrow holds no comment and no other arrow. -/
theorem headText_spec (line : String) :
    headText line ⊆ core line ∧ dropComment none none (headText line) = headText line ∧
      splitAt? arrow none (headText line) = none := by
  have hcomment := dropComment_core line
  unfold headText
  split
  next head found hfound =>
    obtain ⟨hcore, -, -, hhead⟩ := splitAt?_eq_some hfound
    rw [hcore] at hcomment ⊢
    exact ⟨List.subset_append_left _ _, (dropComment_append_eq_iff.1 hcomment).1, hhead⟩
  next hnone => exact ⟨List.Subset.refl _, hcomment, hnone⟩

/-- A line that starts with a small letter and has no arrow is a fact or a command. -/
theorem classify_of_isLower (hfirst : first.isLower = true)
    (htrim : Text.trim (first :: rest) = first :: rest)
    (harrow : splitAt? arrow none (first :: rest) = none) :
    classify (first :: rest) =
      if '(' ∈ first :: rest ∧ ')' ∈ first :: rest then .fact else .command := by
  have hmark : queryMark.isPrefixOf (first :: rest) = false := by
    have hne : first ≠ '?' := by
      rintro rfl
      exact absurd hfirst (by decide)
    simp [queryMark, List.isPrefixOf, hne.symm]
  unfold classify
  dsimp only
  rw [htrim, harrow, hmark]
  rfl

/-- Only a text with parentheses is a fact at once. -/
theorem mem_of_classify_eq_fact (h : classify text = .fact) : '(' ∈ Text.trim text := by
  unfold classify at h
  dsimp only at h
  split at h
  · cases h
  split at h
  · cases h
  split at h
  next hparens => exact hparens.1
  next => cases h

end Source

/-! ## Lexemes of a head -/

theorem isBlank_of_laidOut_nil {cs : List Char} (h : LaidOut cs []) :
    ∀ x ∈ cs, Text.isBlank x = true := by
  generalize hls : ([] : List Lexeme) = ls at h
  induction h with
  | nil => exact List.forall_mem_nil _
  | blank hc _ ih => exact List.forall_mem_cons.2 ⟨hc, ih hls⟩
  | token => cases hls

theorem exists_of_laidOut_cons {cs : List Char} {l : Lexeme} {ls : List Lexeme}
    (h : LaidOut cs (l :: ls)) :
    ∃ before text rest, cs = before ++ (text ++ rest) ∧ (∀ x ∈ before, Text.isBlank x = true) ∧
      Writes text l ∧ LaidOut rest ls := by
  generalize hls : l :: ls = ls' at h
  induction h with
  | nil => cases hls
  | blank hc _ ih =>
    obtain ⟨before, text, rest, rfl, hbefore, hwrites, hrest⟩ := ih hls
    exact ⟨_ :: before, text, rest, rfl, List.forall_mem_cons.2 ⟨hc, hbefore⟩, hwrites, hrest⟩
  | token hwrites _ hrest =>
    cases hls
    exact ⟨[], _, _, rfl, List.forall_mem_nil _, hwrites, hrest⟩

/-- The head of a plain line is laid out from its lexemes. -/
theorem exists_laidOut (hline : IsPlainLine line)
    (h : Grammar.clauseHead (String.ofList (headText line)) = .ok (name, args)) :
    ∃ ls tail, LaidOut (headText line) (ls ++ tail) ∧ SpellsHead ls name args ∧
      Grammar.IsEnd tail := by
  obtain ⟨hsub, hcomment, harrow⟩ := headText_spec line
  obtain ⟨ls, tail, hlexes, hspells, htail⟩ := Grammar.clauseHead_eq_ok_iff.1 h
  obtain ⟨tokens, htokens, hitems⟩ := hlexes.exists_scanFrom 0
  have hfloat : ∀ x, Lexeme.float x ∉ ls ++ tail := by
    intro x hx
    rw [← hitems] at hx
    obtain ⟨t, ht, hlexeme⟩ := List.mem_map.1 hx
    exact hline.float tokens htokens t ht x hlexeme
  rw [String.toList_ofList] at hlexes
  have hquote : '\x27' ∉ headText line := fun hmem => hline.quote (core_subset line (hsub hmem))
  have hbackslash : '\\' ∉ headText line :=
    fun hmem => hline.backslash (core_subset line (hsub hmem))
  exact ⟨ls, tail,
    laidOut_of_lexes hlexes (fun _ => .inl rfl) hquote hbackslash hfloat hcomment harrow, hspells,
    htail⟩

/-- The head of a plain line can be read again as it is shown. -/
theorem exists_showsHead_of_isPlainLine (hline : IsPlainLine line)
    (h : Grammar.clauseHead (String.ofList (headText line)) = .ok (name, args)) :
    ∃ ms, SpellsHead ms name args ∧ ShowsHead (Term.displayHead name args).toList ms := by
  obtain ⟨ls, tail, hlaid, hspells, -⟩ := exists_laidOut hline h
  exact hspells.exists_showsHead fun l hl => hlaid.isPlain l (List.mem_append_left _ hl)

theorem isBlank_of_isNameChar {x : Char} (h : isNameChar x = true) : Text.isBlank x = false := by
  rw [isNameChar_eq, Bool.or_eq_true, Bool.or_eq_true, Bool.or_eq_true] at h
  rcases h with ((hupper | hlower) | hdigit) | hunderscore
  · exact (isUpper_cases (by simp [hupper])).2.1
  · exact (isLower_cases hlower).2.2.1
  · obtain ⟨hlow, hhigh⟩ := isDigit_iff.1 hdigit
    exact isBlank_eq_false (by omega) (by omega)
  · exact (isUpper_cases (by simp [hunderscore])).2.1

/-- A name has no point at its end. -/
theorem stripTerminator_name {cs : List Char} (h : ∀ x ∈ cs, isNameChar x = true) :
    Text.trimEnd cs = cs ∧ stripTerminator cs = cs := by
  have hend : Text.trimEnd cs = cs := by
    refine List.rdropWhile_eq_self_iff.2 fun hne => ?_
    rw [isBlank_of_isNameChar (h _ (List.getLast_mem hne))]
    exact Bool.false_ne_true
  refine ⟨hend, ?_⟩
  unfold stripTerminator
  dsimp only
  rw [hend, if_neg]
  intro hpoint
  exact absurd (h '.' (List.mem_of_getLast? hpoint)) (by decide)

theorem isNameChar_of_writes_atom {text : List Char} (h : Writes text (.atom name)) :
    ∀ x ∈ text, isNameChar x = true := by
  cases h with
  | atom hc hrest => exact List.forall_mem_cons.2 ⟨(isLower_cases hc).2.2.2, hrest⟩
  | punctuation hc => exact (isMark_of_punctuation? hc).elim

/-- A line that is only a name. -/
theorem stripTerminator_of_laidOut {cs : List Char} {tail : List Lexeme}
    (hcs : Text.trim cs = cs) (h : LaidOut cs (.atom name :: tail)) (htail : Grammar.IsEnd tail) :
    stripTerminator cs = name.toList ∧ '(' ∉ cs := by
  obtain ⟨before, text, rest, rfl, hbefore, hwrites, hrest⟩ := exists_of_laidOut_cons h
  obtain rfl : before = [] := by
    cases before with
    | nil => rfl
    | cons x more => cases (hbefore x List.mem_cons_self).symm.trans (isBlank_of_trim_eq_self hcs)
  have hname := isNameChar_of_writes_atom hwrites
  obtain rfl := hwrites.eq_toList rfl
  have hparen : '(' ∉ name.toList := fun hmem => absurd (hname _ hmem) (by decide)
  have hblankParen : ∀ {w : List Char}, (∀ x ∈ w, Text.isBlank x = true) → '(' ∉ w :=
    fun hw hmem => absurd (hw _ hmem) (by decide)
  obtain ⟨hend, hterminator⟩ := stripTerminator_name hname
  rw [List.nil_append]
  rcases htail with rfl | rfl
  · have hblank := isBlank_of_laidOut_nil hrest
    rw [stripTerminator_append_blank hblank, hterminator, List.mem_append, not_or]
    exact ⟨rfl, hparen, hblankParen hblank⟩
  · obtain ⟨gap, point, after, rfl, hgap, hpoint, hafter⟩ := exists_of_laidOut_cons hrest
    have hblank := isBlank_of_laidOut_nil hafter
    have htext : name.toList ++ (gap ++ (point ++ after)) =
        ((name.toList ++ gap) ++ ['.']) ++ after := by
      rw [hpoint.eq_toList rfl]
      simp
    rw [htext, stripTerminator_append_blank hblank, stripTerminator_concat,
      trimEnd_append_blank hgap, hend]
    refine ⟨rfl, ?_⟩
    simp [hparen, hblankParen hgap, hblankParen hblank]

/-! ## Clauses as lines -/

/-- The text of a head holds no comment, whatever follows. -/
theorem ShowsHead.dropComment_line {head after : List Char} {ms : List Lexeme}
    (h : ShowsHead head ms) (hafter : ∀ last, dropComment none last after = after) :
    dropComment none none (head ++ after) = head ++ after := by
  have hhead : dropComment none none head = head := by
    have hcomment := h.passes.comment 'a' (by decide)
    obtain ⟨first, rest, rfl, hlower⟩ := h.lower
    have hblank := (isLower_cases hlower).2.2.1
    have hpercent : first ≠ '%' := by
      rintro rfl
      exact absurd hlower (by decide)
    rw [dropComment_cons (by decide), hblank] at hcomment
    rw [dropComment, if_neg (by simp [hpercent]), hblank]
    exact hcomment
  rw [dropComment_append hhead, h.passes.quote, hafter]

/-- A line that begins with a head and goes on without a comment is used as it is. -/
theorem ShowsHead.core_line {head after : List Char} {ms : List Lexeme} (h : ShowsHead head ms)
    (hafter : ∀ last, dropComment none last after = after) (hend : Text.trimEnd after = after)
    (hne : after ≠ []) : core (String.ofList (head ++ after)) = head ++ after := by
  obtain ⟨first, rest, rfl, hlower⟩ := h.lower
  have hblank := (isLower_cases hlower).2.2.1
  rw [core, String.toList_ofList, stripComment, h.dropComment_line hafter, Text.trim,
    List.cons_append, List.dropWhile_cons_of_neg (by simp [hblank]), ← List.cons_append,
    trimEnd_append hend hne]

/-- A head with a point is read as the head and the point. -/
theorem ShowsHead.lexes_point {head : List Char} {ms : List Lexeme} (h : ShowsHead head ms) :
    Lexes true (head ++ ['.']) (ms ++ [.symbol "."]) := by
  have hpoint : Writes ['.'] (.symbol ".") := .symbol (List.forall_mem_singleton.2 (by decide))
  have hlexes : Lexes false (['.'] ++ []) [.symbol "."] := .append hpoint nofun nofun .nil
  refine h.lexes true _ _ (fun x hx => ?_) hlexes
  cases hx
  decide

theorem ShowsHead.lexes_space {head : List Char} {ms : List Lexeme} (h : ShowsHead head ms) :
    Lexes true (head ++ [' ']) ms := by
  have hspace : ∀ x ∈ [' '].head?, isNameChar x = false := by
    intro x hx
    cases hx
    decide
  have hlexes := h.lexes true [' '] [] hspace (.blank (by decide) .nil)
  rwa [List.append_nil] at hlexes

/-- A plain line that is only a name. -/
theorem stripTerminator_core_of_name (hline : IsPlainLine line) (harrow : headText line = core line)
    (h : Grammar.clauseHead (String.ofList (headText line)) = .ok (name, [])) :
    stripTerminator (core line) = name.toList ∧ '(' ∉ core line := by
  obtain ⟨ls, tail, hlaid, hspells, htail⟩ := exists_laidOut hline h
  rw [harrow, hspells.eq_atom] at hlaid
  exact stripTerminator_of_laidOut (trim_core line) hlaid htail

/-- A head with a point is a fact if it has parentheses. -/
theorem ShowsHead.classify_point {head : List Char} {ms : List Lexeme} (h : ShowsHead head ms)
    (htrim : Text.trim (head ++ ['.']) = head ++ ['.']) :
    classify (head ++ ['.']) = if '(' ∈ head ∧ ')' ∈ head then .fact else .command := by
  have hnone : splitAt? arrow none (head ++ ['.']) = none := by
    rw [splitAt?_arrow_append h.passes.arrow (by decide), h.passes.quote]
    rfl
  obtain ⟨first, rest, rfl, hfirst⟩ := h.lower
  rw [List.cons_append] at hnone htrim ⊢
  rw [classify_of_isLower hfirst htrim hnone]
  simp

/-- The text of a fact is read as a fact. -/
theorem isFactLine_display {ms : List Lexeme} (hline : IsPlainLine line) (hfact : IsFactLine line)
    (harrow : headText line = core line)
    (hhead : Grammar.clauseHead (String.ofList (headText line)) = .ok (name, args))
    (hshows : ShowsHead (Term.displayHead name args).toList ms)
    (hcore : core ((Clause.fact args).display name) =
      (Term.displayHead name args).toList ++ ['.']) :
    IsFactLine ((Clause.fact args).display name) := by
  have htrim := trim_core ((Clause.fact args).display name)
  rw [hcore] at htrim
  have hkind := hshows.classify_point htrim
  unfold IsFactLine commandWord
  rw [hcore, hkind]
  by_cases hargs : args = []
  · -- without arguments the fact is a word, the same word as on the line
    subst hargs
    obtain ⟨hword, hparen⟩ := stripTerminator_core_of_name hline harrow hhead
    have hname : (Term.displayHead name []).toList = stripTerminator (core line) := hword.symm
    rw [hname, stripTerminator_concat, trimEnd_stripTerminator]
    rcases hfact with hfact | ⟨-, hcommand, hlower⟩
    · exact absurd (trim_core line ▸ mem_of_classify_eq_fact hfact) hparen
    · refine .inr ⟨if_neg fun hparens => hparen ?_, hcommand, hlower⟩
      exact (stripTerminator_isPrefix _).subset hparens.1
  · rw [toList_displayHead hargs]
    refine .inl (if_pos ?_)
    simp

theorem headText_of_isFactLine (h : IsFactLine line) : headText line = core line := by
  have hkind : classify (core line) ≠ .rule := by
    rcases h with hkind | ⟨hkind, -, -⟩ <;> rw [hkind] <;> exact nofun
  rw [Ne, classify_core_eq_rule_iff, Option.not_isSome_iff_eq_none] at hkind
  rw [headText, hkind]

/-- The line that shows a fact defines the fact. -/
theorem Defines.display_fact (hline : IsPlainLine line) (hfact : IsFactLine line)
    (hhead : Grammar.clauseHead (String.ofList (core line)) = .ok (name, args)) :
    Defines ((Clause.fact args).display name) name (.fact args) := by
  have harrow := headText_of_isFactLine hfact
  rw [← harrow] at hhead
  obtain ⟨ms, hspells, hshows⟩ := exists_showsHead_of_isPlainLine hline hhead
  have hcore : core ((Clause.fact args).display name) =
      (Term.displayHead name args).toList ++ ['.'] := by
    have htext : (Clause.fact args).display name =
        String.ofList ((Term.displayHead name args).toList ++ ['.']) := by
      rw [← String.toList_inj, String.toList_ofList, Clause.display, String.toList_append]
      rfl
    rw [htext]
    exact hshows.core_line (fun last => by simp [dropComment]) (by decide) (by decide)
  refine .fact (isFactLine_display hline hfact harrow hhead hshows hcore) ?_
  rw [hcore, Grammar.clauseHead_eq_ok_iff, String.toList_ofList]
  exact ⟨ms, [.symbol "."], hshows.lexes_point, hspells, .inr rfl⟩

theorem dropComment_body {head arrowAndBody : List Char}
    (harrow : splitAt? arrow none (core line) = some (head, arrowAndBody)) :
    ∃ body, arrowAndBody = ':' :: '-' :: body ∧ dropComment none (some '-') body = body := by
  obtain ⟨hcore, ⟨body, rfl⟩, hquote, -⟩ := splitAt?_eq_some harrow
  have hcomment := dropComment_core line
  rw [hcore] at hcomment
  have hbody := (dropComment_append_eq_iff.1 hcomment).2
  rw [hquote] at hbody
  have hbody' := (dropComment_append_eq_iff.1 hbody).2
  exact ⟨body, rfl, hbody'⟩

/-- A rule is shown as its head, an arrow and its body. -/
theorem toList_display_rule (name : String) (args : List Term) (texts : List String) :
    ((Clause.rule args (texts.map BodyGoal.ofText)).display name).toList =
      (Term.displayHead name args).toList ++ ' ' :: ':' :: '-' :: shownBody texts := by
  have htexts : (texts.map BodyGoal.ofText).map BodyGoal.text = texts := by
    rw [List.map_map]
    exact List.map_id' texts
  simp [Clause.display, shownBody, htexts, List.append_assoc]

/-- A rule is defined by its text if its head can be read again and its goals are found again. -/
theorem ShowsHead.defines_rule {texts : List String} {ms : List Lexeme}
    (h : ShowsHead (Term.displayHead name args).toList ms) (hspells : SpellsHead ms name args)
    (hne : texts ≠ []) (hgoals : ∀ text ∈ texts, IsGoalText text)
    (hshown : goalTexts (shownBody texts) = texts)
    (hcomment : dropComment none (some '-') (shownBody texts) = shownBody texts) :
    Defines ((Clause.rule args (texts.map BodyGoal.ofText)).display name) name
      (.rule args (texts.map BodyGoal.ofText)) := by
  set line := (Clause.rule args (texts.map BodyGoal.ofText)).display name
  have hcore : core line =
      (Term.displayHead name args).toList ++ ' ' :: ':' :: '-' :: shownBody texts := by
    have hend : Text.trimEnd (shownBody texts) = shownBody texts := by
      rw [shownBody, ← List.cons_append, Text.trimEnd_concat (by decide)]
    have hline : line = String.ofList line.toList := String.ofList_toList.symm
    rw [hline, toList_display_rule]
    refine h.core_line (fun last => ?_) ?_ (by simp)
    · have hspace : dropComment none last (' ' :: ':' :: '-' :: shownBody texts) =
          ' ' :: ':' :: '-' :: dropComment none (some '-') (shownBody texts) := by
        simp [dropComment, Quote.next, isQuote, Text.isBlank, Text.blankRanges]
      rw [hspace, hcomment]
    · exact trimEnd_append hend (by simp [shownBody]) [' ', ':', '-']
  have harrow : splitAt? arrow none (core line) =
      some ((Term.displayHead name args).toList ++ [' '], ':' :: '-' :: shownBody texts) := by
    rw [hcore, splitAt?_arrow_append h.passes.arrow (by simp), h.passes.quote,
      splitAt?_arrow_cons (by decide)]
    rfl
  have hhead : Grammar.clauseHead (String.ofList ((Term.displayHead name args).toList ++ [' '])) =
      .ok (name, args) := by
    rw [Grammar.clauseHead_eq_ok_iff, String.toList_ofList]
    exact ⟨ms, [], by rw [List.append_nil]; exact h.lexes_space, hspells, .inl rfl⟩
  have hdrop : goalTexts ((':' :: '-' :: shownBody texts).drop 2) = texts := hshown
  have hdefines := Defines.rule harrow hhead (hdrop.symm ▸ hne) (hdrop.symm ▸ hgoals)
  rwa [hdrop] at hdefines

/-- A clause that a plain line defines is defined by its own text. -/
theorem Defines.display (h : Defines line name c) (hline : IsPlainLine line) :
    Defines (c.display name) name c := by
  cases h with
  | fact hfact hhead => exact Defines.display_fact hline hfact hhead
  | @rule args head arrowAndBody harrow hhead hbody hgoals =>
    have hheadText : headText line = head := by rw [headText, harrow]
    rw [← hheadText] at hhead
    obtain ⟨ms, hspells, hshows⟩ := exists_showsHead_of_isPlainLine hline hhead
    obtain ⟨body, rfl, hcomment⟩ := dropComment_body harrow
    obtain ⟨hshown, hshownComment⟩ :=
      goalTexts_shownBody hcomment hbody fun text htext => (hgoals text htext).1
    exact hshows.defines_rule hspells hbody hgoals hshown hshownComment

end StackLogic.Horn
