import StackLogic.Proofs.RawText

/-!
# The goals of a body

A body is split into goals at the commas outside of quotes and brackets, after its terminator has
been taken off. The pieces of a text without comments, joined by commas again, are split into the
same pieces (`ArePieces.split_joined`): each piece but the last closes its quotes and brackets, and
blanks at its ends do not matter. So the goals of a body are found again in their listing
(`goalTexts_shownBody`).
-/

namespace StackLogic.Horn.Source

variable {q : Quote} {last : Option Char} {a b cs : List Char} {c x : Char}

/-! ## Goals of a body -/

variable {s : Quote × Nat} {w : List Char}

/-- The open quote and the nesting depth after a character. -/
def advance (s : Quote × Nat) (c : Char) : Quote × Nat :=
  (s.1.next c, if s.1.isNone then nest s.2 c else s.2)

/-- The open quote and the nesting depth after some characters. -/
def stateAfter (s : Quote × Nat) (cs : List Char) : Quote × Nat := cs.foldl advance s

/-- From this state on, the text has no comma outside of quotes and brackets. -/
def Unsplit (s : Quote × Nat) (cs : List Char) : Prop := pieces ',' s.1 s.2 cs = (cs, [])

/-- A text is gone over in two parts, with the state between them. -/
theorem stateAfter_append (s : Quote × Nat) (a b : List Char) :
    stateAfter s (a ++ b) = stateAfter (stateAfter s a) b := List.foldl_append

theorem stateAfter_fst (s : Quote × Nat) (cs : List Char) :
    (stateAfter s cs).1 = s.1.after cs := by
  induction cs generalizing s with
  | nil => rfl
  | cons c rest ih => exact ih (advance s c)

/-- A comma separates goals only outside of quotes and brackets. -/
theorem advance_of_separates (h : separates ',' s.1 s.2 c = true) : c = ',' ∧ s = (none, 0) := by
  simp only [separates, Bool.and_eq_true, Option.isNone_iff_eq_none, beq_iff_eq] at h
  exact ⟨h.1.1.2, Prod.ext h.1.1.1.1 h.1.1.1.2⟩

/-- A separator starts the next piece. -/
theorem pieces_cons_of_separates (h : separates ',' s.1 s.2 c = true) (rest : List Char) :
    pieces ',' s.1 s.2 (c :: rest) =
      ([], (pieces ',' none 0 rest).1 :: (pieces ',' none 0 rest).2) := by
  rw [pieces, if_pos h]

/-- Any other character goes to the piece that is open. -/
theorem pieces_cons_of_not_separates (h : separates ',' s.1 s.2 c = false) (rest : List Char) :
    pieces ',' s.1 s.2 (c :: rest) =
      (c :: (pieces ',' (advance s c).1 (advance s c).2 rest).1,
        (pieces ',' (advance s c).1 (advance s c).2 rest).2) := by
  rw [pieces, if_neg (by simp [h])]
  rfl

theorem unsplit_cons {rest : List Char} :
    Unsplit s (c :: rest) ↔ separates ',' s.1 s.2 c = false ∧ Unsplit (advance s c) rest := by
  unfold Unsplit
  cases h : separates ',' s.1 s.2 c with
  | true => simp [pieces_cons_of_separates h]
  | false => simp [pieces_cons_of_not_separates h, Prod.ext_iff]

/-- Two texts have no separator if neither has one where it stands. -/
theorem unsplit_append :
    Unsplit s (a ++ b) ↔ Unsplit s a ∧ Unsplit (stateAfter s a) b := by
  induction a generalizing s with
  | nil => simp [Unsplit, pieces, stateAfter]
  | cons c rest ih =>
    rw [List.cons_append, unsplit_cons, unsplit_cons, ih, and_assoc]
    rfl

/-- A comma after such a text ends a piece. -/
theorem pieces_append_comma (h : Unsplit s a) (hs : stateAfter s a = (none, 0)) (b : List Char) :
    pieces ',' s.1 s.2 (a ++ ',' :: b) =
      (a, (pieces ',' none 0 b).1 :: (pieces ',' none 0 b).2) := by
  induction a generalizing s with
  | nil =>
    cases hs
    exact pieces_cons_of_separates (by decide) b
  | cons c rest ih =>
    obtain ⟨hc, hrest⟩ := unsplit_cons.1 h
    rw [List.cons_append, pieces_cons_of_not_separates hc, ih hrest hs]

/-- The first piece is the whole text, or it ends at a comma that is outside of quotes and
brackets. -/
theorem pieces_cases (s : Quote × Nat) (cs : List Char) :
    Unsplit s cs ∨ ∃ first rest, cs = first ++ ',' :: rest ∧ Unsplit s first ∧
      stateAfter s first = (none, 0) := by
  induction cs generalizing s with
  | nil => exact .inl rfl
  | cons c rest ih =>
    cases hc : separates ',' s.1 s.2 c with
    | true =>
      obtain ⟨rfl, rfl⟩ := advance_of_separates hc
      exact .inr ⟨[], rest, rfl, rfl, rfl⟩
    | false =>
      rcases ih (advance s c) with hrest | ⟨first, more, rfl, hfirst, hstate⟩
      · exact .inl (unsplit_cons.2 ⟨hc, hrest⟩)
      · exact .inr ⟨c :: first, more, rfl, unsplit_cons.2 ⟨hc, hfirst⟩, hstate⟩

/-! ### Blanks around a goal -/

/-- Only quotes are open. -/
def Quote.Proper (q : Quote) : Prop := ∀ x, q = some x → isQuote x = true

theorem Quote.proper_none : Quote.Proper none := nofun

theorem Quote.Proper.next (h : Quote.Proper q) (c : Char) : Quote.Proper (q.next c) := by
  intro x hx
  cases q with
  | some opened =>
    change (if c = opened then none else some opened) = some x at hx
    split at hx
    · cases hx
    · exact h x hx
  | none =>
    change (if isQuote c = true then some c else none) = some x at hx
    split at hx
    next hc =>
      cases hx
      exact hc
    next => cases hx

theorem Quote.Proper.stateAfter (h : Quote.Proper s.1) (cs : List Char) :
    Quote.Proper (stateAfter s cs).1 := by
  induction cs generalizing s with
  | nil => exact h
  | cons c rest ih => exact ih (h.next c)

theorem advance_blank (h : Quote.Proper s.1) (hc : Text.isBlank c = true) : advance s c = s := by
  obtain ⟨q, depth⟩ := s
  have hquote := isQuote_of_isBlank hc
  cases q with
  | some opened =>
    have hne : c ≠ opened := by
      rintro rfl
      rw [h c rfl] at hquote
      cases hquote
    simp [advance, Quote.next, hne]
  | none =>
    have hnest : nest depth c = depth := by
      have hopen : ¬ (c = '(' ∨ c = '[') := by
        rintro (rfl | rfl) <;> exact absurd hc (by decide)
      have hclose : ¬ (c = ')' ∨ c = ']') := by
        rintro (rfl | rfl) <;> exact absurd hc (by decide)
      rw [nest, if_neg hopen, if_neg hclose]
    simp [advance, Quote.next, hquote, hnest]

/-- Blanks change neither the quotes nor the depth. -/
theorem stateAfter_blank (h : Quote.Proper s.1) (hw : ∀ c ∈ w, Text.isBlank c = true) :
    stateAfter s w = s := by
  induction w with
  | nil => rfl
  | cons c rest ih =>
    obtain ⟨hc, hrest⟩ := List.forall_mem_cons.1 hw
    show stateAfter (advance s c) rest = s
    rw [advance_blank h hc, ih hrest]

/-! ### Pieces -/

/-- Nothing in the text is a comment, and no comma divides it. -/
structure IsPiece (cs : List Char) : Prop where
  comment : ∀ x ≠ '.', dropComment none (some x) cs = cs
  unsplit : Unsplit (none, 0) cs

/-- A piece without the blanks around it is one. -/
theorem IsPiece.trim (h : IsPiece cs) : IsPiece (Text.trim cs) := by
  obtain ⟨before, after, hcs, hbefore, -⟩ := exists_trim cs
  have hstate : stateAfter (none, 0) before = (none, 0) :=
    stateAfter_blank Quote.proper_none hbefore
  refine ⟨fun x hx => ?_, ?_⟩
  · have hcomment := h.comment x hx
    rw [hcs, dropComment_append_eq_iff, dropComment_append_eq_iff, ← stateAfter_fst (none, 0),
      hstate, lastAfter_blank hbefore] at hcomment
    exact hcomment.2.1
  · have hunsplit := h.unsplit
    rw [hcs, unsplit_append, unsplit_append, hstate] at hunsplit
    exact hunsplit.2.1

theorem stateAfter_trim (h : stateAfter (none, 0) cs = (none, 0)) :
    stateAfter (none, 0) (Text.trim cs) = (none, 0) := by
  obtain ⟨before, after, hcs, hbefore, hafter⟩ := exists_trim cs
  have hproper : Quote.Proper (stateAfter (none, 0) (Text.trim cs)).1 :=
    Quote.proper_none.stateAfter _
  rwa [hcs, stateAfter_append, stateAfter_append, stateAfter_blank Quote.proper_none hbefore,
    stateAfter_blank hproper hafter] at h

/-- Pieces of which each but the last closes its quotes and brackets. -/
inductive ArePieces : List (List Char) → Prop where
  | last {piece : List Char} (h : IsPiece piece) : ArePieces [piece]
  | cons {piece : List Char} {others : List (List Char)} (h : IsPiece piece)
      (hclosed : stateAfter (none, 0) piece = (none, 0)) (hothers : ArePieces others) :
      ArePieces (piece :: others)

/-- The pieces of a text without a comment. -/
theorem arePieces_trim (hx : x ≠ '.') (h : dropComment none (some x) cs = cs) :
    ArePieces (((pieces ',' none 0 cs).1 :: (pieces ',' none 0 cs).2).map Text.trim) := by
  induction cs using (measure List.length).wf.induction generalizing x with
  | _ cs ih =>
    have hcomment : ∀ y ≠ '.', dropComment none (some y) cs = cs := by
      intro y hy
      rw [dropComment_congr hy hx, h]
    rcases pieces_cases (none, 0) cs with hwhole | ⟨first, rest, rfl, hfirst, hstate⟩
    · have hpieces : pieces ',' none 0 cs = (cs, []) := hwhole
      rw [hpieces]
      exact .last (IsPiece.trim ⟨hcomment, hwhole⟩)
    · have hpieces := pieces_append_comma hfirst hstate rest
      have hquote : Quote.after none first = none := by
        rw [← stateAfter_fst (none, 0), hstate]
      rw [hpieces]
      refine .cons (IsPiece.trim ⟨fun y hy => ?_, hfirst⟩) (stateAfter_trim hstate) ?_
      · exact (dropComment_append_eq_iff.1 (hcomment y hy)).1
      · have hrest := (dropComment_append_eq_iff.1 h).2
        rw [hquote, dropComment] at hrest
        refine ih rest ?_ (x := ',') (by decide) ?_
        · show rest.length < (first ++ ',' :: rest).length
          rw [List.length_append, List.length_cons]
          omega
        · exact (List.cons.inj hrest).2

/-- Goals as they are shown. -/
def commaJoined (texts : List (List Char)) : List Char := [',', ' '].intercalate texts

theorem commaJoined_cons {text : List Char} {others : List (List Char)} (h : others ≠ []) :
    commaJoined (text :: others) = text ++ ',' :: ' ' :: commaJoined others := by
  cases others with
  | nil => exact absurd rfl h
  | cons next more =>
    rw [commaJoined, List.intercalate_cons_cons, List.append_assoc]
    rfl

theorem commaJoined_singleton (text : List Char) : commaJoined [text] = text :=
  List.intercalate_singleton

theorem ArePieces.ne_nil {texts : List (List Char)} (h : ArePieces texts) : texts ≠ [] := by
  cases h <;> exact List.cons_ne_nil _ _

/-- Pieces that are joined again hold no comment. -/
theorem ArePieces.dropComment_joined {texts : List (List Char)} (h : ArePieces texts)
    (hx : x ≠ '.') :
    dropComment none (some x) (commaJoined texts ++ ['.']) = commaJoined texts ++ ['.'] := by
  induction h generalizing x with
  | last hpiece =>
    rw [commaJoined_singleton, dropComment_append (hpiece.comment x hx), dropComment,
      if_neg (by simp)]
    rfl
  | @cons piece others hpiece hclosed hothers ih =>
    have hquote : Quote.after none piece = none := by
      rw [← stateAfter_fst (none, 0), hclosed]
    rw [commaJoined_cons hothers.ne_nil, List.append_assoc,
      dropComment_append (hpiece.comment x hx), hquote, List.cons_append, List.cons_append,
      dropComment, if_neg (by simp)]
    show piece ++ ',' :: dropComment none (some ',') (' ' :: _) = _
    rw [dropComment_cons (by decide)]
    show piece ++ ',' :: ' ' :: dropComment none (some ',') _ = _
    rw [ih (by decide)]

theorem unsplit_space (h : Unsplit (none, 0) cs) : Unsplit (none, 0) (' ' :: cs) :=
  unsplit_cons.2 ⟨rfl, h⟩

/-- Joining pieces with commas and splitting the text gives the pieces back. -/
theorem ArePieces.pieces_joined {texts : List (List Char)} (h : ArePieces texts) :
    (pieces ',' none 0 (' ' :: commaJoined texts)).1 ::
      (pieces ',' none 0 (' ' :: commaJoined texts)).2 = texts.map (' ' :: ·) := by
  induction h with
  | last hpiece =>
    have hpieces : pieces ',' none 0 (' ' :: _) = (' ' :: _, []) := unsplit_space hpiece.unsplit
    rw [commaJoined_singleton, hpieces]
    rfl
  | @cons piece others hpiece hclosed hothers ih =>
    have hstate : stateAfter (none, 0) (' ' :: piece) = (none, 0) := hclosed
    have hpieces := pieces_append_comma (unsplit_space hpiece.unsplit) hstate
      (' ' :: commaJoined others)
    rw [List.cons_append] at hpieces
    rw [commaJoined_cons hothers.ne_nil, hpieces, ih]
    rfl

/-- The goals of a body are its trimmed pieces, if any of them is not blank. -/
theorem split_eq_map_trim (h : split ',' cs ≠ []) :
    split ',' cs = ((pieces ',' none 0 cs).1 :: (pieces ',' none 0 cs).2).map Text.trim := by
  unfold split at h ⊢
  split at h
  next only hpieces =>
    rw [hpieces]
    dsimp only
    split at h
    · exact absurd rfl h
    next hblank =>
      rw [if_neg hblank]
      rfl
  next first others hothers hpieces =>
    rw [hpieces]

theorem trim_space (cs : List Char) : Text.trim (' ' :: cs) = Text.trim cs := rfl

/-- Goals without blanks around them, joined by commas, are split again. -/
theorem ArePieces.split_joined {texts : List (List Char)} (h : ArePieces texts)
    (htexts : ∀ text ∈ texts, Text.trim text = text ∧ text ≠ []) :
    split ',' (' ' :: commaJoined texts) = texts := by
  have hpieces := h.pieces_joined
  have htrim : (texts.map (' ' :: ·)).map Text.trim = texts := by
    rw [List.map_map]
    refine (List.map_congr_left fun text htext => ?_).trans (List.map_id' texts)
    exact (trim_space text).trans (htexts text htext).1
  have hne : split ',' (' ' :: commaJoined texts) ≠ [] := by
    unfold split
    split
    next only hsplit =>
      rw [hsplit] at hpieces
      have honly : [Text.trim only] = texts := by
        rw [← htrim, ← hpieces]
        rfl
      rw [if_neg, honly]
      · exact h.ne_nil
      · exact (htexts _ (honly ▸ List.mem_singleton.2 rfl)).2
    next => exact List.cons_ne_nil _ _
  rw [split_eq_map_trim hne, hpieces, htrim]

/-! ## Terminators -/

theorem trimEnd_append_blank (h : ∀ c ∈ b, Text.isBlank c = true) (a : List Char) :
    Text.trimEnd (a ++ b) = Text.trimEnd a := by
  have hreverse : ∀ c ∈ b.reverse, Text.isBlank c = true := fun c hc => h c (List.mem_reverse.1 hc)
  rw [Text.trimEnd, List.reverse_append, List.dropWhile_append_of_pos hreverse, Text.trimEnd]

theorem trimEnd_isPrefix (cs : List Char) : Text.trimEnd cs <+: cs := List.rdropWhile_prefix _ _

/-- Blanks inside of a text stay. -/
theorem trimEnd_append (h : Text.trimEnd b = b) (hb : b ≠ []) (a : List Char) :
    Text.trimEnd (a ++ b) = a ++ b := by
  have hlast : ¬ Text.isBlank (b.getLast hb) = true := List.rdropWhile_eq_self_iff.1 h hb
  refine List.rdropWhile_eq_self_iff.2 fun _ => ?_
  rwa [List.getLast_append_of_ne_nil _ hb]

theorem stripTerminator_append_blank (h : ∀ c ∈ b, Text.isBlank c = true) (a : List Char) :
    stripTerminator (a ++ b) = stripTerminator a := by
  unfold stripTerminator
  rw [trimEnd_append_blank h]

/-- The point at the end is dropped with the blanks before it. -/
theorem stripTerminator_concat (cs : List Char) :
    stripTerminator (cs ++ ['.']) = Text.trimEnd cs := by
  unfold stripTerminator
  dsimp only
  rw [Text.trimEnd_concat (by decide), List.getLast?_concat, if_pos rfl, List.dropLast_concat]

theorem stripTerminator_isPrefix (cs : List Char) : stripTerminator cs <+: cs := by
  unfold stripTerminator
  dsimp only
  split
  · exact ((trimEnd_isPrefix _).trans (List.dropLast_prefix _)).trans (trimEnd_isPrefix cs)
  · exact trimEnd_isPrefix cs

theorem trimEnd_stripTerminator (cs : List Char) :
    Text.trimEnd (stripTerminator cs) = stripTerminator cs := by
  unfold stripTerminator
  dsimp only
  split <;> exact trimEnd_trimEnd _

/-! ## Listed bodies -/

theorem trimEnd_commaJoined {texts : List (List Char)} (hne : texts ≠ [])
    (htexts : ∀ text ∈ texts, Text.trim text = text ∧ text ≠ []) :
    Text.trimEnd (commaJoined texts) = commaJoined texts ∧ commaJoined texts ≠ [] := by
  induction texts with
  | nil => exact absurd rfl hne
  | cons text others ih =>
    obtain ⟨⟨htrim, htext⟩, hothers⟩ := List.forall_mem_cons.1 htexts
    by_cases hlast : others = []
    · rw [hlast, commaJoined_singleton]
      refine ⟨?_, htext⟩
      rw [← htrim, Text.trim, trimEnd_trimEnd]
    · obtain ⟨hend, hjoined⟩ := ih hlast hothers
      rw [commaJoined_cons hlast]
      refine ⟨?_, by simp⟩
      have hmore := trimEnd_append hend hjoined (text ++ [',', ' '])
      rwa [List.append_assoc] at hmore

/-- A body as it is listed after the arrow. -/
def shownBody (texts : List String) : List Char :=
  ' ' :: ((", ".intercalate texts).toList ++ ['.'])

theorem shownBody_map_ofList (texts : List (List Char)) :
    shownBody (texts.map String.ofList) = ' ' :: (commaJoined texts ++ ['.']) := by
  have htexts : (texts.map String.ofList).map String.toList = texts := by
    rw [List.map_map]
    refine (List.map_congr_left fun text _ => ?_).trans (List.map_id' texts)
    exact String.toList_ofList
  rw [shownBody, String.toList_intercalate, htexts]
  rfl

/-- The goals of a body without comments are pieces of it. -/
theorem exists_arePieces_of_goalTexts (hcomment : dropComment none (some '-') cs = cs)
    (hne : goalTexts cs ≠ []) (hgoals : ∀ text ∈ goalTexts cs, text ≠ "") :
    ∃ texts, goalTexts cs = texts.map String.ofList ∧ ArePieces texts ∧
      ∀ text ∈ texts, Text.trim text = text ∧ text ≠ [] := by
  have hsplit : split ',' (stripTerminator cs) ≠ [] := by
    intro hnil
    rw [goalTexts, hnil] at hne
    exact hne rfl
  obtain ⟨after, hafter⟩ := stripTerminator_isPrefix cs
  have hpieces : ArePieces (split ',' (stripTerminator cs)) := by
    rw [← hafter] at hcomment
    rw [split_eq_map_trim hsplit]
    exact arePieces_trim (by decide) (dropComment_append_eq_iff.1 hcomment).1
  refine ⟨_, rfl, hpieces, fun text htext => ⟨?_, ?_⟩⟩
  · rw [split_eq_map_trim hsplit] at htext
    obtain ⟨piece, -, rfl⟩ := List.mem_map.1 htext
    exact trim_trim piece
  · rintro rfl
    exact hgoals _ (List.mem_map_of_mem htext) rfl

/-- The goals of a body without comments are found again in their listing. -/
theorem goalTexts_shownBody (hcomment : dropComment none (some '-') cs = cs)
    (hne : goalTexts cs ≠ []) (hgoals : ∀ text ∈ goalTexts cs, text ≠ "") :
    goalTexts (shownBody (goalTexts cs)) = goalTexts cs ∧
      dropComment none (some '-') (shownBody (goalTexts cs)) = shownBody (goalTexts cs) := by
  obtain ⟨texts, htexts, hpieces, htrim⟩ := exists_arePieces_of_goalTexts hcomment hne hgoals
  obtain ⟨hend, hjoined⟩ := trimEnd_commaJoined hpieces.ne_nil htrim
  have hspace : Text.trimEnd (' ' :: commaJoined texts) = ' ' :: commaJoined texts :=
    trimEnd_append hend hjoined [' ']
  rw [htexts, shownBody_map_ofList]
  refine ⟨?_, ?_⟩
  · rw [goalTexts, ← List.cons_append, stripTerminator_concat, hspace, hpieces.split_joined htrim]
  · rw [dropComment_cons (by decide)]
    exact congrArg _ (hpieces.dropComment_joined (by decide))

end StackLogic.Horn.Source
