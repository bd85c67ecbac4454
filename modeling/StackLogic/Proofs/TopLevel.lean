import StackLogic.Proofs.BodyText
import StackLogic.Proofs.Lexing

/-!
# Raw scans and tokens

Two readers look at quotes and brackets. Tokens are read with escapes: after a backslash, a quote is a
character like any other. The raw scans, which separate goals at commas and look for the arrow, know no
escapes: a quoted stretch ends at the next quote of its kind.

Where no token holds its own quote, the two agree (`raw_scans_follow_tokens`): a text is split exactly
at its comma tokens outside of brackets, and the arrow is found exactly outside of strings and quoted
atoms. With an escaped quote they may not (`escaped_quote_ends_stretch`).
-/

namespace StackLogic.Horn

open Source

/-! ## What a lexeme takes of a text -/

namespace Lexeme

variable {c x q : Char} {rest text after source : List Char} {l : Lexeme} {n depth : Nat}

/-- The characters that the raw scan for commas takes notice of. -/
def noticed : List Char := ['\x22', '\x27', '(', ')', '[', ']', ',']

/-- The lexemes that can be written without quotes and marks. -/
def IsWord : Lexeme → Prop
  | variableName _ | atom _ | int _ | float _ | symbol _ => True
  | _ => False

/-- What the raw scans can see of a lexeme: a quoted stretch, a mark, or nothing. -/
inductive Shape : List Char → Lexeme → Prop where
  | quoted {q : Char} {inside : List Char} {l : Lexeme} (hq : isQuote q = true)
      (hl : (∃ s, l = .str s) ∨ (∃ s, l = .atom s) ∧ q = '\x27') :
      Shape (q :: (inside ++ [q])) l
  | mark {c : Char} {l : Lexeme} (hc : punctuation? c = some l) : Shape [c] l
  | plain {c : Char} {rest : List Char} {l : Lexeme} (hsource : ∀ x ∈ c :: rest, x ∉ noticed)
      (hl : l.IsWord) : Shape (c :: rest) l

/-- The scanned lexeme takes a source of this shape from the text. -/
def Scanned.Takes (scanned : Scanned) (cs : List Char) : Prop :=
  ∃ source, cs = source ++ scanned.rest ∧ source.length = scanned.width ∧
    Shape source scanned.lexeme

/-- A property of characters that sets them apart from those that are noticed. -/
theorem not_mem_noticed {p : Char → Bool} (hp : (noticed.all fun y => !p y) = true)
    (hx : p x = true) : x ∉ noticed := by
  intro hmem
  have hy := List.all_eq_true.1 hp x hmem
  rw [hx] at hy
  cases hy

/-- What a lexeme takes of a text has the shape of its kind. -/
theorem Spans.shape (h : Spans source l after) : Shape source l := by
  have hplain {p : Char → Bool} (hp : (noticed.all fun y => !p y) = true) {cs : List Char}
      (hcs : ∀ x ∈ cs, p x = true) : ∀ x ∈ cs, x ∉ noticed := fun x hx =>
    not_mem_noticed hp (hcs x hx)
  cases h with
  | @variableName c rest _ hc hrest _ =>
    have hname : ∀ x ∈ c :: rest, isNameChar x = true :=
      List.forall_mem_cons.2 ⟨(isUpper_cases hc).2.2, hrest⟩
    exact .plain (hplain (by decide) hname) trivial
  | @atom c rest _ hc hrest _ =>
    have hname : ∀ x ∈ c :: rest, isNameChar x = true :=
      List.forall_mem_cons.2 ⟨(isLower_cases hc).2.2.2, hrest⟩
    exact .plain (hplain (by decide) hname) trivial
  | symbol hchars _ => exact .plain (hplain (by decide) hchars) trivial
  | int hdigits _ _ => exact .plain (hplain (by decide) hdigits) trivial
  | @float c d rest places _ hdigits hplaces _ =>
    have hsource : ∀ x ∈ c :: rest ++ '.' :: d :: places, x ∉ noticed := by
      intro x hx
      rcases List.mem_append.1 hx with hx | hx
      · exact hplain (by decide) hdigits x hx
      · rcases List.mem_cons.1 hx with rfl | hx
        · decide
        · exact hplain (by decide) hplaces x hx
    exact .plain hsource trivial
  | str _ => exact .quoted rfl (.inl ⟨_, rfl⟩)
  | quotedAtom _ => exact .quoted rfl (.inr ⟨⟨_, rfl⟩, rfl⟩)
  | punctuation hc => exact .mark hc

/-- A scan takes as many characters as it says. -/
theorem takes_of_scan {scanned : Scanned} (h : scan c rest = .ok scanned) :
    scanned.Takes (c :: rest) := by
  obtain ⟨source, hsource, hwidth, hspan⟩ := exists_spans_of_scan h
  exact ⟨source, hsource, hwidth, hspan.shape⟩

/-! ## Raw scans over a lexeme -/

/-- The text stands in quotes. -/
def Enclosed (source : List Char) : Prop :=
  ∃ q inside, isQuote q = true ∧ source = q :: (inside ++ [q])

theorem not_enclosed (hc : isQuote c = false) (rest : List Char) : ¬ Enclosed (c :: rest) := by
  rintro ⟨q, inside, hq, heq⟩
  have hcq : c = q := (List.cons.inj heq).1
  rw [← hcq, hc] at hq
  cases hq

/-- Whether the text starts with a quote that it holds again before its last character. -/
def holdsQuote : List Char → Bool
  | [] => false
  | q :: rest => isQuote q && rest.dropLast.contains q

theorem not_mem_of_holdsQuote (hq : isQuote q = true) (h : holdsQuote (q :: (text ++ [q])) = false) :
    q ∉ text := by
  rw [holdsQuote, hq, Bool.true_and, List.dropLast_concat] at h
  simpa using h

theorem isQuote_of_not_noticed (hx : x ∉ noticed) : isQuote x = false := by
  by_contra hquote
  rw [Bool.not_eq_false, isQuote, Bool.or_eq_true, beq_iff_eq, beq_iff_eq] at hquote
  rcases hquote with rfl | rfl
  · exact hx (by decide)
  · exact hx (by decide)

theorem isQuote_of_punctuation? (hc : punctuation? c = some l) : isQuote c = false := by
  obtain ⟨hquote, hsingle, -⟩ := punctuation?_cases hc
  simp [isQuote, hquote, hsingle]

/-- From this depth on, no comma divides the text, and it leads to the other depth with all quotes
closed. -/
structure Crosses (source : List Char) (depth depth' : Nat) : Prop where
  unsplit : Unsplit (none, depth) source
  state : stateAfter (none, depth) source = (none, depth')

/-- The raw scan goes over text without quotes, brackets and commas. -/
theorem crosses_plain (h : ∀ x ∈ source, x ∉ noticed) (depth : Nat) :
    Crosses source depth depth := by
  induction source with
  | nil => exact ⟨rfl, rfl⟩
  | cons c rest ih =>
    obtain ⟨hc, hrest⟩ := List.forall_mem_cons.1 h
    have hbracket : ¬ (c = '(' ∨ c = '[') ∧ ¬ (c = ')' ∨ c = ']') ∧ c ≠ ',' := by
      refine ⟨?_, ?_, ?_⟩
      · rintro (rfl | rfl) <;> exact hc (by decide)
      · rintro (rfl | rfl) <;> exact hc (by decide)
      · rintro rfl
        exact hc (by decide)
    have hseparates : separates ',' none depth c = false := by
      simp [separates, hbracket.2.2]
    have hadvance : advance (none, depth) c = (none, depth) := by
      simp [advance, Quote.next, isQuote_of_not_noticed hc, nest, hbracket]
    obtain ⟨hunsplit, hstate⟩ := ih hrest
    refine ⟨unsplit_cons.2 ⟨hseparates, ?_⟩, ?_⟩
    · rwa [hadvance]
    · show stateAfter (advance (none, depth) c) rest = (none, depth)
      rw [hadvance, hstate]

theorem unsplit_inside (h : q ∉ text) (depth : Nat) :
    Unsplit (some q, depth) text ∧ stateAfter (some q, depth) text = (some q, depth) := by
  induction text with
  | nil => exact ⟨rfl, rfl⟩
  | cons c rest ih =>
    rw [List.mem_cons, not_or] at h
    have hadvance : advance (some q, depth) c = (some q, depth) := by
      simp [advance, Quote.next, Ne.symm h.1]
    obtain ⟨hunsplit, hstate⟩ := ih h.2
    refine ⟨unsplit_cons.2 ⟨rfl, ?_⟩, ?_⟩
    · rwa [hadvance]
    · show stateAfter (advance (some q, depth) c) rest = (some q, depth)
      rw [hadvance, hstate]

/-- The raw scan goes over a text in quotes, if this holds no quote. -/
theorem crosses_enclosed (hq : isQuote q = true) (h : q ∉ text) (depth : Nat) :
    Crosses (q :: (text ++ [q])) depth depth := by
  obtain ⟨hunsplit, hstate⟩ := unsplit_inside h depth
  have hseparates : separates ',' none depth q = false := by simp [separates, hq]
  have hopen : advance (none, depth) q = (some q, depth) := by
    have hbracket : ¬ (q = '(' ∨ q = '[') ∧ ¬ (q = ')' ∨ q = ']') := by
      refine ⟨?_, ?_⟩
      · rintro (rfl | rfl) <;> exact absurd hq (by decide)
      · rintro (rfl | rfl) <;> exact absurd hq (by decide)
    simp [advance, Quote.next, hq, nest, hbracket]
  have hclose : Unsplit (some q, depth) [q] ∧ stateAfter (some q, depth) [q] = (none, depth) := by
    refine ⟨unsplit_cons.2 ⟨rfl, rfl⟩, ?_⟩
    simp [stateAfter, advance, Quote.next]
  refine ⟨unsplit_cons.2 ⟨hseparates, ?_⟩, ?_⟩
  · rw [hopen, unsplit_append, hstate]
    exact ⟨hunsplit, hclose.1⟩
  · show stateAfter (advance (none, depth) q) (text ++ [q]) = (none, depth)
    rw [hopen, stateAfter_append, hstate, hclose.2]

/-- The raw scan counts brackets, and stops at a comma outside of them only. -/
theorem crosses_mark (hc : punctuation? c = some l) (hcomma : l = .comma → depth ≠ 0) :
    Crosses [c] depth (Grammar.nest depth l) := by
  unfold punctuation? at hc
  split at hc
  all_goals cases hc
  case h_5 =>
    have hdepth : depth ≠ 0 := hcomma rfl
    refine ⟨unsplit_cons.2 ⟨?_, rfl⟩, rfl⟩
    simp [separates, hdepth]
  all_goals exact ⟨unsplit_cons.2 ⟨by simp [separates], rfl⟩, rfl⟩

theorem nest_of_isWord (h : l.IsWord) (depth : Nat) : Grammar.nest depth l = depth := by
  cases l with
  | variableName | atom | int | float | symbol => rfl
  | _ => exact h.elim

theorem Shape.ne_nil (h : Shape source l) : source ≠ [] := by
  cases h <;> exact List.cons_ne_nil _ _

theorem Shape.eq_comma (h : Shape source l) (hl : l = .comma) : source = [','] := by
  subst hl
  cases h with
  | quoted _ hl => rcases hl with ⟨s, hs⟩ | ⟨⟨s, hs⟩, -⟩ <;> cases hs
  | mark hc =>
    unfold punctuation? at hc
    split at hc
    case h_5 => rfl
    all_goals cases hc
  | plain _ hl => exact hl.elim

/-- A lexeme is in quotes if it is a string or a quoted atom. -/
theorem Shape.enclosed_iff (h : Shape source l) :
    Enclosed source ↔
      (∃ s, l = .str s) ∨ (∃ s, l = .atom s) ∧ source.head? = some '\x27' := by
  cases h with
  | @quoted q inside l hq hl =>
    refine iff_of_true ⟨q, inside, hq, rfl⟩ ?_
    rcases hl with hstr | ⟨hatom, rfl⟩
    · exact .inl hstr
    · exact .inr ⟨hatom, rfl⟩
  | mark hc =>
    have hmark := isMark_of_punctuation? hc
    refine iff_of_false (not_enclosed (isQuote_of_punctuation? hc) _) ?_
    rintro (⟨s, rfl⟩ | ⟨⟨s, rfl⟩, -⟩)
    · exact hmark
    · exact hmark
  | plain hsource hl =>
    have hc := hsource _ List.mem_cons_self
    refine iff_of_false (not_enclosed (isQuote_of_not_noticed hc) _) ?_
    rintro (⟨s, rfl⟩ | ⟨-, hhead⟩)
    · exact hl
    · cases hhead
      exact hc (by decide)

/-- Unless it is a comma outside of brackets, a lexeme does not divide a text. -/
theorem Shape.crosses (h : Shape source l) (hquote : holdsQuote source = false)
    (hcomma : l = .comma → depth ≠ 0) : Crosses source depth (Grammar.nest depth l) := by
  cases h with
  | @quoted q inside l hq hl =>
    have hinside : q ∉ inside := not_mem_of_holdsQuote hq hquote
    have hnest : Grammar.nest depth l = depth := by
      rcases hl with ⟨s, rfl⟩ | ⟨⟨s, rfl⟩, -⟩ <;> rfl
    rw [hnest]
    exact crosses_enclosed hq hinside depth
  | mark hc => exact crosses_mark hc hcomma
  | plain hsource hl =>
    rw [nest_of_isWord hl]
    exact crosses_plain hsource depth

/-- Inside of a lexeme, a quote is open exactly if the lexeme stands in quotes. -/
theorem Shape.after_take (h : Shape source l) (hquote : holdsQuote source = false) (i : Nat) :
    Quote.after none (source.take i) = none ↔ ¬ (Enclosed source ∧ 0 < i ∧ i < source.length) := by
  have hbare : ∀ c rest, (∀ x ∈ c :: rest, isQuote x = false) →
      (Quote.after none ((c :: rest).take i) = none ↔
        ¬ (Enclosed (c :: rest) ∧ 0 < i ∧ i < (c :: rest).length)) := by
    intro c rest hcs
    have hafter : Quote.after none ((c :: rest).take i) = none :=
      Quote.after_eq_none fun x hx => hcs x (List.mem_of_mem_take hx)
    exact iff_of_true hafter fun hin => not_enclosed (hcs c List.mem_cons_self) rest hin.1
  cases h with
  | mark hc => exact hbare _ _ (List.forall_mem_singleton.2 (isQuote_of_punctuation? hc))
  | plain hsource => exact hbare _ _ fun x hx => isQuote_of_not_noticed (hsource x hx)
  | @quoted q inside l hq hl =>
    have hinside : q ∉ inside := not_mem_of_holdsQuote hq hquote
    have hopen : Quote.next none q = some q := by simp [Quote.next, hq]
    cases i with
    | zero => simp [Quote.after]
    | succ j =>
      have hafter : Quote.after none ((q :: (inside ++ [q])).take (j + 1)) =
          Quote.after (some q) ((inside ++ [q]).take j) := congrArg (Quote.after · _) hopen
      rw [hafter]
      by_cases hj : j ≤ inside.length
      · have hstill : Quote.after (some q) ((inside ++ [q]).take j) = some q := by
          rw [List.take_append_of_le_length hj]
          exact after_of_quoted fun hmem => hinside (List.mem_of_mem_take hmem)
        rw [hstill]
        have hne : (some q : Quote) ≠ none := Option.some_ne_none q
        refine iff_of_false hne (not_not.2 ⟨⟨q, inside, hq, rfl⟩, Nat.succ_pos _, ?_⟩)
        simp only [List.length_cons, List.length_append, List.length_nil]
        omega
      · have hclosed : Quote.after (some q) ((inside ++ [q]).take j) = none := by
          rw [List.take_of_length_le (by simp; omega), Quote.after_append, after_of_quoted hinside]
          simp [Quote.after, Quote.next]
        refine iff_of_true hclosed ?_
        rintro ⟨-, -, hlt⟩
        simp only [List.length_cons, List.length_append, List.length_nil] at hlt
        omega

end Lexeme

/-! ## Tokens in their text -/

open Lexeme

namespace Token

/-- The characters that a token takes in a text. -/
def source (t : Token) (text : List Char) : List Char :=
  match text.drop t.position with
  | [] => []
  | c :: rest =>
    match Lexeme.scan c rest with
    | .ok scanned => (c :: rest).take scanned.width
    | .error _ => []

/-- Whether the token is a string or an atom in quotes. -/
def isQuoted (t : Token) (text : List Char) : Bool :=
  match t.lexeme with
  | .str _ => true
  | .atom _ => text[t.position]? == some '\x27'
  | _ => false

end Token

variable {text : List Char} {p i depth : Nat} {ts : List Token} {t : Token}

/-- From this position on, the text consists of these tokens and of blanks. -/
inductive ReadFrom (text : List Char) : Nat → List Token → Prop where
  | done {p : Nat} (hp : text.drop p = []) : ReadFrom text p []
  | blank {p : Nat} {c : Char} {rest : List Char} {ts : List Token} (hp : text.drop p = c :: rest)
      (hc : Text.isBlank c = true) (h : ReadFrom text (p + 1) ts) : ReadFrom text p ts
  | token {p : Nat} {c : Char} {rest : List Char} {scanned : Scanned} {ts : List Token}
      (hp : text.drop p = c :: rest) (hblank : Text.isBlank c = false)
      (hscan : Lexeme.scan c rest = .ok scanned) (h : ReadFrom text (p + scanned.width) ts) :
      ReadFrom text p (⟨scanned.lexeme, p⟩ :: ts)

theorem drop_succ {c : Char} {rest : List Char} (hp : text.drop p = c :: rest) :
    text.drop (p + 1) = rest := by
  rw [← List.drop_drop, hp, List.drop_one, List.tail_cons]

/-- Behind a lexeme the text goes on where the scan stopped. -/
theorem drop_of_scan {c : Char} {rest : List Char} {scanned : Scanned}
    (hp : text.drop p = c :: rest) (hscan : Lexeme.scan c rest = .ok scanned) :
    text.drop (p + scanned.width) = scanned.rest := by
  obtain ⟨source, hsource, hwidth, -⟩ := takes_of_scan hscan
  rw [← List.drop_drop, hp, hsource, ← hwidth, List.drop_left]

/-- Without `%` there are no comments, and nothing but tokens and blanks. -/
theorem readFrom_of_scanFrom {boundary : Bool} {cs : List Char} {tokens : Tokens}
    (h : Tokens.scanFrom boundary p cs = .ok tokens) (hp : text.drop p = cs) (hpercent : '%' ∉ cs) :
    ReadFrom text p tokens.items := by
  fun_induction Tokens.scanFrom boundary p cs generalizing tokens with
  | case1 =>
    cases h
    exact .done hp
  | case2 _ p c rest hblank ih =>
    rw [List.mem_cons, not_or] at hpercent
    have hrest : text.drop (p + 1) = rest := drop_succ hp
    exact .blank hp hblank (ih h hrest hpercent.2)
  | case3 boundary p c rest hblank hcomment ih =>
    exact absurd (hcomment.1 ▸ List.mem_cons_self) hpercent
  | case4 => cases h
  | case5 boundary p c rest hblank hcomment scanned hscan token =>
    rename_i ih
    obtain ⟨after, hafter, rfl⟩ := Grammar.exists_of_map_eq_ok h
    obtain ⟨source, hsource, -⟩ := takes_of_scan hscan
    have hrest : '%' ∉ scanned.rest := by
      intro hmem
      refine hpercent ?_
      rw [hsource]
      exact List.mem_append_right source hmem
    exact .token hp (Bool.eq_false_of_not_eq_true hblank) hscan
      (ih hafter (drop_of_scan hp hscan) hrest)

theorem source_of_scan {c : Char} {rest : List Char} {scanned : Scanned}
    (hp : text.drop p = c :: rest) (hscan : Lexeme.scan c rest = .ok scanned) :
    Token.source ⟨scanned.lexeme, p⟩ text ++ text.drop (p + scanned.width) = text.drop p ∧
      (Token.source ⟨scanned.lexeme, p⟩ text).length = scanned.width ∧
      Shape (Token.source ⟨scanned.lexeme, p⟩ text) scanned.lexeme := by
  obtain ⟨source, hsource, hwidth, hshape⟩ := takes_of_scan hscan
  have heq : Token.source ⟨scanned.lexeme, p⟩ text = source := by
    simp only [Token.source, hp, hscan]
    rw [hsource, ← hwidth, List.take_left]
  rw [heq, drop_of_scan hp hscan, hp]
  exact ⟨hsource.symm, hwidth, hshape⟩

/-- Tokens stand behind the place where reading starts. -/
theorem ReadFrom.le_position (h : ReadFrom text p ts) : ∀ t ∈ ts, p ≤ t.position := by
  induction h with
  | done => exact List.forall_mem_nil _
  | blank _ _ _ ih =>
    intro t ht
    have hle := ih t ht
    omega
  | token _ _ _ _ ih =>
    refine List.forall_mem_cons.2 ⟨Nat.le_refl _, fun t ht => ?_⟩
    have hle := ih t ht
    omega

/-! ## Commas -/

/-- The positions of the commas outside of brackets. -/
def topCommas (depth : Nat) : List Token → List Nat
  | [] => []
  | t :: rest =>
    if t.lexeme = .comma ∧ depth = 0 then t.position :: topCommas depth rest
    else topCommas (Grammar.nest depth t.lexeme) rest

/-- What lies between these positions of a text, from `start` on. -/
def cutAt (text : List Char) (start : Nat) : List Nat → List (List Char)
  | [] => [text.drop start]
  | i :: more => (text.drop start).take (i - start) :: cutAt text (i + 1) more

theorem mem_topCommas {depth : Nat} (h : i ∈ topCommas depth ts) : ∃ t ∈ ts, i = t.position := by
  induction ts generalizing depth with
  | nil => cases h
  | cons t rest ih =>
    rw [topCommas] at h
    split at h
    · rcases List.mem_cons.1 h with rfl | h
      · exact ⟨t, List.mem_cons_self, rfl⟩
      · obtain ⟨t', ht', hi⟩ := ih h
        exact ⟨t', List.mem_cons_of_mem t ht', hi⟩
    · obtain ⟨t', ht', hi⟩ := ih h
      exact ⟨t', List.mem_cons_of_mem t ht', hi⟩

/-- The pieces of a text from this state on. -/
def piecesFrom (s : Quote × Nat) (cs : List Char) : List (List Char) :=
  (pieces ',' s.1 s.2 cs).1 :: (pieces ',' s.1 s.2 cs).2

/-- Text without a comma goes to the first piece. -/
theorem piecesFrom_append {s : Quote × Nat} {a : List Char} (h : Unsplit s a) (b : List Char) :
    piecesFrom s (a ++ b) = (piecesFrom (stateAfter s a) b).modifyHead (a ++ ·) := by
  induction a generalizing s with
  | nil => rfl
  | cons c rest ih =>
    obtain ⟨hc, hrest⟩ := unsplit_cons.1 h
    have hih := ih hrest
    simp only [piecesFrom, List.modifyHead_cons, List.cons.injEq] at hih ⊢
    rw [List.cons_append, pieces_cons_of_not_separates hc, hih.1, hih.2]
    exact ⟨rfl, rfl⟩

theorem cutAt_add {w : Nat} {positions : List Nat} (h : ∀ i ∈ positions, p + w ≤ i) :
    cutAt text p positions =
      (cutAt text (p + w) positions).modifyHead ((text.drop p).take w ++ ·) := by
  have hdrop : text.drop (p + w) = (text.drop p).drop w := List.drop_drop.symm
  cases positions with
  | nil =>
    rw [cutAt, cutAt, List.modifyHead_cons, hdrop, List.take_append_drop]
  | cons i more =>
    have hi : p + w ≤ i := h i List.mem_cons_self
    have htake : (text.drop p).take (i - p) =
        (text.drop p).take w ++ ((text.drop p).drop w).take (i - (p + w)) := by
      rw [← List.take_add]
      congr 1
      omega
    rw [cutAt, cutAt, List.modifyHead_cons, hdrop, htake]

/-- The raw scan cuts a text at its comma tokens outside of brackets. -/
theorem ReadFrom.piecesFrom_eq (h : ReadFrom text p ts)
    (hquotes : ∀ t ∈ ts, holdsQuote (t.source text) = false) (depth : Nat) :
    piecesFrom (none, depth) (text.drop p) = cutAt text p (topCommas depth ts) := by
  induction h generalizing depth with
  | done hp =>
    rw [hp, topCommas, cutAt, hp]
    rfl
  | @blank p c rest ts hp hc h ih =>
    have hrest : text.drop (p + 1) = rest := drop_succ hp
    have hblank : ∀ x ∈ [c], x ∉ noticed :=
      List.forall_mem_singleton.2 (not_mem_noticed (by decide) hc)
    obtain ⟨hunsplit, hstate⟩ := crosses_plain hblank depth
    have hle : ∀ i ∈ topCommas depth ts, p + 1 ≤ i := by
      intro i hi
      obtain ⟨t, ht, rfl⟩ := mem_topCommas hi
      exact h.le_position t ht
    have htake : (text.drop p).take 1 = [c] := by rw [hp, List.take_succ_cons, List.take_zero]
    rw [cutAt_add hle, htake, ← ih hquotes depth, hrest, hp]
    exact (piecesFrom_append hunsplit rest).trans (by rw [hstate])
  | @token p c rest scanned ts hp hblank hscan h ih =>
    obtain ⟨hquote, hothers⟩ := List.forall_mem_cons.1 hquotes
    obtain ⟨hsource, hwidth, hshape⟩ := source_of_scan hp hscan
    by_cases hcut : scanned.lexeme = .comma ∧ depth = 0
    · obtain ⟨hcomma, rfl⟩ := hcut
      rw [hshape.eq_comma hcomma] at hsource hwidth
      have hone : scanned.width = 1 := hwidth.symm
      rw [hone] at hsource ih
      have hseparates : separates ',' none 0 ',' = true := rfl
      rw [topCommas, if_pos ⟨hcomma, rfl⟩, cutAt, Nat.sub_self, List.take_zero, ← hsource]
      show piecesFrom (none, 0) (',' :: text.drop (p + 1)) = [] :: cutAt text (p + 1) _
      rw [← ih hothers 0, piecesFrom, pieces_cons_of_separates hseparates]
      rfl
    · have hcomma : scanned.lexeme = .comma → depth ≠ 0 := fun hl hd => hcut ⟨hl, hd⟩
      obtain ⟨hunsplit, hstate⟩ := hshape.crosses hquote hcomma
      have hle : ∀ i ∈ topCommas (Grammar.nest depth scanned.lexeme) ts, p + scanned.width ≤ i := by
        intro i hi
        obtain ⟨t, ht, rfl⟩ := mem_topCommas hi
        exact h.le_position t ht
      have htake : (text.drop p).take scanned.width = Token.source ⟨scanned.lexeme, p⟩ text := by
        rw [← hsource, ← hwidth, List.take_left]
      rw [topCommas, if_neg hcut, cutAt_add hle, htake, ← ih hothers, ← hsource,
        piecesFrom_append hunsplit, hstate]

/-- There are no tokens exactly in blank text. -/
theorem ReadFrom.eq_nil_iff (h : ReadFrom text p ts) :
    ts = [] ↔ ∀ c ∈ text.drop p, Text.isBlank c = true := by
  induction h with
  | done hp =>
    rw [hp]
    exact iff_of_true rfl (List.forall_mem_nil _)
  | @blank p c rest ts hp hc h ih =>
    have hrest : text.drop (p + 1) = rest := drop_succ hp
    rw [ih, hp, hrest, List.forall_mem_cons]
    exact ⟨fun hall => ⟨hc, hall⟩, fun hall => hall.2⟩
  | token hp hblank _ _ _ =>
    refine iff_of_false nofun fun hall => ?_
    rw [hp, List.forall_mem_cons, hblank] at hall
    cases hall.1

theorem trim_eq_nil_iff (cs : List Char) :
    Text.trim cs = [] ↔ ∀ c ∈ cs, Text.isBlank c = true := by
  obtain ⟨before, after, hcs, hbefore, hafter⟩ := exists_trim cs
  refine ⟨fun h c hc => ?_, fun h => ?_⟩
  · rw [hcs, h, List.nil_append, List.mem_append] at hc
    rcases hc with hc | hc
    · exact hbefore c hc
    · exact hafter c hc
  · rw [Text.trim, List.dropWhile_eq_nil_iff.2 h]
    rfl

theorem split_eq_nil_iff (cs : List Char) :
    split ',' cs = [] ↔ ∀ c ∈ cs, Text.isBlank c = true := by
  rcases pieces_cases (none, 0) cs with hwhole | ⟨first, rest, rfl, hfirst, hstate⟩
  · have hpieces : pieces ',' none 0 cs = (cs, []) := hwhole
    rw [← trim_eq_nil_iff, split, hpieces]
    dsimp only
    split
    next htrim => exact iff_of_true rfl htrim
    next htrim => exact iff_of_false (List.cons_ne_nil _ _) htrim
  · have hpieces : pieces ',' none 0 (first ++ ',' :: rest) = _ :=
      pieces_append_comma hfirst hstate rest
    rw [split, hpieces]
    refine iff_of_false (List.cons_ne_nil _ _) fun hall => ?_
    have hcomma := hall ',' (List.mem_append_right first List.mem_cons_self)
    exact absurd hcomma (by decide)

/-- A text is split exactly at its comma tokens outside of brackets. A blank text has no pieces. -/
theorem ReadFrom.split_eq (h : ReadFrom text 0 ts)
    (hquotes : ∀ t ∈ ts, holdsQuote (t.source text) = false) :
    split ',' text =
      if ts = [] then [] else (cutAt text 0 (topCommas 0 ts)).map Text.trim := by
  have hempty : split ',' text = [] ↔ ts = [] := by
    rw [split_eq_nil_iff, h.eq_nil_iff, List.drop_zero]
  split
  next hnil => exact hempty.2 hnil
  next hne =>
    rw [split_eq_map_trim (mt hempty.1 hne), ← h.piecesFrom_eq hquotes 0]
    rfl

/-! ## The arrow -/

/-- The arrow is found at its first place outside of quotes. -/
theorem splitAt?_arrow_eq_some_iff {q : Quote} {cs before found : List Char} :
    splitAt? arrow q cs = some (before, found) ↔
      ∃ i, before = cs.take i ∧ found = cs.drop i ∧ arrow <+: cs.drop i ∧
        q.after (cs.take i) = none ∧
        ∀ j < i, arrow <+: cs.drop j → q.after (cs.take j) ≠ none := by
  induction cs generalizing q before with
  | nil => simp [splitAt?, arrow]
  | cons c rest ih =>
    have hstarts : startsHere arrow q c rest = true ↔ arrow <+: c :: rest ∧ q = none := by
      unfold startsHere
      rw [Bool.and_eq_true, Bool.and_eq_true, Option.isNone_iff_eq_none,
        List.isPrefixOf_iff_prefix]
      refine ⟨fun h => ⟨h.2, h.1.1⟩, fun h => ⟨⟨h.2, ?_⟩, h.1⟩⟩
      obtain ⟨more, hmore⟩ := h.1
      have hc : ':' = c := (List.cons.inj hmore).1
      rw [← hc]
      rfl
    rw [splitAt?, ← startsHere]
    by_cases hstart : startsHere arrow q c rest = true
    · obtain ⟨hbegins, rfl⟩ := hstarts.1 hstart
      rw [if_pos hstart, Option.some.injEq, Prod.mk.injEq]
      constructor
      · rintro ⟨rfl, rfl⟩
        exact ⟨0, rfl, rfl, hbegins, rfl, fun j hj => absurd hj (Nat.not_lt_zero j)⟩
      · rintro ⟨i, hbefore, hfound, -, -, hfirst⟩
        cases i with
        | zero => exact ⟨hbefore.symm, hfound.symm⟩
        | succ i => exact absurd rfl (hfirst 0 (Nat.succ_pos i) hbegins)
    · rw [if_neg hstart, Option.map_eq_some_iff]
      constructor
      · rintro ⟨⟨before', found'⟩, hrest, heq⟩
        cases heq
        obtain ⟨i, rfl, rfl, hbegins, hafter, hfirst⟩ := ih.1 hrest
        refine ⟨i + 1, rfl, rfl, hbegins, hafter, fun j hj hj' => ?_⟩
        cases j with
        | zero => exact fun hq => hstart (hstarts.2 ⟨hj', hq⟩)
        | succ j => exact hfirst j (Nat.lt_of_succ_lt_succ hj) hj'
      · rintro ⟨i, rfl, rfl, hbegins, hafter, hfirst⟩
        cases i with
        | zero => exact absurd (hstarts.2 ⟨hbegins, hafter⟩) hstart
        | succ i =>
          refine ⟨(rest.take i, rest.drop i), ih.2 ⟨i, rfl, rfl, hbegins, hafter, ?_⟩, rfl⟩
          exact fun j hj hj' => hfirst (j + 1) (Nat.succ_lt_succ hj) hj'

/-- Each token stands in the text with the shape of its lexeme. -/
theorem ReadFrom.shape (h : ReadFrom text p ts) :
    ∀ t ∈ ts, Shape (t.source text) t.lexeme ∧ t.source text <+: text.drop t.position := by
  induction h with
  | done => exact List.forall_mem_nil _
  | blank _ _ _ ih => exact ih
  | token hp _ hscan _ ih =>
    obtain ⟨hsource, -, hshape⟩ := source_of_scan hp hscan
    exact List.forall_mem_cons.2 ⟨⟨hshape, ⟨_, hsource⟩⟩, ih⟩

/-- A token is quoted if its source is in quotes. -/
theorem isQuoted_iff_enclosed (hshape : Shape (t.source text) t.lexeme)
    (hbegins : t.source text <+: text.drop t.position) :
    t.isQuoted text = true ↔ Enclosed (t.source text) := by
  have hhead : text[t.position]? = (t.source text).head? := by
    obtain ⟨more, hmore⟩ := hbegins
    rw [← List.head?_drop, ← hmore, List.head?_append_of_ne_nil _ hshape.ne_nil]
  rw [hshape.enclosed_iff, Token.isQuoted, hhead]
  split
  next s hs => simp [hs]
  next s hs => simp [hs]
  next hstr hatom =>
    refine iff_of_false nofun ?_
    rintro (⟨s, hs⟩ | ⟨⟨s, hs⟩, -⟩)
    · exact hstr s hs
    · exact hatom s hs

/-- A quote is open exactly inside of the tokens that stand in quotes. -/
theorem ReadFrom.after_take (h : ReadFrom text p ts)
    (hquotes : ∀ t ∈ ts, holdsQuote (t.source text) = false) (i : Nat) :
    Quote.after none ((text.drop p).take i) = none ↔
      ∀ t ∈ ts, Enclosed (t.source text) →
        ¬ (t.position < p + i ∧ p + i < t.position + (t.source text).length) := by
  induction h generalizing i with
  | done hp =>
    rw [hp, List.take_nil]
    exact iff_of_true rfl (List.forall_mem_nil _)
  | @blank p c rest ts hp hc h ih =>
    have hrest : text.drop (p + 1) = rest := drop_succ hp
    cases i with
    | zero =>
      refine iff_of_true rfl fun t ht _ hin => ?_
      have hle := h.le_position t ht
      omega
    | succ j =>
      have hnext : Quote.next none c = none := Quote.next_none (isQuote_of_isBlank hc)
      have hafter : Quote.after none ((text.drop p).take (j + 1)) =
          Quote.after none ((text.drop (p + 1)).take j) := by
        rw [hp, hrest]
        exact congrArg (Quote.after · _) hnext
      have hplace : p + (j + 1) = p + 1 + j := by omega
      rw [hafter, ih hquotes, hplace]
  | @token p c rest scanned ts hp hblank hscan h ih =>
    obtain ⟨hquote, hothers⟩ := List.forall_mem_cons.1 hquotes
    obtain ⟨hsource, hwidth, hshape⟩ := source_of_scan hp hscan
    have hinside := hshape.after_take hquote
    rw [List.forall_mem_cons]
    by_cases hi : i ≤ scanned.width
    · have htake : (text.drop p).take i = (Token.source ⟨scanned.lexeme, p⟩ text).take i := by
        rw [← hsource, List.take_append_of_le_length (by omega)]
      have hlater : ∀ t ∈ ts, Enclosed (t.source text) →
          ¬ (t.position < p + i ∧ p + i < t.position + (t.source text).length) := by
        intro t ht _ hin
        have hle := h.le_position t ht
        omega
      rw [htake, hinside]
      refine ⟨fun hout => ⟨fun henclosed hin => hout ⟨henclosed, ?_⟩, hlater⟩, fun hall hin => ?_⟩
      · dsimp only at hin
        omega
      · refine hall.1 hin.1 ?_
        dsimp only
        omega
    · have htake : (text.drop p).take i = Token.source ⟨scanned.lexeme, p⟩ text ++
          (text.drop (p + scanned.width)).take (i - scanned.width) := by
        rw [← hsource, List.take_append, List.take_of_length_le (by omega), hwidth]
      have hclosed : Quote.after none (Token.source ⟨scanned.lexeme, p⟩ text) = none := by
        have hend := (hinside scanned.width).2 (by omega)
        rwa [← hwidth, List.take_length] at hend
      have hplace : p + scanned.width + (i - scanned.width) = p + i := by omega
      rw [htake, Quote.after_append, hclosed, ih hothers, hplace]
      refine ⟨fun hall => ⟨fun _ hin => ?_, hall⟩, fun hall => hall.2⟩
      dsimp only at hin
      omega

/-- The place lies inside of a string or of an atom in quotes. -/
def InQuotes (text : List Char) (ts : List Token) (i : Nat) : Prop :=
  ∃ t ∈ ts, t.isQuoted text = true ∧ t.position ≤ i ∧ i < t.position + (t.source text).length

instance (text : List Char) (ts : List Token) (i : Nat) : Decidable (InQuotes text ts i) :=
  inferInstanceAs (Decidable (∃ t ∈ ts, _))

/-- The raw scan is outside of quotes exactly where no quoted token is. -/
theorem ReadFrom.after_take_iff_not_inQuotes (h : ReadFrom text 0 ts)
    (hquotes : ∀ t ∈ ts, holdsQuote (t.source text) = false) (harrow : arrow <+: text.drop i) :
    Quote.after none (text.take i) = none ↔ ¬ InQuotes text ts i := by
  have hafter := h.after_take hquotes i
  rw [List.drop_zero, Nat.zero_add] at hafter
  rw [hafter]
  constructor
  · rintro hout ⟨t, ht, hquoted, hle, hlt⟩
    obtain ⟨hshape, hbegins⟩ := h.shape t ht
    have henclosed := (isQuoted_iff_enclosed hshape hbegins).1 hquoted
    refine hout t ht henclosed ⟨Nat.lt_of_le_of_ne hle ?_, hlt⟩
    -- a token in quotes starts with its quote, and the arrow does not
    rintro rfl
    obtain ⟨q, inside, hq, hsource⟩ := henclosed
    obtain ⟨more, hmore⟩ := harrow
    obtain ⟨others, hothers⟩ := hbegins
    rw [← hmore, hsource] at hothers
    have hcolon : q = ':' := (List.cons.inj hothers).1
    rw [hcolon] at hq
    cases hq
  · intro hout t ht henclosed hin
    obtain ⟨hshape, hbegins⟩ := h.shape t ht
    have hquoted := (isQuoted_iff_enclosed hshape hbegins).2 henclosed
    exact hout ⟨t, ht, hquoted, Nat.le_of_lt hin.1, hin.2⟩

/-- The arrow is found exactly at its first place outside of strings and quoted atoms. -/
theorem ReadFrom.find?_arrow_iff (h : ReadFrom text 0 ts)
    (hquotes : ∀ t ∈ ts, holdsQuote (t.source text) = false) (n : Nat) :
    find? arrow text = some n ↔
      ∃ i, arrow <+: text.drop i ∧ ¬ InQuotes text ts i ∧
        (∀ j < i, arrow <+: text.drop j → InQuotes text ts j) ∧
        n = (String.ofList (text.take i)).utf8ByteSize := by
  have hquote : ∀ {i}, arrow <+: text.drop i →
      (Quote.after none (text.take i) = none ↔ ¬ InQuotes text ts i) :=
    fun harrow => h.after_take_iff_not_inQuotes hquotes harrow
  rw [find?, Option.map_eq_some_iff]
  constructor
  · rintro ⟨⟨before, found⟩, hsplit, hsize⟩
    obtain ⟨i, rfl, rfl, harrow, hnone, hfirst⟩ := splitAt?_arrow_eq_some_iff.1 hsplit
    refine ⟨i, harrow, (hquote harrow).1 hnone, fun j hj hj' => ?_, hsize.symm⟩
    exact not_not.1 (mt (hquote hj').2 (hfirst j hj hj'))
  · rintro ⟨i, harrow, hout, hfirst, rfl⟩
    refine ⟨(text.take i, text.drop i), splitAt?_arrow_eq_some_iff.2 ⟨i, rfl, rfl, harrow,
      (hquote harrow).2 hout, fun j hj hj' => ?_⟩, rfl⟩
    exact mt (hquote hj').1 (not_not.2 (hfirst j hj hj'))

/-- Where no token holds its own quote, the raw scans and the tokens agree: a text is split exactly
at its comma tokens outside of brackets, and the arrow is found exactly at its first place outside of
strings and quoted atoms. -/
theorem raw_scans_follow_tokens {s : String} {tokens : Tokens}
    (hread : Tokens.ofString s = .ok tokens) (hpercent : '%' ∉ s.toList)
    (hquotes : ∀ t ∈ tokens.items, holdsQuote (t.source s.toList) = false) :
    split ',' s.toList =
        (if tokens.items = [] then []
          else (cutAt s.toList 0 (topCommas 0 tokens.items)).map Text.trim) ∧
      ∀ n, find? arrow s.toList = some n ↔
        ∃ i, arrow <+: s.toList.drop i ∧ ¬ InQuotes s.toList tokens.items i ∧
          (∀ j < i, arrow <+: s.toList.drop j → InQuotes s.toList tokens.items j) ∧
          n = (String.ofList (s.toList.take i)).utf8ByteSize := by
  have hfrom : ReadFrom s.toList 0 tokens.items :=
    readFrom_of_scanFrom hread List.drop_zero hpercent
  exact ⟨hfrom.split_eq hquotes, hfrom.find?_arrow_iff hquotes⟩

/-- A string and a quoted atom that hold commas, an arrow, an escape and the other quote. -/
def mixedQuotes : String := "p(\x22it\\\x27s, :- b\x22), \x27c,\x22\x27 :- [d, e]"

theorem raw_scans_follow_tokens_mixedQuotes :
    '%' ∉ mixedQuotes.toList ∧
    split ',' mixedQuotes.toList =
      ["p(\x22it\\\x27s, :- b\x22)".toList, "\x27c,\x22\x27 :- [d, e]".toList] ∧
    find? arrow mixedQuotes.toList = some 24 := by
  have hread : Tokens.ofString mixedQuotes = .ok
      { items := [⟨.atom "p", 0⟩, ⟨.openParen, 1⟩, ⟨.str "it\x27s, :- b", 2⟩, ⟨.closeParen, 15⟩,
          ⟨.comma, 16⟩, ⟨.atom "c,\x22", 18⟩, ⟨.symbol ":-", 24⟩, ⟨.openBracket, 27⟩,
          ⟨.atom "d", 28⟩, ⟨.comma, 29⟩, ⟨.atom "e", 31⟩, ⟨.closeBracket, 32⟩]
        finish := 33 } := by decide +kernel
  have hpercent : '%' ∉ mixedQuotes.toList := by decide
  obtain ⟨hsplit, hfind⟩ := raw_scans_follow_tokens hread hpercent (by decide)
  refine ⟨hpercent, ?_, (hfind 24).2 ⟨24, ?_⟩⟩
  · rw [hsplit]
    decide
  · decide +kernel

/-- A string that holds its own quote after a backslash, and then a comma and an arrow. -/
def escapedQuote : String := "\x22a\\\x22, :- b\x22"

/-- An escaped quote ends a string for the raw scans: the string is split at a comma inside of it, and
an arrow inside of it is found. -/
theorem escaped_quote_ends_stretch :
    ∃ tokens, Tokens.ofString escapedQuote = .ok tokens ∧ '%' ∉ escapedQuote.toList ∧
      split ',' escapedQuote.toList ≠
        (if tokens.items = [] then []
          else (cutAt escapedQuote.toList 0 (topCommas 0 tokens.items)).map Text.trim) ∧
      find? arrow escapedQuote.toList = some 6 ∧ arrow <+: escapedQuote.toList.drop 6 ∧
      InQuotes escapedQuote.toList tokens.items 6 := by
  have hread : Tokens.ofString escapedQuote = .ok
      { items := [⟨.str "a\x22, :- b", 0⟩], finish := 11 } := by decide +kernel
  exact ⟨_, hread, by decide, by decide, by decide +kernel, by decide, by decide⟩

end StackLogic.Horn
