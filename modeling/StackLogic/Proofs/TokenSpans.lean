import StackLogic.Proofs.LexemeSpans

/-!
# Tokens account for their text

A text is read as spans of tokens with gaps between them (`Accounts`). A gap consists of blanks and
of comments, and a comment stands only where one may start: at the beginning of the text or after
the symbol `.`. The reading ends with the text or at a character that no lexeme starts with.

Every text has such a reading (`exists_accounts`), and the scanner gives its tokens and its end
(`Accounts.scanFrom_eq`), so it has no other. What holds of the positions of tokens is read off it
(`tokens_account_for_text`).
-/

namespace StackLogic.Horn

open Lexeme

variable {boundary : Bool} {p n : Nat} {c : Char} {cs gap span rest after : List Char} {l : Lexeme}
  {ts : List Token} {e : ReadError} {ending : Except ReadError Nat}

/-! ## Gaps -/

/-- Blanks and comments in front of `after`. Comments are among them only if `boundary` holds. -/
inductive Gap (boundary : Bool) (after : List Char) : List Char → Prop where
  | nil : Gap boundary after []
  | blank {c : Char} {rest : List Char} (hc : Text.isBlank c = true) (h : Gap boundary after rest) :
      Gap boundary after (c :: rest)
  | comment {line rest : List Char} (hboundary : boundary = true) (hline : '\n' ∉ line)
      (hend : ∀ x ∈ (rest ++ after).head?, x = '\n') (h : Gap boundary after rest) :
      Gap boundary after ('%' :: (line ++ rest))

/-- A gap ends in front of this character, which is no blank and starts no comment. -/
def EndsGap (boundary : Bool) (c : Char) : Prop :=
  Text.isBlank c = false ∧ ¬ (c = '%' ∧ boundary = true)

/-- From position `p` on, the text `cs` is read as these tokens. It is read to its end, or up to a
character that no lexeme starts with. -/
inductive Accounts : Bool → Nat → List Char → List Token → Except ReadError Nat → Prop where
  | finish {boundary : Bool} {p : Nat} {gap : List Char} (hgap : Gap boundary [] gap) :
      Accounts boundary p gap [] (.ok (p + gap.length))
  | stop {boundary : Bool} {p : Nat} {gap rest : List Char} {c : Char} {cause : ReadCause}
      (hgap : Gap boundary (c :: rest) gap) (hc : EndsGap boundary c)
      (hcause : Unreadable c rest cause) :
      Accounts boundary p (gap ++ c :: rest) [] (.error { cause, position := p + gap.length })
  | token {boundary : Bool} {p : Nat} {gap span rest : List Char} {l : Lexeme} {ts : List Token}
      {ending : Except ReadError Nat} (hgap : Gap boundary (span ++ rest) gap)
      (hstart : ∀ c ∈ span.head?, EndsGap boundary c) (hspan : Spans span l rest)
      (h : Accounts (l == .symbol ".") (p + gap.length + span.length) rest ts ending) :
      Accounts boundary p (gap ++ (span ++ rest)) (⟨l, p + gap.length⟩ :: ts) ending

theorem isBlank_percent : Text.isBlank '%' = false := by decide

theorem Gap.take (h : Gap boundary after gap) (n : Nat) : Gap boundary (after.take n) gap := by
  induction h with
  | nil => exact .nil
  | blank hc _ ih => exact .blank hc ih
  | @comment line rest hboundary hline hend _ ih =>
    have hcut := forall_mem_head?_take hend (rest.length + n)
    rw [List.take_length_add_append] at hcut
    exact .comment hboundary hline hcut ih

/-! ## The scanner -/

/-- The scanner goes over a gap. -/
theorem scanFrom_gap (h : Gap boundary after gap) (p : Nat) :
    Tokens.scanFrom boundary p (gap ++ after) = Tokens.scanFrom boundary (p + gap.length) after := by
  induction h generalizing p with
  | nil => rfl
  | @blank c rest hc _ ih =>
    rw [List.cons_append, Tokens.scanFrom, if_pos hc, ih, List.length_cons, Nat.add_right_comm,
      Nat.add_assoc]
  | @comment line rest hboundary hline hend _ ih =>
    have hinside : ∀ x ∈ line, (x != '\n') = true := fun x hx =>
      bne_iff_ne.2 fun heq => hline (heq ▸ hx)
    have hstop : ∀ x ∈ (rest ++ after).head?, (x != '\n') = false := fun x hx => by
      rw [hend x hx, bne_self_eq_false]
    obtain ⟨htake, hdrop⟩ := Text.takeWhile_append_of_forall hinside hstop
    have hlength : p + ('%' :: (line ++ rest)).length = p + 1 + line.length + rest.length := by
      rw [List.length_cons, List.length_append]
      omega
    subst hboundary
    rw [List.cons_append, List.append_assoc, Tokens.scanFrom, if_neg (by simp [isBlank_percent]),
      if_pos ⟨rfl, rfl⟩, htake, hdrop, ih, hlength]

/-- The scanner stops at a character that no lexeme starts with. -/
theorem scanFrom_stop {cause : ReadCause} (hc : EndsGap boundary c)
    (hcause : Unreadable c rest cause) (p : Nat) :
    Tokens.scanFrom boundary p (c :: rest) = .error { cause, position := p } := by
  rw [Tokens.scanFrom, if_neg (by simp [hc.1]), if_neg hc.2]
  split
  next heq =>
    cases heq.symm.trans hcause.scan_eq
    rfl
  next heq => cases heq.symm.trans hcause.scan_eq

/-- The scanner takes the span of a lexeme as one token. -/
theorem scanFrom_token (hspan : Spans span l rest) (hstart : ∀ c ∈ span.head?, EndsGap boundary c)
    (p : Nat) :
    Tokens.scanFrom boundary p (span ++ rest) =
      (Tokens.scanFrom (l == .symbol ".") (p + span.length) rest).map fun after =>
        { after with items := ⟨l, p⟩ :: after.items } := by
  obtain ⟨c, more, rfl, -, hscan⟩ := hspan.scan_eq
  have hc : EndsGap boundary c := hstart c rfl
  rw [List.cons_append, Tokens.scanFrom, if_neg (by simp [hc.1]), if_neg hc.2]
  split
  next heq => cases heq.symm.trans hscan
  next heq =>
    cases heq.symm.trans hscan
    rfl

/-- The scanner gives the tokens and the end of a reading. -/
theorem Accounts.scanFrom_eq (h : Accounts boundary p cs ts ending) :
    Tokens.scanFrom boundary p cs = ending.map fun finish => { items := ts, finish } := by
  induction h with
  | @finish boundary p gap hgap =>
    have hscan := scanFrom_gap hgap p
    rw [List.append_nil] at hscan
    rw [hscan, Tokens.scanFrom]
    rfl
  | stop hgap hc hcause =>
    rw [scanFrom_gap hgap, scanFrom_stop hc hcause]
    rfl
  | token hgap hstart hspan h ih =>
    rw [scanFrom_gap hgap, scanFrom_token hspan hstart, ih]
    cases ‹Except ReadError Nat› <;> rfl

/-! ## Every text has a reading -/

/-- Every text starts with a longest gap. -/
theorem exists_gap (boundary : Bool) (cs : List Char) :
    ∃ gap rest, cs = gap ++ rest ∧ Gap boundary rest gap ∧ ∀ c ∈ rest.head?, EndsGap boundary c := by
  induction hn : cs.length using Nat.strongRecOn generalizing cs with
  | _ n ih =>
    subst hn
    cases cs with
    | nil => exact ⟨[], [], rfl, .nil, by simp⟩
    | cons c more =>
      by_cases hblank : Text.isBlank c = true
      · obtain ⟨gap, rest, rfl, hgap, hrest⟩ := ih more.length (by simp) more rfl
        exact ⟨c :: gap, rest, rfl, .blank hblank hgap, hrest⟩
      by_cases hcomment : c = '%' ∧ boundary = true
      · obtain ⟨rfl, hboundary⟩ := hcomment
        obtain ⟨line, later, rfl, hline, hlater⟩ := Text.exists_span (· != '\n') more
        have hshorter : later.length < ('%' :: (line ++ later)).length := by
          rw [List.length_cons, List.length_append]
          omega
        obtain ⟨gap, rest, rfl, hgap, hrest⟩ := ih later.length hshorter later rfl
        refine ⟨'%' :: (line ++ gap), rest, by simp, .comment hboundary ?_ ?_ hgap, hrest⟩
        · exact fun hmem => absurd (hline _ hmem) (by decide)
        · simpa using hlater
      · refine ⟨[], c :: more, rfl, .nil, ?_⟩
        rintro x hx
        cases hx
        exact ⟨Bool.eq_false_of_not_eq_true hblank, hcomment⟩

/-- Every text is read as some tokens, to its end or up to a character that no lexeme starts with. -/
theorem exists_accounts (boundary : Bool) (p : Nat) (cs : List Char) :
    ∃ ts ending, Accounts boundary p cs ts ending := by
  induction hn : cs.length using Nat.strongRecOn generalizing boundary p cs with
  | _ n ih =>
    subst hn
    obtain ⟨gap, rest, rfl, hgap, hrest⟩ := exists_gap boundary cs
    cases rest with
    | nil =>
      rw [List.append_nil]
      exact ⟨[], _, .finish hgap⟩
    | cons c more =>
      have hc : EndsGap boundary c := hrest c rfl
      rcases begins_or_unreadable c more with ⟨span, l, after, heq, hspan⟩ | ⟨cause, hcause⟩
      · have hpos := hspan.length_pos
        have hshorter : after.length < (gap ++ c :: more).length := by
          rw [heq, List.length_append, List.length_append]
          omega
        obtain ⟨ts, ending, h⟩ := ih after.length hshorter (l == .symbol ".")
          (p + gap.length + span.length) after rfl
        rw [heq] at hgap ⊢
        refine ⟨_, ending, .token hgap (fun x hx => hrest x ?_) hspan h⟩
        rwa [heq, List.head?_append_of_ne_nil _ (List.length_pos_iff.1 hpos)]
      · exact ⟨[], _, .stop hgap hc hcause⟩

/-! ## Positions -/

/-- The places where tokens start, and the end. -/
def places (ts : List Token) (finish : Nat) : List Nat := ts.map Token.position ++ [finish]

theorem Accounts.finish_eq (h : Accounts boundary p cs ts ending) (hn : ending = .ok n) :
    n = p + cs.length := by
  induction h with
  | finish => cases hn; rfl
  | stop => cases hn
  | token _ _ _ _ ih =>
    rw [ih hn, List.length_append, List.length_append]
    omega

/-- Nothing is before the place where reading starts. -/
theorem Accounts.le_places (h : Accounts boundary p cs ts ending) (hn : ending = .ok n) :
    ∀ i ∈ places ts n, p ≤ i := by
  induction h with
  | finish =>
    cases hn
    exact List.forall_mem_singleton.2 (Nat.le_add_right _ _)
  | stop => cases hn
  | token _ _ _ _ ih =>
    refine List.forall_mem_cons.2 ⟨Nat.le_add_right _ _, fun i hi => ?_⟩
    have hle := ih hn i hi
    omega

/-- Every token starts behind the one before it. -/
theorem Accounts.pairwise_places (h : Accounts boundary p cs ts ending) (hn : ending = .ok n) :
    (places ts n).Pairwise (· < ·) := by
  induction h with
  | finish => exact List.pairwise_singleton _ _
  | stop => cases hn
  | token _ _ hspan h ih =>
    refine List.pairwise_cons.2 ⟨fun i hi => ?_, ih hn⟩
    have hle := h.le_places hn i hi
    have hpos := hspan.length_pos
    dsimp only
    omega

/-! ## The text before an error -/

/-- Up to the character where reading stops, the text is read as the same tokens. -/
theorem Accounts.take_of_error (h : Accounts boundary p cs ts ending) (he : ending = .error e) :
    ∃ i, e.position = p + i ∧
      (∃ c rest, cs.drop i = c :: rest ∧ Text.isBlank c = false ∧ Unreadable c rest e.cause) ∧
      Accounts boundary p (cs.take i) ts (.ok e.position) := by
  induction h with
  | finish => cases he
  | @stop boundary p gap rest c cause hgap hc hcause =>
    cases he
    refine ⟨gap.length, rfl, ⟨c, rest, List.drop_left, hc.1, hcause⟩, ?_⟩
    rw [List.take_left]
    exact .finish (hgap.take 0)
  | @token boundary p gap span rest l ts ending hgap hstart hspan h ih =>
    obtain ⟨i, hi, ⟨c, more, hdrop, hc, hcause⟩, hread⟩ := ih he
    refine ⟨gap.length + (span.length + i), by omega, ⟨c, more, ?_, hc, hcause⟩, ?_⟩
    · rw [List.drop_length_add_append, List.drop_length_add_append, hdrop]
    · rw [List.take_length_add_append, List.take_length_add_append]
      have hcut := hgap.take (span.length + i)
      rw [List.take_length_add_append] at hcut
      exact .token hcut hstart (hspan.take i) hread

/-! ## The scanner accounts for every character -/

/-- What is read is the only reading of a text. -/
theorem accounts_iff : Accounts boundary p cs ts (.ok n) ↔
    Tokens.scanFrom boundary p cs = .ok { items := ts, finish := n } := by
  refine ⟨fun h => h.scanFrom_eq, fun h => ?_⟩
  obtain ⟨ts', ending, hread⟩ := exists_accounts boundary p cs
  rw [hread.scanFrom_eq] at h
  cases ending with
  | error => cases h
  | ok n' =>
    cases h
    exact hread

theorem exists_accounts_iff : (∃ ts, Accounts boundary p cs ts (.error e)) ↔
    Tokens.scanFrom boundary p cs = .error e := by
  refine ⟨fun ⟨ts, h⟩ => h.scanFrom_eq, fun h => ?_⟩
  obtain ⟨ts, ending, hread⟩ := exists_accounts boundary p cs
  rw [hread.scanFrom_eq] at h
  cases ending with
  | ok => cases h
  | error e' =>
    cases h
    exact ⟨ts, hread⟩

/-- Tokens account for every character of a text. If it is read, it consists of the spans of its
tokens and of gaps, the tokens start at increasing positions, and the end is behind all of them. If
it is not, the error is at a character that no lexeme starts with, and the text before is read. -/
theorem tokens_account_for_text (s : String) :
    (∀ tokens, Tokens.ofString s = .ok tokens →
      Accounts true 0 s.toList tokens.items (.ok tokens.finish) ∧
      (places tokens.items tokens.finish).Pairwise (· < ·) ∧ tokens.finish = s.toList.length) ∧
    ∀ e, Tokens.ofString s = .error e →
      ∃ ts, Accounts true 0 s.toList ts (.error e) ∧
        (∃ c rest, s.toList.drop e.position = c :: rest ∧ Text.isBlank c = false ∧
          Unreadable c rest e.cause) ∧
        Tokens.ofString (String.ofList (s.toList.take e.position)) =
          .ok { items := ts, finish := e.position } := by
  refine ⟨fun tokens h => ?_, fun e h => ?_⟩
  · have hread : Accounts true 0 s.toList tokens.items (.ok tokens.finish) := accounts_iff.2 h
    refine ⟨hread, hread.pairwise_places rfl, ?_⟩
    rw [hread.finish_eq rfl, Nat.zero_add]
  · obtain ⟨ts, hread⟩ := exists_accounts_iff.2 h
    obtain ⟨i, hi, hchar, hbefore⟩ := hread.take_of_error rfl
    rw [Nat.zero_add] at hi
    subst hi
    refine ⟨ts, hread, hchar, ?_⟩
    rw [Tokens.ofString, String.toList_ofList]
    exact accounts_iff.1 hbefore

/-- Two comments, an escape, and a symbol that holds a point and a percent sign. -/
def remarked : String := "% facts\np(\x27it\\\x27s\x27, 1) . % x.\n 3.%4"

/-- A comment and a string that is not closed. -/
def unclosed : String := "p. % c\n q(\x22open)."

theorem tokens_account_for_text_remarked :
    (∃ tokens, Tokens.ofString remarked = .ok tokens ∧
      Accounts true 0 remarked.toList tokens.items (.ok tokens.finish) ∧
      places tokens.items tokens.finish = [8, 9, 10, 17, 19, 20, 22, 30, 31, 33, 34] ∧
      (places tokens.items tokens.finish).Pairwise (· < ·) ∧
      tokens.finish = remarked.toList.length) ∧
    Tokens.ofString unclosed = .error ⟨.unterminatedString, 10⟩ ∧
    ∃ ts, Accounts true 0 unclosed.toList ts (.error ⟨.unterminatedString, 10⟩) ∧
      Tokens.ofString (String.ofList (unclosed.toList.take 10)) =
        .ok { items := ts, finish := 10 } := by
  have hread : Tokens.ofString remarked = .ok
      { items := [⟨.atom "p", 8⟩, ⟨.openParen, 9⟩, ⟨.atom "it\x27s", 10⟩, ⟨.comma, 17⟩,
          ⟨.int 1, 19⟩, ⟨.closeParen, 20⟩, ⟨.symbol ".", 22⟩, ⟨.int 3, 30⟩, ⟨.symbol ".%", 31⟩,
          ⟨.int 4, 33⟩]
        finish := 34 } := by decide +kernel
  have hstop : Tokens.ofString unclosed = .error ⟨.unterminatedString, 10⟩ := by decide +kernel
  obtain ⟨haccounts, hincreasing, hfinish⟩ := (tokens_account_for_text remarked).1 _ hread
  obtain ⟨ts, hreading, -, hbefore⟩ := (tokens_account_for_text unclosed).2 _ hstop
  exact ⟨⟨_, hread, haccounts, rfl, hincreasing, hfinish⟩, hstop, ts, hreading, hbefore⟩

end StackLogic.Horn
