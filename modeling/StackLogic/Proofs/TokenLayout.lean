import StackLogic.Machine.Token
import Mathlib.Data.List.TakeWhile

/-!
# The scanner inverts layout

`Layout` says how a list of tokens can be laid out as a text, with blanks and comments between them.
The scanner finds the tokens of every layout (`scan_inverts_layout`).

In between stands the reading of a text (`Reads`), which cuts the whole text into pieces and tells
by which rule each piece is read. Every reading gives the tokens that the scanner finds
(`Reads.scanFrom_eq`), every text that is scanned has a reading (`exists_reads`), and only a quote
that is never closed leaves a text without one (`unclosed_of_scanFrom`).
-/

namespace StackLogic.Machine.Token

/-! ## Readings -/

/-- A piece of a text, with the rule that reads it. -/
inductive Piece where
  | blank (c : Char)
  /-- `( … )`, with the text between the parentheses. -/
  | comment (text : List Char)
  /-- `( …` up to the end of the text. -/
  | openComment (text : List Char)
  /-- `\ …` up to the end of the line. -/
  | lineComment (text : List Char)
  /-- A text in quotes, without them. -/
  | quoted (text : List Char)
  | word (text : List Char)

namespace Piece

/-- The token that a piece gives, if it gives one. -/
def token? : Piece → Option Token
  | quoted text => some (String.ofList (quote :: (text ++ [quote])))
  | word text => some (String.ofList text)
  | _ => none

/-- Whether the piece is a text in quotes. -/
def isQuoted : Piece → Bool
  | quoted _ => true
  | _ => false

/-- Whether the piece is a comment that is never closed. -/
def isOpenComment : Piece → Bool
  | openComment _ => true
  | _ => false

/-- The tokens that pieces give, in order. -/
def tokens (pieces : List Piece) : List Token := pieces.filterMap token?

end Piece

/-- The pieces of a text from left to right. Comments are read only where a blank or nothing stands
before them, which `fresh` tells. -/
inductive Reads : Bool → List Char → List Piece → Prop where
  | nil {fresh : Bool} : Reads fresh [] []
  | blank {fresh : Bool} {c : Char} {cs : List Char} {pieces : List Piece}
      (hc : Text.isBlank c = true) (h : Reads true cs pieces) :
      Reads fresh (c :: cs) (.blank c :: pieces)
  | comment {text cs : List Char} {pieces : List Piece} (htext : ')' ∉ text)
      (h : Reads false cs pieces) :
      Reads true ('(' :: (text ++ ')' :: cs)) (.comment text :: pieces)
  | openComment {text : List Char} (htext : ')' ∉ text) :
      Reads true ('(' :: text) [.openComment text]
  | lineComment {text cs : List Char} {pieces : List Piece} (htext : '\n' ∉ text)
      (hend : ∀ x ∈ cs.head?, x = '\n') (h : Reads false cs pieces) :
      Reads true ('\\' :: (text ++ cs)) (.lineComment text :: pieces)
  | quoted {fresh : Bool} {text cs : List Char} {pieces : List Piece} (htext : quote ∉ text)
      (h : Reads false cs pieces) :
      Reads fresh (quote :: (text ++ quote :: cs)) (.quoted text :: pieces)
  | word {fresh : Bool} {c : Char} {text cs : List Char} {pieces : List Piece}
      (hc : Text.isBlank c = false) (hquote : c ≠ quote)
      (hcomment : fresh = true → c ≠ '(' ∧ c ≠ '\\')
      (htext : ∀ x ∈ text, Text.isBlank x = false) (hend : ∀ x ∈ cs.head?, Text.isBlank x = true)
      (h : Reads false cs pieces) : Reads fresh (c :: (text ++ cs)) (.word (c :: text) :: pieces)

variable {fresh before : Bool} {position : Nat} {c x : Char} {text rest cs : List Char}
  {t : Token} {ts : List Token} {piece : Piece} {pieces : List Piece} {f : Fault}

/-! ## The rules of the scanner -/

theorem takeWhile_append_stop (htext : x ∉ text) (rest : List Char) :
    (text ++ x :: rest).takeWhile (· != x) = text ∧
      (text ++ x :: rest).dropWhile (· != x) = x :: rest := by
  refine Text.takeWhile_append_of_forall (fun y hy => ?_) (fun y hy => ?_)
  · have hne : y ≠ x := fun h => htext (h ▸ hy)
    simpa using hne
  · obtain rfl : x = y := by simpa using hy
    simp

theorem scanFrom_nil : scanFrom fresh position [] = .ok [] := by
  rw [scanFrom]

theorem scanFrom_blank (hc : Text.isBlank c = true) :
    scanFrom fresh position (c :: rest) = scanFrom true (position + 1) rest := by
  rw [scanFrom, if_pos hc]

/-- A comment in parentheses is dropped, and no comment may start right behind it. -/
theorem scanFrom_comment (htext : ')' ∉ text) :
    scanFrom true position ('(' :: (text ++ ')' :: cs)) =
      scanFrom false (position + 2 + text.length) cs := by
  obtain ⟨htake, hdrop⟩ := takeWhile_append_stop htext cs
  rw [scanFrom, if_neg (by decide), if_pos ⟨rfl, rfl⟩, htake, hdrop, List.tail_cons]

theorem scanFrom_openComment (htext : ')' ∉ text) :
    scanFrom true position ('(' :: text) = .ok [] := by
  have hdrop : text.dropWhile (· != ')') = [] := by
    refine List.dropWhile_eq_nil_iff.2 fun y hy => ?_
    have hne : y ≠ ')' := fun h => htext (h ▸ hy)
    simpa using hne
  rw [scanFrom, if_neg (by decide), if_pos ⟨rfl, rfl⟩, hdrop, List.tail_nil, scanFrom_nil]

/-- A comment to the end of the line is dropped. -/
theorem scanFrom_lineComment (htext : '\n' ∉ text) (hend : ∀ x ∈ cs.head?, x = '\n') :
    scanFrom true position ('\\' :: (text ++ cs)) =
      scanFrom false (position + 1 + text.length) cs := by
  have hspan : (text ++ cs).takeWhile (· != '\n') = text ∧
      (text ++ cs).dropWhile (· != '\n') = cs := by
    refine Text.takeWhile_append_of_forall (fun y hy => ?_) (fun y hy => ?_)
    · have hne : y ≠ '\n' := fun h => htext (h ▸ hy)
      simpa using hne
    · rw [hend y hy]
      rfl
  rw [scanFrom, if_neg (by decide), if_neg (by decide), if_pos ⟨rfl, rfl⟩, hspan.1, hspan.2]

/-- A text in quotes is a token with its quotes. -/
theorem scanFrom_quoted (htext : quote ∉ text) :
    scanFrom fresh position (quote :: (text ++ quote :: cs)) =
      (scanFrom false (position + 2 + text.length) cs).map
        (String.ofList (quote :: (text ++ [quote])) :: ·) := by
  obtain ⟨htake, hdrop⟩ := takeWhile_append_stop htext cs
  have hmem : quote ∈ text ++ quote :: cs := List.mem_append_right _ List.mem_cons_self
  rw [scanFrom, if_neg (by decide), if_neg (fun h => absurd h.1 (by decide)),
    if_neg (fun h => absurd h.1 (by decide)), if_pos rfl, if_pos hmem]
  dsimp only
  rw [htake, hdrop, List.tail_cons, List.cons_append]

/-- Quotes without an end stop the scan where they begin. -/
theorem scanFrom_unclosed (hrest : quote ∉ rest) :
    scanFrom fresh position (quote :: rest) = .error (.unterminatedText position) := by
  rw [scanFrom, if_neg (by decide), if_neg (fun h => absurd h.1 (by decide)),
    if_neg (fun h => absurd h.1 (by decide)), if_pos rfl, if_neg hrest]

/-- Other characters up to the next blank are a token. -/
theorem scanFrom_word (hc : Text.isBlank c = false) (hquote : c ≠ quote)
    (hcomment : fresh = true → c ≠ '(' ∧ c ≠ '\\')
    (htext : ∀ x ∈ text, Text.isBlank x = false) (hend : ∀ x ∈ cs.head?, Text.isBlank x = true) :
    scanFrom fresh position (c :: (text ++ cs)) =
      (scanFrom false (position + 1 + text.length) cs).map (String.ofList (c :: text) :: ·) := by
  have hspan : (text ++ cs).takeWhile (!Text.isBlank ·) = text ∧
      (text ++ cs).dropWhile (!Text.isBlank ·) = cs := by
    refine Text.takeWhile_append_of_forall (fun y hy => ?_) (fun y hy => ?_)
    · rw [htext y hy]
      rfl
    · rw [hend y hy]
      rfl
  rw [scanFrom, if_neg (by simp [hc]), if_neg (fun h => (hcomment h.2).1 h.1),
    if_neg (fun h => (hcomment h.2).2 h.1), if_neg hquote]
  dsimp only
  rw [hspan.1, hspan.2]

/-! ## Scanning is reading -/

/-- The scanner finds the tokens of every reading. -/
theorem Reads.scanFrom_eq (h : Reads fresh cs pieces) (position : Nat) :
    scanFrom fresh position cs = .ok (Piece.tokens pieces) := by
  induction h generalizing position with
  | nil => exact scanFrom_nil
  | blank hc _ ih => rw [scanFrom_blank hc, ih]; rfl
  | comment htext _ ih => rw [scanFrom_comment htext, ih]; rfl
  | openComment htext => exact scanFrom_openComment htext
  | lineComment htext hend _ ih => rw [scanFrom_lineComment htext hend, ih]; rfl
  | quoted htext _ ih => rw [scanFrom_quoted htext, ih]; rfl
  | word hc hquote hcomment htext hend _ ih =>
    rw [scanFrom_word hc hquote hcomment htext hend, ih]
    rfl

/-- The text has a reading, or the scanner stops at a quote behind which there is no other one. -/
def ReadsOrStops (fresh : Bool) (position : Nat) (cs : List Char) : Prop :=
  (∃ pieces, Reads fresh cs pieces) ∨
    ∃ front after, cs = front ++ quote :: after ∧ quote ∉ after ∧
      scanFrom fresh position cs = .error (.unterminatedText (position + front.length))

/-- What holds of the text behind a piece holds of the text that starts with it. -/
theorem ReadsOrStops.behind {whole : List Char} {next : Nat} (h : ReadsOrStops before next cs)
    (skipped : List Char) (hwhole : whole = skipped ++ cs)
    (hnext : next = position + skipped.length)
    (hreads : ∀ pieces, Reads before cs pieces → Reads fresh whole (piece :: pieces))
    (hstops : ∀ f, scanFrom before next cs = .error f → scanFrom fresh position whole = .error f) :
    ReadsOrStops fresh position whole := by
  rcases h with ⟨pieces, hpieces⟩ | ⟨front, after, hcs, hafter, herror⟩
  · exact Or.inl ⟨piece :: pieces, hreads pieces hpieces⟩
  · refine Or.inr ⟨skipped ++ front, after, ?_, hafter, ?_⟩
    · rw [hwhole, hcs, List.append_assoc]
    · rw [hstops _ herror, hnext, List.length_append, Nat.add_assoc]

theorem readsOrStops_blank (hc : Text.isBlank c = true)
    (h : ReadsOrStops true (position + 1) cs) : ReadsOrStops fresh position (c :: cs) := by
  refine h.behind [c] rfl rfl (fun _ hreads => .blank hc hreads) fun f hf => ?_
  rw [scanFrom_blank hc, hf]

theorem readsOrStops_comment (htext : ')' ∉ text)
    (h : ReadsOrStops false (position + 2 + text.length) cs) :
    ReadsOrStops true position ('(' :: (text ++ ')' :: cs)) := by
  refine h.behind ('(' :: (text ++ [')'])) (by simp) ?_
    (fun _ hreads => .comment htext hreads) fun f hf => ?_
  · simp only [List.length_cons, List.length_append, List.length_nil]
    omega
  · rw [scanFrom_comment htext, hf]

theorem readsOrStops_lineComment (htext : '\n' ∉ text) (hend : ∀ x ∈ cs.head?, x = '\n')
    (h : ReadsOrStops false (position + 1 + text.length) cs) :
    ReadsOrStops true position ('\\' :: (text ++ cs)) := by
  refine h.behind ('\\' :: text) rfl ?_
    (fun _ hreads => .lineComment htext hend hreads) fun f hf => ?_
  · rw [List.length_cons]
    omega
  · rw [scanFrom_lineComment htext hend, hf]

theorem readsOrStops_quoted (htext : quote ∉ text)
    (h : ReadsOrStops false (position + 2 + text.length) cs) :
    ReadsOrStops fresh position (quote :: (text ++ quote :: cs)) := by
  refine h.behind (quote :: (text ++ [quote])) (by simp) ?_
    (fun _ hreads => .quoted htext hreads) fun f hf => ?_
  · simp only [List.length_cons, List.length_append, List.length_nil]
    omega
  · rw [scanFrom_quoted htext, hf]
    rfl

theorem readsOrStops_word (hc : Text.isBlank c = false) (hquote : c ≠ quote)
    (hcomment : fresh = true → c ≠ '(' ∧ c ≠ '\\')
    (htext : ∀ x ∈ text, Text.isBlank x = false) (hend : ∀ x ∈ cs.head?, Text.isBlank x = true)
    (h : ReadsOrStops false (position + 1 + text.length) cs) :
    ReadsOrStops fresh position (c :: (text ++ cs)) := by
  refine h.behind (c :: text) rfl ?_
    (fun _ hreads => .word hc hquote hcomment htext hend hreads) fun f hf => ?_
  · rw [List.length_cons]
    omega
  · rw [scanFrom_word hc hquote hcomment htext hend, hf]
    rfl

/-- One piece after the other is read, up to the end of the text or a quote that is never closed. -/
theorem readsOrStops (fresh : Bool) (position : Nat) (cs : List Char) :
    ReadsOrStops fresh position cs := by
  -- On the length, since a piece takes any number of characters; the cases are the rules in order.
  induction hn : cs.length using Nat.strongRecOn generalizing fresh position cs with
  | _ n ih =>
    subst hn
    cases cs with
    | nil => exact Or.inl ⟨[], .nil⟩
    | cons c rest =>
      have hshorter : ∀ after : List Char, after.length ≤ rest.length → ∀ before next,
          ReadsOrStops before next after := by
        intro after hle before next
        exact ih after.length (Nat.lt_succ_of_le hle) before next after rfl
      by_cases hc : Text.isBlank c = true
      · exact readsOrStops_blank hc (hshorter rest le_rfl _ _)
      rw [Bool.not_eq_true] at hc
      by_cases hparen : fresh = true ∧ c = '('
      · obtain ⟨rfl, rfl⟩ := hparen
        by_cases hclose : ')' ∈ rest
        · obtain ⟨text, after, rfl, htext⟩ := List.eq_append_cons_of_mem hclose
          refine readsOrStops_comment htext (hshorter after ?_ _ _)
          rw [List.length_append, List.length_cons]
          omega
        · exact Or.inl ⟨_, .openComment hclose⟩
      by_cases hbackslash : fresh = true ∧ c = '\\'
      · obtain ⟨rfl, rfl⟩ := hbackslash
        obtain ⟨text, after, rfl, htext, hafter⟩ := Text.exists_span (· != '\n') rest
        refine readsOrStops_lineComment (fun hmem => ?_) (fun x hx => ?_) (hshorter after ?_ _ _)
        · exact absurd (htext _ hmem) (by decide)
        · simpa using hafter x hx
        · rw [List.length_append]
          omega
      by_cases hquote : c = quote
      · rw [hquote]
        by_cases hclose : quote ∈ rest
        · obtain ⟨text, after, rfl, htext⟩ := List.eq_append_cons_of_mem hclose
          refine readsOrStops_quoted htext (hshorter after ?_ _ _)
          rw [List.length_append, List.length_cons]
          omega
        · exact Or.inr ⟨[], rest, rfl, hclose, scanFrom_unclosed hclose⟩
      · obtain ⟨text, after, rfl, htext, hafter⟩ := Text.exists_span (!Text.isBlank ·) rest
        have hcomment : fresh = true → c ≠ '(' ∧ c ≠ '\\' := fun hfresh =>
          ⟨fun h => hparen ⟨hfresh, h⟩, fun h => hbackslash ⟨hfresh, h⟩⟩
        refine readsOrStops_word hc hquote hcomment (fun x hx => ?_) (fun x hx => ?_)
          (hshorter after ?_ _ _)
        · simpa using htext x hx
        · simpa using hafter x hx
        · rw [List.length_append]
          omega

/-- Every text that is scanned has a reading. -/
theorem exists_reads (h : scanFrom fresh position cs = .ok ts) :
    ∃ pieces, Reads fresh cs pieces := by
  rcases readsOrStops fresh position cs with hreads | ⟨front, after, -, -, herror⟩
  · exact hreads
  · rw [h] at herror
    cases herror

/-- The scanner stops only at a quote behind which there is no other one. -/
theorem unclosed_of_scanFrom (h : scanFrom fresh position cs = .error f) :
    ∃ front after, cs = front ++ quote :: after ∧ quote ∉ after ∧
      f = .unterminatedText (position + front.length) := by
  rcases readsOrStops fresh position cs with ⟨pieces, hreads⟩ | ⟨front, after, hcs, hafter, herror⟩
  · rw [hreads.scanFrom_eq] at h
    cases h
  · rw [h] at herror
    exact ⟨front, after, hcs, hafter, Except.error.inj herror⟩

/-! ## Texts in quotes -/

theorem isQuoted_enclosed (text : List Char) :
    isQuoted (String.ofList (quote :: (text ++ [quote]))) = true := by
  have hlast : (quote :: (text ++ [quote])).getLast? = some quote :=
    List.getLast?_concat (l := quote :: text)
  have hlength : 2 ≤ (String.ofList (quote :: (text ++ [quote]))).length := by
    rw [String.length_ofList, List.length_cons, List.length_append, List.length_singleton]
    omega
  rw [isQuoted, String.toList_ofList, hlast, decide_eq_true hlength]
  simp

theorem isQuoted_of_head (hc : c ≠ quote) (text : List Char) :
    isQuoted (String.ofList (c :: text)) = false := by
  have hhead : (some c == some quote) = false := by simpa using hc
  simp [isQuoted, hhead]

/-- A token has quotes around it exactly if it is read as a text in quotes, and then it has no
others. -/
theorem Reads.isQuoted_iff (h : Reads fresh cs pieces) :
    ∀ piece ∈ pieces, ∀ t, piece.token? = some t →
      (t.isQuoted = true ↔ piece.isQuoted = true) ∧
        (piece.isQuoted = true → t.toList.count quote = 2) := by
  induction h with
  | nil => exact fun _ hmem => absurd hmem List.not_mem_nil
  | blank _ _ ih | comment _ _ ih | lineComment _ _ _ ih =>
    exact List.forall_mem_cons.2 ⟨nofun, ih⟩
  | openComment => exact List.forall_mem_singleton.2 nofun
  | @quoted _ text _ _ htext _ ih =>
    refine List.forall_mem_cons.2 ⟨?_, ih⟩
    rintro t ⟨⟩
    refine ⟨iff_of_true (isQuoted_enclosed text) rfl, fun _ => ?_⟩
    rw [String.toList_ofList, List.count_cons_self, List.count_append,
      List.count_eq_zero_of_not_mem htext, List.count_singleton_self]
  | @word _ c text _ _ _ hquote _ _ _ _ ih =>
    refine List.forall_mem_cons.2 ⟨?_, ih⟩
    rintro t ⟨⟩
    refine ⟨iff_of_false ?_ nofun, nofun⟩
    rw [isQuoted_of_head hquote text]
    exact Bool.false_ne_true

/-! ## Layouts -/

/-- A text in quotes, with no other quote in it. -/
def IsText (t : Token) : Prop := ∃ text, quote ∉ text ∧ t.toList = quote :: (text ++ [quote])

/-- A word without blanks that starts neither like a text in quotes nor like a comment. -/
def IsBare (t : Token) : Prop :=
  ∃ c text, t.toList = c :: text ∧ (∀ x ∈ c :: text, Text.isBlank x = false) ∧
    c ≠ quote ∧ c ≠ '(' ∧ c ≠ '\\'

/-- The texts that a list of tokens can be laid out as: tokens and comments, each with a blank or
nothing before it, which `fresh` tells, and blanks wherever they may stand. As only a blank can
follow a token or a closed comment, each of them has a blank or the end of the text behind it. -/
inductive Layout : Bool → List Token → List Char → Prop where
  | nil {fresh : Bool} : Layout fresh [] []
  | blank {fresh : Bool} {c : Char} {ts : List Token} {cs : List Char} (hc : Text.isBlank c = true)
      (h : Layout true ts cs) : Layout fresh ts (c :: cs)
  | comment {text : List Char} {ts : List Token} {cs : List Char} (htext : ')' ∉ text)
      (h : Layout false ts cs) : Layout true ts ('(' :: (text ++ ')' :: cs))
  | lineComment {text : List Char} {ts : List Token} {cs : List Char} (htext : '\n' ∉ text)
      (h : Layout true ts cs) : Layout true ts ('\\' :: (text ++ '\n' :: cs))
  | token {t : Token} {ts : List Token} {cs : List Char} (ht : t.IsText ∨ t.IsBare)
      (h : Layout false ts cs) : Layout true (t :: ts) (t.toList ++ cs)

/-- Behind a token or a comment, a layout has a blank or ends. -/
theorem Layout.starts_blank (h : Layout false ts cs) : ∀ x ∈ cs.head?, Text.isBlank x = true := by
  cases h with
  | nil => exact nofun
  | blank hc _ =>
    rintro x ⟨⟩
    exact hc

/-- A layout is read as its tokens. -/
theorem Layout.exists_reads (h : Layout fresh ts cs) :
    ∃ pieces, Reads fresh cs pieces ∧ Piece.tokens pieces = ts := by
  induction h with
  | nil => exact ⟨[], .nil, rfl⟩
  | blank hc _ ih =>
    obtain ⟨pieces, hreads, htokens⟩ := ih
    exact ⟨_, .blank hc hreads, htokens⟩
  | comment htext _ ih =>
    obtain ⟨pieces, hreads, htokens⟩ := ih
    exact ⟨_, .comment htext hreads, htokens⟩
  | lineComment htext _ ih =>
    obtain ⟨pieces, hreads, htokens⟩ := ih
    have hbreak : Text.isBlank '\n' = true := by decide
    refine ⟨_, .lineComment htext (fun x hx => ?_) (.blank hbreak hreads), htokens⟩
    exact (Option.some.inj hx).symm
  | @token t ts cs ht h ih =>
    obtain ⟨pieces, hreads, htokens⟩ := ih
    rcases ht with ⟨text, htext, ht⟩ | ⟨c, text, ht, hblank, hquote, hparen, hbackslash⟩
    · refine ⟨.quoted text :: pieces, ?_, ?_⟩
      · rw [ht, List.cons_append, List.append_assoc]
        exact .quoted htext hreads
      · rw [Piece.tokens, List.filterMap_cons_some (b := t), ← Piece.tokens, htokens]
        rw [Piece.token?, ← ht, String.ofList_toList]
    · obtain ⟨hc, htext⟩ := List.forall_mem_cons.1 hblank
      refine ⟨.word (c :: text) :: pieces, ?_, ?_⟩
      · rw [ht]
        exact .word hc hquote (fun _ => ⟨hparen, hbackslash⟩) htext h.starts_blank hreads
      · rw [Piece.tokens, List.filterMap_cons_some (b := t), ← Piece.tokens, htokens]
        rw [Piece.token?, ← ht, String.ofList_toList]

/-- The scanner inverts layout. However a list of tokens is laid out, exactly these tokens are
found. A token has quotes around it exactly if it is read as a text in quotes, and then it holds two
quotes. Only a quote behind which there is no other one makes the scanner fail, and the fault tells
its position. -/
theorem scan_inverts_layout (line : String) :
    (∀ ts, Layout true ts line.toList → scan line = .ok ts) ∧
    (∀ ts, scan line = .ok ts →
      (∃ pieces, Reads true line.toList pieces) ∧
      ∀ pieces, Reads true line.toList pieces → ts = Piece.tokens pieces ∧
        ∀ piece ∈ pieces, ∀ t, piece.token? = some t →
          (t.isQuoted = true ↔ piece.isQuoted = true) ∧
            (piece.isQuoted = true → t.toList.count quote = 2)) ∧
    ∀ f, scan line = .error f →
      ∃ front after, line.toList = front ++ quote :: after ∧ quote ∉ after ∧
        f = .unterminatedText front.length := by
  refine ⟨fun ts hlayout => ?_, fun ts hscan => ⟨exists_reads hscan, fun pieces hreads => ?_⟩,
    fun f hscan => ?_⟩
  · obtain ⟨pieces, hreads, htokens⟩ := hlayout.exists_reads
    rw [scan, hreads.scanFrom_eq, htokens]
  · have htokens : scan line = .ok (Piece.tokens pieces) := hreads.scanFrom_eq 0
    rw [hscan] at htokens
    exact ⟨Except.ok.inj htokens, hreads.isQuoted_iff⟩
  · obtain ⟨front, after, hline, hafter, hf⟩ := unclosed_of_scanFrom hscan
    refine ⟨front, after, hline, hafter, ?_⟩
    rw [hf, Nat.zero_add]

/-- A quote in a comment, a comment in quotes, and a parenthesis in a word: three tokens are found.
A quote that is never closed is found where it stands. -/
theorem scan_inverts_layout_mixed :
    Layout true ["2(", "\x22( a\x22", "+"] "2( ( \x22 ) \x22( a\x22 \\ ) \x22\n+".toList ∧
    scan "2( ( \x22 ) \x22( a\x22 \\ ) \x22\n+" = .ok ["2(", "\x22( a\x22", "+"] ∧
    scan "1 \x22oops" = .error (.unterminatedText 2) ∧
    ∃ front after, "1 \x22oops".toList = front ++ quote :: after ∧ quote ∉ after ∧
      Fault.unterminatedText 2 = .unterminatedText front.length := by
  have hlayout : Layout true ["2(", "\x22( a\x22", "+"]
      "2( ( \x22 ) \x22( a\x22 \\ ) \x22\n+".toList := by
    have hsecond : IsText "\x22( a\x22" := ⟨['(', ' ', 'a'], by decide, by decide⟩
    have hfirst : IsBare "2(" :=
      ⟨'2', ['('], by decide, by simp [Text.isBlank, Text.blankRanges], by decide, by decide,
        by decide⟩
    have hthird : IsBare "+" :=
      ⟨'+', [], by decide, by simp [Text.isBlank, Text.blankRanges], by decide, by decide,
        by decide⟩
    have hblank : Text.isBlank ' ' = true := by decide
    exact .token (.inr hfirst) <| .blank hblank <|
      @Layout.comment [' ', '\x22', ' '] _ _ (by decide) <| .blank hblank <|
      .token (.inl hsecond) <| .blank hblank <|
      @Layout.lineComment [' ', ')', ' ', '\x22'] _ _ (by decide) <|
      .token (.inr hthird) .nil
  have hstop : scan "1 \x22oops" = .error (.unterminatedText 2) := by decide +kernel
  exact ⟨hlayout, (scan_inverts_layout _).1 _ hlayout, hstop, (scan_inverts_layout _).2.2 _ hstop⟩

end StackLogic.Machine.Token
