import StackLogic.Proofs.History

/-!
# Passes over a raw text

A line is taken apart by passes over its characters that know quotes only: one drops a comment, one
looks for the arrow. Each goes over a text in two parts as over the first part and then, in the
state it has reached, over the second. The states are given by `Quote.after` and `lastAfter`; blanks
do not change them.

`Passes` collects what a text needs so that both passes go over it and leave no trace: no comment,
no arrow, no quote left open.
-/

namespace StackLogic.Horn.Source

variable {q : Quote} {last : Option Char} {a b cs : List Char} {c x : Char}

/-! ## Comments -/

/-- The open quote after some characters. -/
def Quote.after (q : Quote) (cs : List Char) : Quote := cs.foldl Quote.next q

/-- The last character that is not blank. -/
def lastAfter (last : Option Char) (cs : List Char) : Option Char :=
  cs.foldl (fun last c => if Text.isBlank c then last else some c) last

/-- Quotes are followed through a text in two parts. -/
theorem Quote.after_append (q : Quote) (a b : List Char) :
    q.after (a ++ b) = (q.after a).after b := List.foldl_append

/-- Dropping a comment keeps the beginning of a text. -/
theorem dropComment_isPrefix (q : Quote) (last : Option Char) (cs : List Char) :
    dropComment q last cs <+: cs := by
  induction cs generalizing q last with
  | nil => exact List.prefix_refl _
  | cons c rest ih =>
    unfold dropComment
    split
    · exact List.nil_prefix
    · rw [List.cons_prefix_cons]
      exact ⟨rfl, ih _ _⟩

/-- A comment in two parts of a text is a comment in the first part, or in the second part from the
state on that is reached there. -/
theorem dropComment_append_eq_iff :
    dropComment q last (a ++ b) = a ++ b ↔
      dropComment q last a = a ∧ dropComment (q.after a) (lastAfter last a) b = b := by
  induction a generalizing q last with
  | nil => simp [dropComment, Quote.after, lastAfter]
  | cons c rest ih =>
    rw [List.cons_append, dropComment, dropComment]
    split
    · simp
    · rw [List.cons.injEq, List.cons.injEq, ih, and_assoc]
      rfl

/-- Behind a text without comments, comments are looked for in the state that it leaves. -/
theorem dropComment_append (h : dropComment q last a = a) (b : List Char) :
    dropComment q last (a ++ b) = a ++ dropComment (q.after a) (lastAfter last a) b := by
  induction a generalizing q last with
  | nil => rfl
  | cons c rest ih =>
    rw [dropComment] at h
    rw [List.cons_append, dropComment]
    split at h
    · cases h
    next hc =>
      rw [if_neg hc, ih (List.cons.inj h).2]
      rfl

/-- A comment is dropped once. -/
theorem dropComment_dropComment (q : Quote) (last : Option Char) (cs : List Char) :
    dropComment q last (dropComment q last cs) = dropComment q last cs := by
  induction cs generalizing q last with
  | nil => rfl
  | cons c rest ih =>
    by_cases hc : (q.isNone && c == '%' && (last == none || last == some '.')) = true
    · rw [dropComment, if_pos hc]
      rfl
    · rw [dropComment, if_neg hc, dropComment, if_neg hc, ih]

/-- A `%` after another character than `.` starts no comment. -/
theorem dropComment_cons (hx : x ≠ '.') (c : Char) (rest : List Char) :
    dropComment none (some x) (c :: rest) =
      c :: dropComment (Quote.next none c) (if Text.isBlank c then some x else some c) rest := by
  rw [dropComment, if_neg]
  simp [hx]

theorem Quote.next_none (h : isQuote c = false) : Quote.next none c = none := by
  simp [Quote.next, h]

theorem Quote.after_eq_none (h : ∀ c ∈ cs, isQuote c = false) :
    Quote.after none cs = none := by
  induction cs with
  | nil => rfl
  | cons c rest ih =>
    obtain ⟨hc, hrest⟩ := List.forall_mem_cons.1 h
    show Quote.after (Quote.next none c) rest = none
    rw [Quote.next_none hc, ih hrest]

theorem isQuote_of_isBlank (h : Text.isBlank c = true) : isQuote c = false := by
  by_contra hquote
  rw [Bool.not_eq_false, isQuote, Bool.or_eq_true, beq_iff_eq, beq_iff_eq] at hquote
  rcases hquote with rfl | rfl <;> exact absurd h (by decide)

/-! ### Blanks -/

theorem lastAfter_blank (h : ∀ c ∈ cs, Text.isBlank c = true) (last : Option Char) :
    lastAfter last cs = last := by
  induction cs with
  | nil => rfl
  | cons c rest ih =>
    obtain ⟨hc, hrest⟩ := List.forall_mem_cons.1 h
    show lastAfter (if Text.isBlank c then last else some c) rest = last
    rw [if_pos hc, ih hrest]

/-- Trimming takes blanks away at both ends. -/
theorem exists_trim (cs : List Char) :
    ∃ before after, cs = before ++ (Text.trim cs ++ after) ∧
      (∀ c ∈ before, Text.isBlank c = true) ∧ ∀ c ∈ after, Text.isBlank c = true := by
  have htrimEnd : ∀ ds : List Char, ∃ after, ds = Text.trimEnd ds ++ after ∧
      ∀ c ∈ after, Text.isBlank c = true := by
    intro ds
    refine ⟨(ds.reverse.takeWhile Text.isBlank).reverse, ?_, fun c hc => ?_⟩
    · rw [Text.trimEnd, ← List.reverse_append, List.takeWhile_append_dropWhile,
        List.reverse_reverse]
    · exact List.mem_takeWhile_imp (List.mem_reverse.1 hc)
  obtain ⟨after, hafter, hblank⟩ := htrimEnd (cs.dropWhile Text.isBlank)
  refine ⟨cs.takeWhile Text.isBlank, after, ?_, fun c hc => List.mem_takeWhile_imp hc, hblank⟩
  rw [Text.trim, ← hafter, List.takeWhile_append_dropWhile]

/-- What comes before does not matter for a comment, unless it is a `.`. -/
theorem dropComment_congr {y : Char} (hx : x ≠ '.') (hy : y ≠ '.') (cs : List Char) :
    dropComment none (some x) cs = dropComment none (some y) cs := by
  induction cs with
  | nil => rfl
  | cons c rest ih =>
    rw [dropComment_cons hx, dropComment_cons hy]
    by_cases hc : Text.isBlank c = true
    · rw [if_pos hc, if_pos hc, Quote.next_none (isQuote_of_isBlank hc), ih]
    · rw [if_neg hc, if_neg hc]

/-! ## The arrow -/

/-- Whether the pattern starts with the character `c` that `rest` follows. -/
def startsHere (pattern : List Char) (q : Quote) (c : Char) (rest : List Char) : Bool :=
  q.isNone && !isQuote c && pattern.isPrefixOf (c :: rest)

theorem startsHere_append {pattern rest : List Char} (h : startsHere pattern q c rest = true)
    (b : List Char) : startsHere pattern q c (rest ++ b) = true := by
  unfold startsHere at h ⊢
  rw [Bool.and_eq_true, List.isPrefixOf_iff_prefix] at h ⊢
  refine ⟨h.1, h.2.trans ?_⟩
  rw [← List.cons_append]
  exact List.prefix_append _ _

theorem splitAt?_cons_eq_none {pattern rest : List Char} :
    splitAt? pattern q (c :: rest) = none ↔
      startsHere pattern q c rest = false ∧ splitAt? pattern (q.next c) rest = none := by
  rw [splitAt?, ← startsHere]
  cases startsHere pattern q c rest with
  | true => simp
  | false => simp

/-- A text without an arrow has none in its parts. -/
theorem splitAt?_append_eq_none {pattern : List Char} (h : splitAt? pattern q (a ++ b) = none) :
    splitAt? pattern q a = none ∧ splitAt? pattern (q.after a) b = none := by
  induction a generalizing q with
  | nil => exact ⟨rfl, h⟩
  | cons c rest ih =>
    obtain ⟨hstart, hmore⟩ := splitAt?_cons_eq_none.1 h
    obtain ⟨hrest, hb⟩ := ih hmore
    refine ⟨splitAt?_cons_eq_none.2 ⟨?_, hrest⟩, hb⟩
    rw [← Bool.not_eq_true] at hstart ⊢
    exact fun hc => hstart (startsHere_append hc b)

/-- The pattern is found at its first place outside of quotes. -/
theorem splitAt?_eq_some {pattern before found : List Char}
    (h : splitAt? pattern q cs = some (before, found)) :
    cs = before ++ found ∧ pattern <+: found ∧ q.after before = none ∧
      splitAt? pattern q before = none := by
  induction cs generalizing q before with
  | nil => cases h
  | cons c rest ih =>
    rw [splitAt?, ← startsHere] at h
    cases hstart : startsHere pattern q c rest with
    | true =>
      rw [hstart] at h
      cases h
      unfold startsHere at hstart
      simp only [Bool.and_eq_true, Option.isNone_iff_eq_none] at hstart
      exact ⟨rfl, List.isPrefixOf_iff_prefix.1 hstart.2, hstart.1.1, rfl⟩
    | false =>
      rw [hstart] at h
      obtain ⟨⟨before', found'⟩, hrest, heq⟩ := Option.map_eq_some_iff.1 h
      cases heq
      obtain ⟨rfl, hprefix, hquote, hbefore⟩ := ih hrest
      refine ⟨rfl, hprefix, hquote, splitAt?_cons_eq_none.2 ⟨?_, hbefore⟩⟩
      rw [← Bool.not_eq_true] at hstart ⊢
      exact fun hc => hstart (startsHere_append hc found)

theorem startsHere_arrow_cons (q : Quote) (c d : Char) (rest : List Char) :
    startsHere arrow q c (d :: rest) =
      (q.isNone && !isQuote c && (':' == c && '-' == d)) := by
  simp [startsHere, arrow, List.isPrefixOf]

/-- Where no arrow is found in the first part, the second part decides, unless the arrow might stand
on both. -/
theorem splitAt?_arrow_append (h : splitAt? arrow q a = none) (hb : b.head? ≠ some '-') :
    splitAt? arrow q (a ++ b) = (splitAt? arrow (q.after a) b).map (Prod.map (a ++ ·) id) := by
  induction a generalizing q with
  | nil =>
    show splitAt? arrow q b = (splitAt? arrow q b).map (Prod.map id id)
    simp
  | cons c rest ih =>
    obtain ⟨hstart, hrest⟩ := splitAt?_cons_eq_none.1 h
    have hstart' : startsHere arrow q c (rest ++ b) = false := by
      cases rest with
      | cons d more =>
        rw [startsHere_arrow_cons] at hstart
        rw [List.cons_append, startsHere_arrow_cons, hstart]
      | nil =>
        cases b with
        | nil => exact hstart
        | cons d more =>
          have hd : d ≠ '-' := fun heq => hb (by rw [heq, List.head?_cons])
          rw [List.nil_append, startsHere_arrow_cons]
          simp [hd.symm]
    rw [List.cons_append, splitAt?, ← startsHere, hstart', ih hrest, Option.map_map]
    rfl

/-! ## Texts that both passes go over -/

/-- Nothing in the text is a comment, an arrow or a quote that is left open. -/
structure Passes (cs : List Char) : Prop where
  quote : Quote.after none cs = none
  /-- No comment starts inside; at its beginning one might start after a `.` only. -/
  comment : ∀ x ≠ '.', dropComment none (some x) cs = cs
  arrow : splitAt? arrow none cs = none

theorem passes_nil : Passes [] := ⟨rfl, fun _ _ => rfl, rfl⟩

/-- A character that ends what is before it for both passes. -/
structure Divides (c : Char) : Prop where
  quote : isQuote c = false
  blank : Text.isBlank c = false
  percent : c ≠ '%'
  point : c ≠ '.'
  colon : c ≠ ':'
  minus : c ≠ '-'

/-- A character other than `:` does not start an arrow. -/
theorem splitAt?_arrow_cons (hc : c ≠ ':') (q : Quote) (rest : List Char) :
    splitAt? arrow q (c :: rest) =
      (splitAt? arrow (q.next c) rest).map (Prod.map (c :: ·) id) := by
  rw [splitAt?, if_neg]
  · rfl
  · simp [arrow, List.isPrefixOf, hc.symm]

/-- Texts that the passes go over may be put together with a dividing character. -/
theorem Passes.join (ha : Passes a) (hc : Divides c) (hb : Passes b) : Passes (a ++ c :: b) := by
  have hnext : Quote.next none c = none := Quote.next_none hc.quote
  refine ⟨?_, fun x hx => ?_, ?_⟩
  · rw [Quote.after_append, ha.quote]
    show Quote.after (Quote.next none c) b = none
    rw [hnext, hb.quote]
  · rw [dropComment_append (ha.comment x hx), ha.quote, dropComment,
      if_neg (by simp [hc.percent]), hnext, hc.blank]
    show a ++ c :: dropComment none (some c) b = a ++ c :: b
    rw [hb.comment c hc.point]
  · rw [splitAt?_arrow_append ha.arrow (by simpa using hc.minus), ha.quote,
      splitAt?_arrow_cons hc.colon, hnext, hb.arrow]
    rfl

theorem Passes.cons (hc : Divides c) (hb : Passes b) : Passes (c :: b) := passes_nil.join hc hb

theorem Passes.cons_blank (hc : Text.isBlank c = true) (hb : Passes b) : Passes (c :: b) := by
  have hnext : Quote.next none c = none := Quote.next_none (isQuote_of_isBlank hc)
  have hcolon : c ≠ ':' := by
    rintro rfl
    exact absurd hc (by decide)
  refine ⟨?_, fun x hx => ?_, ?_⟩
  · show Quote.after (Quote.next none c) b = none
    rw [hnext, hb.quote]
  · rw [dropComment_cons hx, hnext, if_pos hc, hb.comment x hx]
  · rw [splitAt?_arrow_cons hcolon, hnext, hb.arrow]
    rfl

/-- The passes go over text without quotes, comments and colons. -/
theorem passes_of_forall (h : ∀ c ∈ cs, isQuote c = false ∧ c ≠ '%' ∧ c ≠ ':') : Passes cs := by
  have hcomment : ∀ last, dropComment none last cs = cs := by
    induction cs with
    | nil => exact fun _ => rfl
    | cons c rest ih =>
      intro last
      obtain ⟨⟨hquote, hpercent, -⟩, hrest⟩ := List.forall_mem_cons.1 h
      rw [dropComment, if_neg (by simp [hpercent]), Quote.next_none hquote, ih hrest]
  have hboth : Quote.after none cs = none ∧ splitAt? arrow none cs = none := by
    clear hcomment
    induction cs with
    | nil => exact ⟨rfl, rfl⟩
    | cons c rest ih =>
      obtain ⟨⟨hquote, -, hcolon⟩, hrest⟩ := List.forall_mem_cons.1 h
      obtain ⟨hafter, harrow⟩ := ih hrest
      refine ⟨?_, ?_⟩
      · show Quote.after (Quote.next none c) rest = none
        rw [Quote.next_none hquote, hafter]
      · rw [splitAt?_arrow_cons hcolon, Quote.next_none hquote, harrow]
        rfl
  exact ⟨hboth.1, fun x _ => hcomment _, hboth.2⟩

/-- Inside of quotes nothing but the closing quote is noticed. -/
theorem after_of_quoted (h : x ∉ cs) : Quote.after (some x) cs = some x := by
  induction cs with
  | nil => rfl
  | cons c rest ih =>
    rw [List.mem_cons, not_or] at h
    show Quote.after (if c = x then none else some x) rest = some x
    rw [if_neg (Ne.symm h.1), ih h.2]

theorem dropComment_of_quoted (h : x ∉ cs) (last : Option Char) :
    dropComment (some x) last cs = cs := by
  induction cs generalizing last with
  | nil => rfl
  | cons c rest ih =>
    rw [List.mem_cons, not_or] at h
    have hnext : Quote.next (some x) c = some x := if_neg (Ne.symm h.1)
    rw [dropComment, if_neg (by simp), hnext, ih h.2]

theorem splitAt?_of_quoted (h : x ∉ cs) : splitAt? arrow (some x) cs = none := by
  induction cs with
  | nil => rfl
  | cons c rest ih =>
    rw [List.mem_cons, not_or] at h
    have hnext : Quote.next (some x) c = some x := if_neg (Ne.symm h.1)
    rw [splitAt?, if_neg (by simp), hnext, ih h.2]
    rfl

/-- The passes go over a string without quotes inside. -/
theorem passes_quoted (h : '\x22' ∉ cs) : Passes ('\x22' :: (cs ++ ['\x22'])) := by
  refine ⟨?_, fun y hy => ?_, ?_⟩
  · show Quote.after (some '\x22') (cs ++ ['\x22']) = none
    rw [Quote.after_append, after_of_quoted h]
    rfl
  · rw [dropComment_cons hy]
    show _ :: dropComment (some '\x22') (some '\x22') _ = _
    rw [dropComment_append (dropComment_of_quoted h _), after_of_quoted h]
    rfl
  · rw [splitAt?_arrow_cons (by decide)]
    show (splitAt? arrow (some '\x22') _).map _ = none
    rw [splitAt?_arrow_append (splitAt?_of_quoted h) (by decide), after_of_quoted h]
    rfl

end StackLogic.Horn.Source
