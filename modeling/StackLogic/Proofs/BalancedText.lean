import StackLogic.Proofs.TopLevel

/-!
# Texts that can be told apart again

A text is balanced if it closes the quotes and brackets that it opens, and no others, and has no
comma outside of them. That is what the raw scans need to cross it at any depth and to come back to
the same depth (`isBalanced_iff_closed`). Such texts with commas between them are found again
(`commaJoined_injective`), also behind a name and inside of parentheses (`call_injective`): whatever
the name is, only one parenthesis has a balanced text behind it.
-/

namespace StackLogic.Horn.Source

open Lexeme (Crosses crosses_mark)

variable {q q' : Quote} {a b cs : List Char} {c : Char} {depth : Nat} {texts : List (List Char)}

/-! ## Balanced texts -/

/-- With `q` as the open quote and `depth` open brackets, the rest of a text closes all of them, and
has neither a comma nor a closing bracket outside. -/
def balancedFrom (q : Quote) (depth : Nat) : List Char → Bool
  | [] => q.isNone && depth == 0
  | c :: rest =>
    if q.isNone && depth == 0 && [',', ')', ']'].contains c then false
    else balancedFrom (q.next c) (if q.isNone then nest depth c else depth) rest

/-- The text closes what it opens, and has no comma outside. -/
def isBalanced (cs : List Char) : Bool := balancedFrom none 0 cs

/-- The raw scan crosses the text at any depth. -/
def Closed (cs : List Char) : Prop := ∀ depth, Crosses cs depth depth

theorem nest_add (outer : Nat) (h : depth = 0 → [',', ')', ']'].contains c = false) :
    nest (outer + depth) c = outer + nest depth c := by
  unfold nest
  split
  · rfl
  split
  next hclose =>
    have hdepth : depth ≠ 0 := by
      intro hzero
      have hc := h hzero
      rcases hclose with rfl | rfl <;> exact absurd hc (by decide)
    omega
  · rfl

/-- Brackets around a text change nothing in it, as long as it does not close them. -/
theorem advance_add (outer : Nat)
    (h : ¬ (q.isNone && depth == 0 && [',', ')', ']'].contains c) = true) :
    separates ',' q (outer + depth) c = false ∧ advance (q, outer + depth) c =
      (q.next c, outer + if q.isNone then nest depth c else depth) := by
  constructor
  · by_contra hcomma
    rw [Bool.not_eq_false] at hcomma
    obtain ⟨rfl, hstate⟩ := advance_of_separates (s := (q, outer + depth)) hcomma
    obtain ⟨rfl, hdepth⟩ := Prod.mk.inj hstate
    exact h (by simp [show depth = 0 by omega])
  · cases q with
    | some opened => rfl
    | none =>
      have hzero : depth = 0 → [',', ')', ']'].contains c = false := by
        rintro rfl
        simpa using h
      exact Prod.ext rfl (nest_add outer hzero)

/-- The check tells which texts the raw scan goes over without a comma and without a change of its
state. -/
theorem balancedFrom_iff :
    balancedFrom q depth cs = true ↔ ∀ outer, Unsplit (q, outer + depth) cs ∧
      stateAfter (q, outer + depth) cs = (none, outer) := by
  induction cs generalizing q depth with
  | nil =>
    rw [balancedFrom, Bool.and_eq_true, Option.isNone_iff_eq_none, beq_iff_eq]
    constructor
    · rintro ⟨rfl, rfl⟩ outer
      exact ⟨rfl, rfl⟩
    · intro h
      obtain ⟨hq, hdepth⟩ := Prod.mk.inj (h 0).2
      exact ⟨hq, by omega⟩
  | cons c rest ih =>
    rw [balancedFrom]
    split
    next houtside =>
      refine iff_of_false nofun fun h => ?_
      simp only [Bool.and_eq_true, Option.isNone_iff_eq_none, beq_iff_eq] at houtside
      obtain ⟨⟨rfl, rfl⟩, hc⟩ := houtside
      have hmark : c = ',' ∨ c = ')' ∨ c = ']' := by simpa using hc
      -- a comma divides the text; a bracket closes one of those around it, if there is any
      rcases hmark with rfl | hclose
      · exact absurd (unsplit_cons.1 (h 0).1).1 (by decide)
      · have hnest : ∀ outer, advance (none, outer) c = (none, outer - 1) := by
          rcases hclose with rfl | rfl <;> exact fun _ => rfl
        have hnone : stateAfter (advance (none, 0) c) rest = (none, 0) := (h 0).2
        have hone : stateAfter (advance (none, 1) c) rest = (none, 1) := (h 1).2
        rw [hnest] at hnone hone
        cases hnone.symm.trans hone
    next hinside =>
      rw [ih]
      refine forall_congr' fun outer => ?_
      obtain ⟨hseparates, hadvance⟩ := advance_add outer hinside
      rw [unsplit_cons, hadvance]
      show _ ↔ _ ∧ stateAfter (advance (q, outer + depth) c) rest = (none, outer)
      rw [hadvance]
      simp [hseparates]

/-- A text passes the check exactly if the raw scan goes over it at every depth. -/
theorem isBalanced_iff_closed : isBalanced cs = true ↔ Closed cs := by
  rw [isBalanced, balancedFrom_iff]
  exact forall_congr' fun depth => ⟨fun h => ⟨h.1, h.2⟩, fun h => ⟨h.unsplit, h.state⟩⟩

/-! ## Joined texts -/

/-- The raw scans are in the same state before and after the text, at any depth. -/
def Balances (cs : List Char) : Prop := ∀ depth, stateAfter (none, depth) cs = (none, depth)

theorem Closed.balances (h : Closed cs) : Balances cs := fun depth => (h depth).state

theorem Balances.append (ha : Balances a) (hb : Balances b) : Balances (a ++ b) := by
  intro depth
  rw [stateAfter_append, ha, hb]

theorem crosses_append {depth' depth'' : Nat} (ha : Crosses a depth depth')
    (hb : Crosses b depth' depth'') : Crosses (a ++ b) depth depth'' := by
  refine ⟨?_, ?_⟩
  · rw [unsplit_append, ha.state]
    exact ⟨ha.unsplit, hb.unsplit⟩
  · rw [stateAfter_append, ha.state, hb.state]

theorem commaJoined_eq_append (text : List Char) (h : texts ≠ []) :
    commaJoined (text :: texts) = text ++ ([',', ' '] ++ commaJoined texts) :=
  commaJoined_cons h

/-- Closed texts with commas between them leave the state as it was. -/
theorem balances_commaJoined (h : ∀ text ∈ texts, Closed text) : Balances (commaJoined texts) := by
  have hcomma : Balances [',', ' '] := fun _ => rfl
  induction texts with
  | nil => exact fun _ => rfl
  | cons text others ih =>
    obtain ⟨htext, hothers⟩ := List.forall_mem_cons.1 h
    by_cases hlast : others = []
    · rw [hlast, commaJoined_singleton]
      exact htext.balances
    · rw [commaJoined_eq_append text hlast]
      exact htext.balances.append (hcomma.append (ih hothers))

/-- Inside of brackets no comma divides the text. -/
theorem crosses_commaJoined (h : ∀ text ∈ texts, Closed text) (depth : Nat) :
    Crosses (commaJoined texts) (depth + 1) (depth + 1) := by
  have hcomma : Crosses [',', ' '] (depth + 1) (depth + 1) := ⟨rfl, rfl⟩
  induction texts with
  | nil => exact ⟨rfl, rfl⟩
  | cons text others ih =>
    obtain ⟨htext, hothers⟩ := List.forall_mem_cons.1 h
    by_cases hlast : others = []
    · rw [hlast, commaJoined_singleton]
      exact htext _
    · rw [commaJoined_eq_append text hlast]
      exact crosses_append (htext _) (crosses_append hcomma (ih hothers))

/-- In brackets, the commas between closed texts do not count. -/
theorem closed_brackets (h : ∀ text ∈ texts, Closed text) :
    Closed ('[' :: (commaJoined texts ++ [']'])) := by
  intro depth
  have hopen : Crosses ['['] depth (depth + 1) := crosses_mark (l := .openBracket) rfl nofun
  have hclose : Crosses [']'] (depth + 1) depth := crosses_mark (l := .closeBracket) rfl nofun
  exact crosses_append hopen (crosses_append (crosses_commaJoined h depth) hclose)

/-- In parentheses, the commas between closed texts do not count. -/
theorem closed_parens {name : List Char} (hname : Closed name) (h : ∀ text ∈ texts, Closed text) :
    Closed (name ++ '(' :: (commaJoined texts ++ [')'])) := by
  intro depth
  have hopen : Crosses ['('] depth (depth + 1) := crosses_mark (l := .openParen) rfl nofun
  have hclose : Crosses [')'] (depth + 1) depth := crosses_mark (l := .closeParen) rfl nofun
  have hinner := crosses_append (crosses_commaJoined h depth) hclose
  exact crosses_append (hname depth) (crosses_append hopen hinner)

/-- The pieces of a text that starts with a closed one. -/
theorem pieces_commaJoined_cons {text : List Char} (h : Closed text) (others : List (List Char)) :
    (pieces ',' none 0 (commaJoined (text :: others))).1 = text ∧
      ((pieces ',' none 0 (commaJoined (text :: others))).2 = [] ↔ others = []) := by
  by_cases hlast : others = []
  · have hwhole : pieces ',' none 0 text = (text, []) := (h 0).unsplit
    rw [hlast, commaJoined_singleton, hwhole]
    simp
  · have hpieces := pieces_append_comma (h 0).unsplit (h 0).state (' ' :: commaJoined others)
    rw [commaJoined_cons hlast, hpieces]
    simp [hlast]

/-- Closed texts are found again after they have been joined. -/
theorem commaJoined_injective {texts' : List (List Char)} (htexts : ∀ text ∈ texts, Closed text)
    (htexts' : ∀ text ∈ texts', Closed text) (hne : texts ≠ []) (hne' : texts' ≠ [])
    (h : commaJoined texts = commaJoined texts') : texts = texts' := by
  induction texts generalizing texts' with
  | nil => exact absurd rfl hne
  | cons text others ih =>
    cases texts' with
    | nil => exact absurd rfl hne'
    | cons text' others' =>
      obtain ⟨htext, hothers⟩ := List.forall_mem_cons.1 htexts
      obtain ⟨htext', hothers'⟩ := List.forall_mem_cons.1 htexts'
      obtain ⟨hfirst, hlast⟩ := pieces_commaJoined_cons htext others
      obtain ⟨hfirst', hlast'⟩ := pieces_commaJoined_cons htext' others'
      rw [h] at hfirst hlast
      obtain rfl : text = text' := hfirst.symm.trans hfirst'
      have hiff : others = [] ↔ others' = [] := hlast.symm.trans hlast'
      by_cases hnil : others = []
      · rw [hnil, hiff.1 hnil]
      · have hnil' : others' ≠ [] := hiff.not.1 hnil
        rw [commaJoined_eq_append _ hnil, commaJoined_eq_append _ hnil'] at h
        have hrest := List.append_cancel_left (List.append_cancel_left h)
        rw [ih hothers hothers' hnil hnil' hrest]

/-! ## Texts in parentheses -/

/-- Each character permutes the open quotes. -/
theorem Quote.next_injective (hq : q.Proper) (hq' : q'.Proper) (h : q.next c = q'.next c) :
    q = q' := by
  have hquote : ∀ x, q = some x ∨ q' = some x → isQuote x = true := by
    rintro x (hx | hx)
    · exact hq x hx
    · exact hq' x hx
  unfold Quote.next at h
  grind

/-- The state of the quotes at the end of a text tells the one at its start. -/
theorem Quote.after_injective (hq : q.Proper) (hq' : q'.Proper) (h : q.after cs = q'.after cs) :
    q = q' := by
  induction cs generalizing q q' with
  | nil => exact h
  | cons c rest ih => exact Quote.next_injective hq hq' (ih (hq.next c) (hq'.next c) h)

/-- A balanced text does not end with an open parenthesis and a balanced text. -/
theorem Balances.not_append (hcs : Balances cs) : ¬ Balances (a ++ '(' :: cs) := by
  intro h
  have hproper : Quote.Proper (stateAfter (none, 0) a).1 := Quote.proper_none.stateAfter a
  have hwhole := h 0
  rw [stateAfter_append] at hwhole
  change stateAfter (advance (stateAfter (none, 0) a) '(') cs = (none, 0) at hwhole
  -- quotes are permuted, so nothing but no quote comes back to no quote
  have hquote : (advance (stateAfter (none, 0) a) '(').1 = none := by
    have hafter : (advance (stateAfter (none, 0) a) '(').1.after cs = Quote.after none cs := by
      rw [← stateAfter_fst, hwhole, ← stateAfter_fst (none, 0), hcs]
    exact Quote.after_injective (hproper.next '(') Quote.proper_none hafter
  have hbefore : (stateAfter (none, 0) a).1 = none :=
    Quote.next_injective (c := '(') hproper Quote.proper_none hquote
  have hopen : advance (stateAfter (none, 0) a) '(' = (none, (stateAfter (none, 0) a).2 + 1) := by
    rw [advance, hbefore]
    rfl
  rw [hopen, hcs] at hwhole
  exact absurd (congrArg Prod.snd hwhole) (Nat.succ_ne_zero _)

/-- A name and the balanced text in parentheses after it can be told apart. -/
theorem call_injective {name name' : List Char} (ha : Balances a) (hb : Balances b)
    (h : name ++ '(' :: (a ++ [')']) = name' ++ '(' :: (b ++ [')'])) : name = name' ∧ a = b := by
  have hassoc : (name ++ '(' :: a) ++ [')'] = (name' ++ '(' :: b) ++ [')'] := by
    rwa [List.append_assoc, List.append_assoc, List.cons_append, List.cons_append]
  have hcancel : name ++ '(' :: a = name' ++ '(' :: b := List.append_cancel_right hassoc
  rcases List.append_eq_append_iff.1 hcancel with ⟨more, rfl, hmore⟩ | ⟨more, rfl, hmore⟩
  · cases more with
    | nil =>
      cases hmore
      exact ⟨(List.append_nil _).symm, rfl⟩
    | cons c more =>
      cases hmore
      exact absurd ha hb.not_append
  · cases more with
    | nil =>
      cases hmore
      exact ⟨List.append_nil _, rfl⟩
    | cons c more =>
      cases hmore
      exact absurd hb ha.not_append

end StackLogic.Horn.Source
