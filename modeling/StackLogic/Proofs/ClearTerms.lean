import StackLogic.Proofs.BalancedText
import StackLogic.Proofs.ShortestDigits

/-!
# Terms that are told by their texts

A term is clear if its text tells what it is (`Term.isClear`): the texts of its atoms and strings are
balanced, no atom looks like a term of another kind, and floating-point numbers have a point. Clear
terms with the same text are the same (`display_injective`), and so are the names and the arguments
of compound terms with clear arguments (`displayHead_injective`). Without quoted atoms, escapes and
floating-point numbers every term is clear (`Spells.shown`), so that compound terms which are written
like this are told apart by their texts (`SpellsHead.displayHead_injective`).
-/

namespace StackLogic.Horn

open Source Lexeme

variable {cs : List Char} {c : Char} {t u : Term} {as bs : List Term} {f g : String}

/-! ## Kinds of terms -/

/-- The kinds of terms. -/
inductive Form where
  | variable
  | number
  | string
  | list
  | word
  deriving DecidableEq

/-- Digits, with or without a point among them. -/
def isUnsigned (cs : List Char) : Bool :=
  cs.any Char.isDigit && cs.all fun c => c.isDigit || c == '.'

/-- The text looks like a number. -/
def isNumeral : List Char → Bool
  | '-' :: rest => isUnsigned rest
  | cs => isUnsigned cs

/-- The kind of term that a text looks like. -/
def formOf (cs : List Char) : Form :=
  if cs.head? = some '\x22' ∧ cs.getLast? = some '\x22' then .string
  else if cs.head? = some '[' ∧ cs.getLast? = some ']' then .list
  else if isVariableName cs then .variable
  else if isNumeral cs then .number
  else .word

namespace Term

/-- The kind of a term. -/
def form : Term → Form
  | var _ => .variable
  | atom _ => .word
  | num _ => .number
  | str _ => .string
  | list _ => .list

mutual

/-- The text of the term tells which term it is. A list with nothing but the atom without a name
would look like the empty list. -/
def isClear : Term → Bool
  | var _ => true
  | atom name => isBalanced name.toList && formOf name.toList == .word
  | num (.int _) => true
  | num (.float x) => (Decimal.pointed x).toList.contains '.'
  | str s => isBalanced (str s).display.toList
  | list items => isClearAll items && displayAll items != [""]

/-- All of the terms are clear. -/
def isClearAll : List Term → Bool
  | [] => true
  | t :: rest => t.isClear && isClearAll rest

end

theorem isClearAll_iff {ts : List Term} :
    isClearAll ts = true ↔ ∀ t ∈ ts, t.isClear = true := by
  induction ts with
  | nil => simp [isClearAll]
  | cons t rest ih => simp [isClearAll, ih]

/-- The variables of the term have names that can be written. -/
def Written (t : Term) : Prop := ∀ x ∈ t.variableNames, isVariableName x.toList = true

theorem written_var {name : String} (h : (var name).Written) :
    isVariableName name.toList = true :=
  h name (mem_variableNames_var.2 rfl)

theorem written_of_mem {items : List Term} (h : (list items).Written) (ht : t ∈ items) :
    t.Written :=
  fun x hx => h x (mem_variableNames_list.2 ⟨t, ht, hx⟩)

end Term

/-! ### Variables -/

theorem isNameChar_of_isVariableName (h : isVariableName cs = true) :
    ∀ x ∈ cs, isNameChar x = true := by
  cases cs with
  | nil => exact List.forall_mem_nil _
  | cons c rest =>
    rw [isVariableName, Bool.and_eq_true, List.all_eq_true] at h
    exact List.forall_mem_cons.2 ⟨(isUpper_cases h.1).2.2, h.2⟩

theorem not_mem_noticed_of_isNameChar (h : isNameChar c = true) : c ∉ noticed :=
  not_mem_noticed (by decide) h

theorem ne_of_not_mem_noticed (h : c ∉ noticed) : c ≠ '\x22' ∧ c ≠ '[' := by
  constructor
  · rintro rfl
    exact h (by decide)
  · rintro rfl
    exact h (by decide)

/-- The text of a variable is told from all others by its first character. -/
theorem formOf_variable (h : isVariableName cs = true) : formOf cs = .variable := by
  cases cs with
  | nil => cases h
  | cons c rest =>
    have hname := isNameChar_of_isVariableName h c List.mem_cons_self
    obtain ⟨hquote, hbracket⟩ := ne_of_not_mem_noticed (not_mem_noticed_of_isNameChar hname)
    simp [formOf, hquote, hbracket, h]

/-! ### Numbers -/

/-- The sign of an integer and its digits. -/
theorem toList_toString_int (n : Int) :
    (toString n).toList = (Decimal.sign (decide (n < 0))).toList ++ Nat.toDigits 10 n.natAbs := by
  rcases Int.natAbs_eq n with hn | hn
  · have hsign : decide (n < 0) = false := by
      rw [decide_eq_false_iff_not]
      omega
    rw [hsign]
    nth_rewrite 1 [hn]
    exact toList_toString_natCast n.natAbs
  · by_cases hzero : n.natAbs = 0
    · rw [Int.natAbs_eq_zero] at hzero
      rw [hzero]
      rfl
    · have hsign : decide (n < 0) = true := by
        rw [decide_eq_true_iff]
        omega
      rw [hsign]
      nth_rewrite 1 [hn]
      exact toList_toString_neg hzero

theorem digits_toDigits (k : Nat) : Decimal.Digits (Nat.toDigits 10 k) := by
  obtain ⟨c, hc⟩ := List.exists_mem_of_ne_nil _ (Nat.toDigits_ne_nil (b := 10) (n := k))
  exact ⟨fun c hc => .inl (isDigit_of_mem_toDigits hc), c, hc, isDigit_of_mem_toDigits hc⟩

/-- A clear number is shown by its sign and digits. -/
theorem exists_digits_of_isClear {n : Number} (h : (Term.num n).isClear = true) :
    ∃ negative cs, n.display.toList = (Decimal.sign negative).toList ++ cs ∧ Decimal.Digits cs := by
  cases n with
  | int n => exact ⟨_, _, toList_toString_int n.toInt, digits_toDigits _⟩
  | float x =>
    have hpoint : '.' ∈ (Decimal.pointed x).toList := by simpa [Term.isClear] using h
    obtain ⟨negative, m, q, cs, v, -, htext, hdenotes, -⟩ := Decimal.exists_of_pointed hpoint
    exact ⟨negative, cs, htext, hdenotes.toDigits⟩

theorem isNumeral_sign (negative : Bool) (h : Decimal.Digits cs) :
    isNumeral ((Decimal.sign negative).toList ++ cs) = true := by
  have hunsigned : isUnsigned cs = true := by
    simp only [isUnsigned, Bool.and_eq_true, List.any_eq_true, List.all_eq_true, Bool.or_eq_true,
      beq_iff_eq]
    exact ⟨h.exists_digit, h.digit_or_point⟩
  cases negative with
  | true => exact hunsigned
  | false =>
    show isNumeral cs = true
    unfold isNumeral
    split
    next => exact absurd List.mem_cons_self h.ne_minus
    next => exact hunsigned

/-- No character of a number starts a name, or is a quote, a bracket or a comma. -/
theorem forall_mem_sign (negative : Bool) (h : Decimal.Digits cs) :
    ∀ c ∈ (Decimal.sign negative).toList ++ cs,
      (c.isUpper || c == '_') = false ∧ c ∉ noticed := by
  have hmarks : ∀ c, c = '-' ∨ c = '.' → (c.isUpper || c == '_') = false ∧ c ∉ noticed := by
    rintro c (rfl | rfl) <;> decide
  intro c hc
  rcases List.mem_append.1 hc with hc | hc
  · cases negative with
    | true => exact hmarks c (.inl (List.mem_singleton.1 hc))
    | false => cases hc
  · rcases h.digit_or_point c hc with hdigit | hpoint
    · refine ⟨?_, not_mem_noticed (by decide) hdigit⟩
      by_contra hupper
      rw [Bool.not_eq_false] at hupper
      cases (isUpper_cases hupper).1.symm.trans hdigit
    · exact hmarks c (.inr hpoint)

/-- The text of a number starts with a digit, which may have a sign before it. -/
theorem formOf_number (negative : Bool) (h : Decimal.Digits cs) :
    formOf ((Decimal.sign negative).toList ++ cs) = .number := by
  have hnumeral := isNumeral_sign negative h
  have hchars := forall_mem_sign negative h
  cases htext : (Decimal.sign negative).toList ++ cs with
  | nil =>
    rw [htext] at hnumeral
    cases hnumeral
  | cons c rest =>
    rw [htext] at hnumeral hchars
    obtain ⟨hupper, hnoticed⟩ := hchars c List.mem_cons_self
    obtain ⟨hquote, hbracket⟩ := ne_of_not_mem_noticed hnoticed
    simp [formOf, hquote, hbracket, isVariableName, hupper, hnumeral]

/-! ## Clear terms -/

/-- The text of a clear term looks like what the term is. -/
theorem formOf_display (hclear : t.isClear = true) (hwritten : t.Written) :
    formOf t.display.toList = t.form := by
  cases t with
  | var name =>
    have hname := Term.written_var hwritten
    rw [Term.display, displayVariable_eq_self (hash_not_mem_of_isVariableName hname)]
    exact formOf_variable hname
  | atom name =>
    rw [Term.isClear, Bool.and_eq_true, beq_iff_eq] at hclear
    exact hclear.2
  | num n =>
    obtain ⟨negative, cs, htext, hdigits⟩ := exists_digits_of_isClear hclear
    rw [Term.display, htext]
    exact formOf_number negative hdigits
  | str s =>
    have htext : (Term.str s).display.toList = '\x22' :: (s.toList ++ ['\x22']) := by
      simp [Term.display]
    rw [htext, formOf, if_pos (by simp [List.getLast?_cons])]
    rfl
  | list items =>
    rw [toList_display_list, formOf, if_neg (by simp), if_pos (by simp [List.getLast?_cons])]
    rfl

/-- The text of a clear term is closed. -/
theorem closed_display (hclear : t.isClear = true) (hwritten : t.Written) :
    Closed t.display.toList := by
  induction t with
  | var name =>
    have hname := Term.written_var hwritten
    rw [Term.display, displayVariable_eq_self (hash_not_mem_of_isVariableName hname)]
    exact crosses_plain fun c hc =>
      not_mem_noticed_of_isNameChar (isNameChar_of_isVariableName hname c hc)
  | atom name =>
    rw [Term.isClear, Bool.and_eq_true] at hclear
    exact isBalanced_iff_closed.1 hclear.1
  | num n =>
    obtain ⟨negative, cs, htext, hdigits⟩ := exists_digits_of_isClear hclear
    rw [Term.display, htext]
    exact crosses_plain fun c hc => (forall_mem_sign negative hdigits c hc).2
  | str s =>
    rw [Term.isClear] at hclear
    exact isBalanced_iff_closed.1 hclear
  | list items ih =>
    rw [Term.isClear, Bool.and_eq_true, Term.isClearAll_iff] at hclear
    rw [toList_display_list]
    refine closed_brackets fun text htext => ?_
    obtain ⟨item, hitem, rfl⟩ := List.mem_map.1 htext
    exact ih item hitem (hclear.1 item hitem) (Term.written_of_mem hwritten hitem)

/-- Clear numbers with the same text are the same; a float has a point in its text. -/
theorem Number.display_injective {m n : Number} (hm : (Term.num m).isClear = true)
    (hn : (Term.num n).isClear = true) (h : m.display = n.display) : m = n := by
  have hint : ∀ k : Int64, '.' ∉ (toString k.toInt).toList := by
    intro k hpoint
    rw [toList_toString_int, List.mem_append] at hpoint
    rcases hpoint with hsign | hdigit
    · revert hsign
      cases decide (k.toInt < 0) <;> decide
    · exact absurd (isDigit_of_mem_toDigits hdigit) (by decide)
  cases m with
  | int a =>
    cases n with
    | int b =>
      have htext := congrArg String.toList h
      simp only [Number.display, toList_toString_int] at htext
      obtain ⟨hsign, hdigits⟩ := Decimal.sign_append_inj (digits_toDigits _).ne_minus
        (digits_toDigits _).ne_minus htext
      have habs : a.toInt.natAbs = b.toInt.natAbs := by
        rw [← ofDigits_toDigits a.toInt.natAbs, hdigits, ofDigits_toDigits]
      have heq : a.toInt = b.toInt := by
        rw [decide_eq_decide] at hsign
        omega
      rw [Int64.toInt_inj.1 heq]
    | float y =>
      have hpoint : '.' ∈ (Decimal.pointed y).toList := by simpa [Term.isClear] using hn
      exact absurd (h ▸ hpoint : '.' ∈ (Number.int a).display.toList) (hint a)
  | float x =>
    have hpoint : '.' ∈ (Decimal.pointed x).toList := by simpa [Term.isClear] using hm
    cases n with
    | int b => exact absurd (h ▸ hpoint : '.' ∈ (Number.int b).display.toList) (hint b)
    | float y => rw [Decimal.pointed_injective hpoint h]

/-- Lists of terms that can be told apart by their texts. -/
theorem eq_of_map_display (hinj : ∀ t ∈ as, ∀ u ∈ bs, t.display = u.display → t = u)
    (h : as.map (fun t => t.display.toList) = bs.map fun t => t.display.toList) : as = bs := by
  induction as generalizing bs with
  | nil => exact (List.map_eq_nil_iff.1 h.symm).symm
  | cons t rest ih =>
    obtain ⟨u, rest', rfl, hu, hrest⟩ := List.map_eq_cons_iff.1 h.symm
    have hfirst : t = u :=
      hinj t List.mem_cons_self u List.mem_cons_self (String.toList_inj.1 hu.symm)
    have hothers : rest = rest' := by
      refine ih (fun t ht u hu => ?_) hrest.symm
      exact hinj t (List.mem_cons_of_mem _ ht) u (List.mem_cons_of_mem _ hu)
    rw [hfirst, hothers]

/-- Joined texts are empty if there are none, or if there is one and it is empty. -/
theorem commaJoined_eq_nil {texts : List (List Char)} (h : commaJoined texts = []) :
    texts = [] ∨ texts = [[]] := by
  cases texts with
  | nil => exact .inl rfl
  | cons text others =>
    by_cases hlast : others = []
    · rw [hlast, commaJoined_singleton] at h
      exact .inr (by rw [h, hlast])
    · rw [commaJoined_cons hlast] at h
      exact absurd h (by simp)

/-- Only the empty list is joined to nothing, if a single empty atom is left out. -/
theorem eq_nil_of_commaJoined (h : commaJoined (as.map fun t => t.display.toList) = [])
    (hempty : (Term.displayAll as != [""]) = true) : as = [] := by
  rcases commaJoined_eq_nil h with hnil | hone
  · exact List.map_eq_nil_iff.1 hnil
  · rw [bne_iff_ne] at hempty
    refine absurd ?_ hempty
    rw [Term.displayAll_eq_map]
    obtain ⟨t, rest, rfl, ht, hrest⟩ := List.map_eq_cons_iff.1 hone
    rw [List.map_eq_nil_iff.1 hrest, List.map_singleton, String.toList_eq_nil_iff.1 ht]

/-- The texts of clear terms are closed. -/
theorem closed_displays (hclear : ∀ t ∈ as, t.isClear = true) (hwritten : ∀ t ∈ as, t.Written) :
    ∀ text ∈ as.map (fun t => t.display.toList), Closed text := by
  intro text htext
  obtain ⟨t, ht, rfl⟩ := List.mem_map.1 htext
  exact closed_display (hclear t ht) (hwritten t ht)

/-- Clear terms with the same text are the same. -/
theorem display_injective (ht : t.isClear = true) (hu : u.isClear = true) (htw : t.Written)
    (huw : u.Written) (h : t.display = u.display) : t = u := by
  have hform : t.form = u.form := by
    rw [← formOf_display ht htw, h, formOf_display hu huw]
  induction t generalizing u with
  | var x =>
    cases u with
    | var y =>
      rw [Term.display, Term.display,
        displayVariable_eq_self (hash_not_mem_of_isVariableName (Term.written_var htw)),
        displayVariable_eq_self (hash_not_mem_of_isVariableName (Term.written_var huw))] at h
      rw [h]
    | _ => cases hform
  | atom a =>
    cases u with
    | atom c =>
      rw [Term.display, Term.display] at h
      rw [h]
    | _ => cases hform
  | num m =>
    cases u with
    | num n =>
      rw [Term.display, Term.display] at h
      rw [Number.display_injective ht hu h]
    | _ => cases hform
  | str r =>
    cases u with
    | str s =>
      have htexts := congrArg String.toList h
      simp only [Term.display, String.toList_append] at htexts
      rw [String.toList_inj.1 (List.append_cancel_left (List.append_cancel_right htexts))]
    | _ => cases hform
  | list xs ih =>
    cases u with
    | list ys =>
      rw [Term.isClear, Bool.and_eq_true, Term.isClearAll_iff] at ht hu
      have hxw := fun x hx => Term.written_of_mem (t := x) htw hx
      have hyw := fun y hy => Term.written_of_mem (t := y) huw hy
      have htexts := congrArg String.toList h
      rw [toList_display_list, toList_display_list, List.cons.injEq] at htexts
      have hjoined := List.append_cancel_right htexts.2
      by_cases hxs : xs = []
      · rw [hxs] at hjoined
        rw [hxs, eq_nil_of_commaJoined hjoined.symm hu.2]
      by_cases hys : ys = []
      · rw [hys] at hjoined
        rw [hys, eq_nil_of_commaJoined hjoined ht.2]
      have hmap := commaJoined_injective (closed_displays ht.1 hxw) (closed_displays hu.1 hyw)
        (by simpa using hxs) (by simpa using hys) hjoined
      refine congrArg Term.list (eq_of_map_display (fun x hx y hy hxy => ?_) hmap)
      refine ih x hx (ht.1 x hx) (hu.1 y hy) (hxw x hx) (hyw y hy) hxy ?_
      rw [← formOf_display (ht.1 x hx) (hxw x hx), hxy, formOf_display (hu.1 y hy) (hyw y hy)]
    | _ => cases hform

/-- Compound terms with clear arguments and the same text have the same name and arguments. -/
theorem displayHead_injective (has : as ≠ []) (hbs : bs ≠ [])
    (hclear : ∀ t ∈ as, t.isClear = true) (hclear' : ∀ t ∈ bs, t.isClear = true)
    (hwritten : ∀ t ∈ as, t.Written) (hwritten' : ∀ t ∈ bs, t.Written)
    (h : Term.displayHead f as = Term.displayHead g bs) : f = g ∧ as = bs := by
  have hclosed := closed_displays hclear hwritten
  have hclosed' := closed_displays hclear' hwritten'
  have htexts := congrArg String.toList h
  rw [toList_displayHead has, toList_displayHead hbs] at htexts
  obtain ⟨hname, hjoined⟩ := call_injective (balances_commaJoined hclosed)
    (balances_commaJoined hclosed') htexts
  have hmap := commaJoined_injective hclosed hclosed' (by simpa using has) (by simpa using hbs)
    hjoined
  refine ⟨String.toList_inj.1 hname, eq_of_map_display (fun t ht u hu htu => ?_) hmap⟩
  exact display_injective (hclear t ht) (hclear' u hu) (hwritten t ht) (hwritten' u hu) htu

/-! ## Plain terms -/

theorem formOf_word {rest : List Char} (hnoticed : c ∉ noticed)
    (hupper : (c.isUpper || c == '_') = false) (hnumeral : isNumeral (c :: rest) = false) :
    formOf (c :: rest) = .word := by
  obtain ⟨hquote, hbracket⟩ := ne_of_not_mem_noticed hnoticed
  simp [formOf, hquote, hbracket, isVariableName, hupper, hnumeral]

/-- A text that starts with a small letter is no term of another kind. -/
theorem formOf_lower {rest : List Char} (hc : c.isLower = true) : formOf (c :: rest) = .word := by
  obtain ⟨hdigit, hupper, -, hname⟩ := isLower_cases hc
  refine formOf_word (not_mem_noticed_of_isNameChar hname) hupper ?_
  unfold isNumeral
  split
  next heq =>
    cases heq
    exact absurd hc (by decide)
  next =>
    have hpoint : c ≠ '.' := by
      rintro rfl
      exact absurd hc (by decide)
    simp [isUnsigned, hdigit, hpoint]

/-- Neither is a run of operator characters. -/
theorem formOf_symbol (hcs : ∀ x ∈ cs, isSymbolChar x = true) (hne : cs ≠ []) :
    formOf cs = .word := by
  have hunsigned : ∀ more : List Char, (∀ x ∈ more, isSymbolChar x = true) →
      isUnsigned more = false := by
    intro more hmore
    have hany : more.any Char.isDigit = false := by
      rw [List.any_eq_false]
      intro x hx
      simp [(isSymbolChar_cases (hmore x hx)).2.2.1]
    rw [isUnsigned, hany, Bool.false_and]
  obtain ⟨c, rest, rfl⟩ := List.exists_cons_of_ne_nil hne
  have hc := hcs c List.mem_cons_self
  refine formOf_word (not_mem_noticed (by decide) hc) (isSymbolChar_cases hc).2.2.2.1 ?_
  unfold isNumeral
  split
  next more heq =>
    cases heq
    exact hunsigned _ fun x hx => hcs x (List.mem_cons_of_mem _ hx)
  next => exact hunsigned _ hcs

/-- An atom whose text is closed and looks like a word is clear. -/
theorem isClear_atom {name : String} (hclosed : Closed name.toList)
    (hform : formOf name.toList = .word) : (Term.atom name).isClear = true := by
  rw [Term.isClear, Bool.and_eq_true, beq_iff_eq]
  exact ⟨isBalanced_iff_closed.2 hclosed, hform⟩

/-- A clear term that is written and not shown by the empty text. -/
structure Term.Shown (t : Term) : Prop where
  isClear : t.isClear = true
  written : t.Written
  ne_empty : t.display ≠ ""

/-- Only an atom can have the empty text. -/
theorem shown_of_form (hclear : t.isClear = true) (hwritten : t.Written) (hform : t.form ≠ .word) :
    t.Shown := by
  refine ⟨hclear, hwritten, fun hempty => hform ?_⟩
  rw [← formOf_display hclear hwritten, hempty]
  rfl

theorem shown_var {name : String} (h : (Lexeme.variableName name).IsPlain) :
    (Term.var name).Shown := by
  obtain ⟨text, hwrites, -⟩ := h
  have hname : isVariableName name.toList = true := by
    rw [← hwrites.eq_toList rfl]
    cases hwrites with
    | variableName hc hrest =>
      rw [isVariableName, Bool.and_eq_true, List.all_eq_true]
      exact ⟨hc, hrest⟩
    | punctuation hc => exact (isMark_of_punctuation? hc).elim
  refine shown_of_form rfl (fun x hx => ?_) (by simp [Term.form])
  rw [Term.mem_variableNames_var.1 hx]
  exact hname

theorem shown_int (n : Int64) : (Term.num (.int n)).Shown :=
  shown_of_form rfl (by simp [Term.Written]) (by simp [Term.form])

theorem shown_str {s : String} (h : (Lexeme.str s).IsPlain) : (Term.str s).Shown := by
  obtain ⟨text, hwrites, -⟩ := h
  have htext : (Term.str s).display.toList = '\x22' :: (s.toList ++ ['\x22']) := by
    simp [Term.display]
  refine shown_of_form ?_ (by simp [Term.Written]) (by simp [Term.form])
  rw [Term.isClear, isBalanced_iff_closed, htext]
  cases hwrites with
  | str hquote _ =>
    rw [String.toList_ofList]
    exact crosses_enclosed rfl hquote
  | punctuation hc => exact (isMark_of_punctuation? hc).elim

theorem shown_symbol {s : String} (h : (Lexeme.symbol s).IsPlain) : (Term.atom s).Shown := by
  obtain ⟨text, hwrites, -⟩ := h
  have hchars : (∀ x ∈ text, isSymbolChar x = true) ∧ text ≠ [] := by
    cases hwrites with
    | symbol hchars => exact ⟨hchars, List.cons_ne_nil _ _⟩
    | punctuation hc => exact (isMark_of_punctuation? hc).elim
  rw [hwrites.eq_toList rfl] at hchars
  refine ⟨isClear_atom ?_ (formOf_symbol hchars.1 hchars.2), by simp [Term.Written], ?_⟩
  · exact crosses_plain fun x hx => not_mem_noticed (by decide) (hchars.1 x hx)
  · intro hempty
    exact hchars.2 (String.toList_eq_nil_iff.2 hempty)

/-- A name without quotes starts with a small letter and goes on with letters, digits and `_`. -/
theorem exists_lower_of_isPlain {name : String} (h : (Lexeme.atom name).IsPlain) :
    ∃ c rest, name.toList = c :: rest ∧ c.isLower = true ∧ Closed name.toList := by
  obtain ⟨text, hwrites, -⟩ := h
  rw [← hwrites.eq_toList rfl]
  cases hwrites with
  | @atom c rest hc hrest =>
    have hname : ∀ x ∈ c :: rest, isNameChar x = true :=
      List.forall_mem_cons.2 ⟨(isLower_cases hc).2.2.2, hrest⟩
    exact ⟨c, rest, rfl, hc, crosses_plain fun x hx => not_mem_noticed_of_isNameChar (hname x hx)⟩
  | punctuation hc => exact (isMark_of_punctuation? hc).elim

theorem shown_atom {name : String} {c : Char} {rest : List Char} (hclosed : Closed name.toList)
    (htext : name.toList = c :: rest) (hc : c.isLower = true) : (Term.atom name).Shown := by
  refine ⟨isClear_atom hclosed ?_, by simp [Term.Written], ?_⟩
  · rw [htext]
    exact formOf_lower hc
  · intro hempty
    cases htext.symm.trans (String.toList_eq_nil_iff.2 hempty)

/-- A list of shown terms is shown. -/
theorem shown_list {items : List Term} (h : ∀ t ∈ items, t.Shown) : (Term.list items).Shown := by
  refine shown_of_form ?_ (fun x hx => ?_) (by simp [Term.form])
  · rw [Term.isClear, Bool.and_eq_true, Term.isClearAll_iff, bne_iff_ne, Term.displayAll_eq_map]
    refine ⟨fun t ht => (h t ht).isClear, fun hempty => ?_⟩
    obtain ⟨t, rest, rfl, ht, -⟩ := List.map_eq_cons_iff.1 hempty
    exact (h t List.mem_cons_self).ne_empty ht
  · obtain ⟨t, ht, hxt⟩ := Term.mem_variableNames_list.1 hx
    exact (h t ht).written x hxt

/-- A compound term of shown terms is shown, as its text starts with a small letter. -/
theorem shown_compound {name : String} (hname : (Lexeme.atom name).IsPlain) (has : as ≠ [])
    (h : ∀ t ∈ as, t.Shown) : (Term.atom (Term.displayHead name as)).Shown := by
  obtain ⟨c, rest, htext, hc, hclosed⟩ := exists_lower_of_isPlain hname
  have hargs := closed_displays (fun t ht => (h t ht).isClear) fun t ht => (h t ht).written
  have hparens := closed_parens hclosed hargs
  rw [← toList_displayHead has] at hparens
  have hfirst : ∃ more, (Term.displayHead name as).toList = c :: more := by
    rw [toList_displayHead has, htext, List.cons_append]
    exact ⟨_, rfl⟩
  obtain ⟨more, hmore⟩ := hfirst
  exact shown_atom hparens hmore hc

/-- Every term that is spelled by plain lexemes is clear: only quotes, escapes and floating-point
numbers can make it look like another one. -/
theorem Spells.shown {ls : List Lexeme} (h : Spells ls t) (hplain : ∀ l ∈ ls, l.IsPlain) :
    t.Shown := by
  have hparts : ∀ {parts : List (List Lexeme × Term)},
      (∀ l ∈ commaSeparated (parts.map Prod.fst), l.IsPlain) →
      (∀ part ∈ parts, (∀ l ∈ part.1, l.IsPlain) → part.2.Shown) →
      ∀ t ∈ parts.map Prod.snd, t.Shown := by
    intro parts hplain hshown t ht
    obtain ⟨part, hpart, rfl⟩ := List.mem_map.1 ht
    exact hshown part hpart fun l hl => hplain l (subset_commaSeparated hpart hl)
  induction h with
  | var name => exact shown_var (hplain _ List.mem_cons_self)
  | int n => exact shown_int n
  | negInt n => exact shown_int (-n)
  | float x => exact absurd (hplain _ List.mem_cons_self) (not_isPlain_float x)
  | negFloat x => exact absurd (hplain (.float x) (by simp)) (not_isPlain_float x)
  | str s => exact shown_str (hplain _ List.mem_cons_self)
  | bang => exact ⟨by decide, by simp [Term.Written], by decide⟩
  | symbol s => exact shown_symbol (hplain _ List.mem_cons_self)
  | atom name =>
    obtain ⟨c, rest, htext, hc, hclosed⟩ := exists_lower_of_isPlain (hplain _ List.mem_cons_self)
    exact shown_atom hclosed htext hc
  | list h ih =>
    refine shown_list (hparts (fun l hl => hplain l ?_) ih)
    exact List.mem_cons_of_mem _ (List.mem_append_left _ hl)
  | compound hne h ih =>
    refine shown_compound (hplain _ List.mem_cons_self) (by simpa using hne)
      (hparts (fun l hl => hplain l ?_) ih)
    exact List.mem_cons_of_mem _ (List.mem_cons_of_mem _ (List.mem_append_left _ hl))

theorem SpellsHead.shown {ls : List Lexeme} (h : SpellsHead ls f as)
    (hplain : ∀ l ∈ ls, l.IsPlain) : ∀ t ∈ as, t.Shown := by
  cases h with
  | atom => exact List.forall_mem_nil _
  | compound hne h =>
    intro t ht
    obtain ⟨part, hpart, rfl⟩ := List.mem_map.1 ht
    refine (h part hpart).shown fun l hl => hplain l ?_
    exact List.mem_cons_of_mem _ (List.mem_cons_of_mem _
      (List.mem_append_left _ (subset_commaSeparated hpart hl)))

/-- Compound terms that are spelled by plain lexemes are told apart by their texts. -/
theorem SpellsHead.displayHead_injective {ls ls' : List Lexeme} (hf : SpellsHead ls f as)
    (hg : SpellsHead ls' g bs) (hplain : ∀ l ∈ ls, l.IsPlain) (hplain' : ∀ l ∈ ls', l.IsPlain)
    (has : as ≠ []) (hbs : bs ≠ []) (h : Term.displayHead f as = Term.displayHead g bs) :
    f = g ∧ as = bs := by
  have hshown := hf.shown hplain
  have hshown' := hg.shown hplain'
  exact Horn.displayHead_injective has hbs (fun t ht => (hshown t ht).isClear)
    (fun t ht => (hshown' t ht).isClear) (fun t ht => (hshown t ht).written)
    (fun t ht => (hshown' t ht).written) h

end StackLogic.Horn
