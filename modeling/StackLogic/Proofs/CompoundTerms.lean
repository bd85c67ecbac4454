import StackLogic.Proofs.WrittenTerms

/-!
# Compound terms that stay apart

A compound term is read as the atom that is named by its text, so two of them match if their texts
are the same. With clear arguments they have the same name and the same arguments then. If the
arguments are clear as they were written, at every depth, both terms were written alike
(`compound_terms_distinct`). What is written inside of quotes need not be clear: `f('a, b')` and
`f(a, b)` have the same text (`quoted_comma_merges_terms`).
-/

namespace StackLogic.Horn

open Source Lexeme

variable {t u : Term} {as bs : List Term} {f g : String}

/-! ## Reading -/

namespace Grammar

variable {text : String}

/-- Read a text that is one term. -/
def soleTerm (text : String) : Except ReadError Term := do
  let ts ← Tokens.ofString text
  whole term ts.finish ts.items

/-- The arguments of a head have variables from the text. -/
theorem written_of_clauseHead (h : clauseHead text = .ok (f, as)) : ∀ t ∈ as, t.Written := by
  obtain ⟨ts, p, hts, hp, -, hvalue⟩ := exists_of_clauseHead h
  have hover := (gives_head ts.finish (Tokens.namesOver_of_scanFrom hts) p hp).1
  rw [hvalue] at hover
  exact hover

/-- Where a head with arguments is read, a compound term can be read as well. -/
theorem term_of_head {finish : Nat} {ts : List Token} {p : Parsed (String × List Term) ts.length}
    (h : head finish ts = .ok p) (hargs : p.value.2 ≠ []) :
    term finish ts = .ok (p.map fun v => .atom (Term.displayHead v.1 v.2)) := by
  unfold head at h
  split at h
  next name position position' inner =>
    obtain ⟨q, hq, rfl⟩ := exists_of_map_eq_ok h
    rw [term, hq]
    rfl
  next =>
    cases h
    exact absurd rfl hargs
  next => cases h

/-- A text with arguments is read as a head and as the atom of its text. -/
theorem soleTerm_of_clauseHead (h : clauseHead text = .ok (f, as)) (has : as ≠ []) :
    soleTerm text = .ok (.atom (Term.displayHead f as)) := by
  obtain ⟨ts, p, hts, hp, hend, hvalue⟩ := exists_of_clauseHead h
  have hterm := term_of_head hp (by rwa [hvalue])
  rw [soleTerm, hts]
  show whole term ts.finish ts.items = _
  rw [whole, hterm]
  show (expectEnd ts.finish p.rest >>= _) = _
  rw [hend]
  show Except.ok (Term.atom (Term.displayHead p.value.1 p.value.2)) = _
  rw [hvalue]

end Grammar

/-! ## Matching -/

/-- Terms that unify one by one unify at each place. -/
theorem exists_of_unifyEach {step : Term → Term → Bindings → Option Bindings} {xs ys : List Term}
    {b : Bindings} {i : Nat} (h : (unifyEach step xs ys b).isSome = true) (ht : xs[i]? = some t)
    (hu : ys[i]? = some u) : ∃ b', (step t u b').isSome = true := by
  fun_induction unifyEach step xs ys b generalizing i with
  | case1 => cases ht
  | case2 x xs y ys b b' hstep ih =>
    cases i with
    | zero =>
      cases ht
      cases hu
      exact ⟨b, by rw [hstep]; rfl⟩
    | succ i => exact ih h ht hu
  | case3 => cases h
  | case4 => cases h

theorem eq_of_unifyWithin_atom {n : Nat} {b : Bindings}
    (h : (unifyWithin n (.atom f) (.atom g) b).isSome = true) : f = g := by
  cases n with
  | zero => cases h
  | succ n =>
    have hresolve : ∀ (k : Nat) (name : String), b.follow k (.atom name) = .atom name := by
      intro k name
      cases k <;> rfl
    rw [unifyWithin_succ ⟨rfl, rfl⟩, Bindings.resolve, Bindings.resolve, hresolve, hresolve] at h
    dsimp only at h
    split at h
    next hsame => simpa [Term.sameConstant] using hsame
    next => cases h

/-- A goal matches a head, and the two terms stand at the same place of their arguments. -/
def CanMatch (t u : Term) : Prop :=
  ∃ (goal head : List Term) (b : Bindings) (i : Nat),
    goal[i]? = some t ∧ head[i]? = some u ∧ (unifyAll goal head b).isSome = true

/-- Atoms match if they have the same name. -/
theorem CanMatch.eq (h : CanMatch (.atom f) (.atom g)) : f = g := by
  obtain ⟨goal, head, b, i, hgoal, hhead, hmatch⟩ := h
  obtain ⟨b', hstep⟩ := exists_of_unifyEach hmatch hgoal hhead
  exact eq_of_unifyWithin_atom hstep

namespace Grammar

variable {text text' : String}

theorem WrittenHead.clauseHead_eq {xs : List Tree} (h : WrittenHead text f xs) :
    clauseHead text = .ok (f, xs.map Tree.term) :=
  clauseHead_eq_ok_iff_writtenHead.2 ⟨xs, h, rfl⟩

/-- The arguments that are read are those of the trees that are written. -/
theorem WrittenHead.map_term {xs : List Tree} (h : WrittenHead text f xs)
    (hf : clauseHead text = .ok (f, as)) : xs.map Tree.term = as := by
  have hread := hf.symm.trans h.clauseHead_eq
  rw [Except.ok.injEq, Prod.mk.injEq] at hread
  exact hread.2.symm

end Grammar

/-! ## Terms of single letters -/

theorem showsHead_letter {c : Char} (h : c.isLower = true) :
    ShowsHead [c] [.atom (String.ofList [c])] := by
  refine showsHead_atom (.atom h (List.forall_mem_nil _)) (passes_of_forall ?_)
  refine List.forall_mem_singleton.2 ⟨isQuote_of_isNameChar (isLower_cases h).2.2.2, ?_, ?_⟩
  · rintro rfl
    exact absurd h (by decide)
  · rintro rfl
    exact absurd h (by decide)

/-- The text writes the head that its lexemes write. -/
theorem ShowsHead.writtenHead {text : String} {ls : List Lexeme} {xs : List Tree}
    (h : ShowsHead text.toList ls) (hwrites : WritesHead ls f xs) :
    Grammar.WrittenHead text f xs := by
  have hlexes := h.lexes true [] [] (by simp) .nil
  rw [List.append_nil] at hlexes
  exact ⟨ls, [], hlexes, hwrites, .inl rfl⟩

theorem shows_twoAtoms : Shows "a, b".toList [.atom "a", .comma, .atom "b"] :=
  (showsHead_letter (c := 'a') rfl).shows.comma (showsHead_letter (c := 'b') rfl).shows

theorem writes_twoAtoms :
    ∀ part ∈ [([Lexeme.atom "a"], Tree.atom "a"), ([.atom "b"], .atom "b")],
      Writes part.1 part.2 :=
  List.forall_mem_cons.2 ⟨.atom _, List.forall_mem_singleton.2 (.atom _)⟩

theorem writtenHead_twoAtoms : Grammar.WrittenHead "f(a, b)" "f" [.atom "a", .atom "b"] := by
  have hhead : ShowsHead "f(a, b)".toList
      [.atom "f", .openParen, .atom "a", .comma, .atom "b", .closeParen] :=
    (showsHead_letter (c := 'f') rfl).parens shows_twoAtoms
  exact hhead.writtenHead (.compound (by simp) writes_twoAtoms)

theorem writtenHead_oneList :
    Grammar.WrittenHead "f([a, b])" "f" [.list [.atom "a", .atom "b"]] := by
  have hhead : ShowsHead "f([a, b])".toList [.atom "f", .openParen, .openBracket, .atom "a", .comma,
      .atom "b", .closeBracket, .closeParen] :=
    (showsHead_letter (c := 'f') rfl).parens shows_twoAtoms.brackets
  have hlist : ∀ part ∈ [([Lexeme.openBracket, .atom "a", .comma, .atom "b", .closeBracket],
      Tree.list [.atom "a", .atom "b"])], Writes part.1 part.2 :=
    List.forall_mem_singleton.2 (.list writes_twoAtoms)
  exact hhead.writtenHead (.compound (by simp) hlist)

theorem writtenHead_quotedComma :
    Grammar.WrittenHead "f(\x27a, b\x27)" "f" [.atom "a, b"] := by
  have hscan : scan '\x27' "a, b\x27)".toList = .ok ⟨.atom "a, b", 6, [')']⟩ := by rfl
  have hquoted : Lexes false "\x27a, b\x27)".toList [.atom "a, b", .closeParen] :=
    .token (by decide) (by simp) hscan (.punctuation rfl .nil)
  have hlexes : Lexes true "f(\x27a, b\x27)".toList
      [.atom "f", .openParen, .atom "a, b", .closeParen] :=
    (showsHead_letter (c := 'f') rfl).lexes true _ _ (by rintro x ⟨⟩; rfl)
      (.punctuation rfl hquoted)
  have hparts : ∀ part ∈ [([Lexeme.atom "a, b"], Tree.atom "a, b")], Writes part.1 part.2 :=
    List.forall_mem_singleton.2 (.atom _)
  exact ⟨_, [], hlexes, .compound (by simp) hparts, .inl rfl⟩

/-! ## Distinct terms -/

open Grammar in
/-- Two compound terms are read as the atoms that are named by their texts. If all arguments that are
read are clear, the two atoms are the same, or stand at the same place of a goal and of a head that it
matches, only if the names and the arguments that are read are the same. Every text that is read is
also written with trees as its arguments, and if these are clear at every depth, this happens only if
both terms are written with the same name and the same trees. -/
theorem compound_terms_distinct {text text' : String} (hf : clauseHead text = .ok (f, as))
    (hg : clauseHead text' = .ok (g, bs)) (has : as ≠ []) (hbs : bs ≠ []) :
    (soleTerm text = .ok (.atom (Term.displayHead f as)) ∧
      soleTerm text' = .ok (.atom (Term.displayHead g bs))) ∧
    ((∀ t ∈ as, t.isClear = true) → (∀ t ∈ bs, t.isClear = true) →
      (Term.displayHead f as = Term.displayHead g bs → f = g ∧ as = bs) ∧
      (CanMatch (.atom (Term.displayHead f as)) (.atom (Term.displayHead g bs)) →
        f = g ∧ as = bs)) ∧
    (∃ xs ys, WrittenHead text f xs ∧ WrittenHead text' g ys) ∧
    ∀ xs ys, WrittenHead text f xs → WrittenHead text' g ys →
      (∀ x ∈ xs, x.isClear = true) → (∀ y ∈ ys, y.isClear = true) →
      (Term.displayHead f as = Term.displayHead g bs → f = g ∧ xs = ys) ∧
      (CanMatch (.atom (Term.displayHead f as)) (.atom (Term.displayHead g bs)) →
        f = g ∧ xs = ys) := by
  refine ⟨⟨soleTerm_of_clauseHead hf has, soleTerm_of_clauseHead hg hbs⟩,
    fun hclear hclear' => ?_, ?_, fun xs ys hxs hys hclear hclear' => ?_⟩
  · have hinjective : Term.displayHead f as = Term.displayHead g bs → f = g ∧ as = bs :=
      displayHead_injective has hbs hclear hclear' (written_of_clauseHead hf)
        (written_of_clauseHead hg)
    exact ⟨hinjective, fun hmatch => hinjective hmatch.eq⟩
  · obtain ⟨xs, hxs, -⟩ := clauseHead_eq_ok_iff_writtenHead.1 hf
    obtain ⟨ys, hys, -⟩ := clauseHead_eq_ok_iff_writtenHead.1 hg
    exact ⟨xs, ys, hxs, hys⟩
  · have hinjective : Term.displayHead f as = Term.displayHead g bs → f = g ∧ xs = ys := by
      obtain rfl := hxs.map_term hf
      obtain rfl := hys.map_term hg
      exact Tree.eq_of_displayHead (by simpa using has) (by simpa using hbs) hclear hclear'
        fun x hx y hy => Tree.term_injective (hclear x hx) (hclear' y hy)
    exact ⟨hinjective, fun hmatch => hinjective hmatch.eq⟩

/-- The terms `f(a, b)` and `f([a, b])` are clear, both as they are read and as they are written, and
do not match. -/
theorem compound_terms_distinct_brackets :
    Grammar.clauseHead "f(a, b)" = .ok ("f", [.atom "a", .atom "b"]) ∧
    Grammar.clauseHead "f([a, b])" = .ok ("f", [.list [.atom "a", .atom "b"]]) ∧
    (∀ t ∈ [Term.atom "a", .atom "b"], t.isClear = true) ∧
    (∀ t ∈ [Term.list [.atom "a", .atom "b"]], t.isClear = true) ∧
    (∀ x ∈ [Tree.atom "a", .atom "b"], x.isClear = true) ∧
    (∀ x ∈ [Tree.list [.atom "a", .atom "b"]], x.isClear = true) ∧
    Term.displayHead "f" [.atom "a", .atom "b"] ≠
      Term.displayHead "f" [.list [.atom "a", .atom "b"]] ∧
    ¬ CanMatch (.atom (Term.displayHead "f" [.atom "a", .atom "b"]))
      (.atom (Term.displayHead "f" [.list [.atom "a", .atom "b"]])) := by
  have hclear : ∀ t ∈ [Term.atom "a", .atom "b"], t.isClear = true := by decide
  have hclear' : ∀ t ∈ [Term.list [.atom "a", .atom "b"]], t.isClear = true := by decide
  have hdeep : ∀ x ∈ [Tree.atom "a", .atom "b"], x.isClear = true := by decide
  have hdeep' : ∀ x ∈ [Tree.list [.atom "a", .atom "b"]], x.isClear = true := by decide
  obtain ⟨-, hread, -, hwritten⟩ := compound_terms_distinct writtenHead_twoAtoms.clauseHead_eq
    writtenHead_oneList.clauseHead_eq (by simp) (by simp)
  refine ⟨writtenHead_twoAtoms.clauseHead_eq, writtenHead_oneList.clauseHead_eq, hclear, hclear',
    hdeep, hdeep', fun htexts => ?_, fun hmatch => ?_⟩
  · have hterms := ((hread hclear hclear').1 htexts).2
    cases hterms
  · have htrees :=
      ((hwritten _ _ writtenHead_twoAtoms writtenHead_oneList hdeep hdeep').2 hmatch).2
    cases htrees

/-- Shown without its quotes, an atom with a comma looks like two arguments: `f('a, b')` and
`f(a, b)` are the same term. -/
theorem quoted_comma_merges_terms :
    Grammar.clauseHead "f(\x27a, b\x27)" = .ok ("f", [.atom "a, b"]) ∧
    Grammar.clauseHead "f(a, b)" = .ok ("f", [.atom "a", .atom "b"]) ∧
    Term.displayHead "f" [.atom "a, b"] = Term.displayHead "f" [.atom "a", .atom "b"] ∧
    [Term.atom "a, b"] ≠ [.atom "a", .atom "b"] ∧
    (unifyAll [.atom (Term.displayHead "f" [.atom "a, b"])]
      [.atom (Term.displayHead "f" [.atom "a", .atom "b"])] .empty).isSome = true := by
  exact ⟨writtenHead_quotedComma.clauseHead_eq, writtenHead_twoAtoms.clauseHead_eq, by decide,
    by simp, by decide⟩

end StackLogic.Horn
