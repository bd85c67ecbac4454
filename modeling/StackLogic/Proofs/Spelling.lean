import StackLogic.Proofs.Lexing

/-!
# How terms are spelled

`Spells` is the grammar of terms as a relation between lexemes and terms. The readers follow it in
both directions: what a reader gives is spelled by the tokens it has used up
(`spellsAll_of_sequence`), and a spelling is read as its term wherever a comma or a closing bracket
follows (`Spells.reads`). For the head of a clause both directions are one equivalence
(`clauseHead_eq_ok_iff`).
-/

namespace StackLogic.Horn

/-- Lexemes with commas between them. -/
def commaSeparated (spellings : List (List Lexeme)) : List Lexeme :=
  [Lexeme.comma].intercalate spellings

/-- The lexemes are a spelling of the term. -/
inductive Spells : List Lexeme → Term → Prop where
  | var (name : String) : Spells [.variableName name] (.var name)
  | int (n : Int64) : Spells [.int n] (.num (.int n))
  | negInt (n : Int64) : Spells [.symbol "-", .int n] (.num (.int (-n)))
  | float (x : Float) : Spells [.float x] (.num (.float x))
  | negFloat (x : Float) : Spells [.symbol "-", .float x] (.num (.float (-x)))
  | str (s : String) : Spells [.str s] (.str s)
  | bang : Spells [.bang] (.atom "!")
  | symbol (s : String) : Spells [.symbol s] (.atom s)
  | atom (name : String) : Spells [.atom name] (.atom name)
  | list {parts : List (List Lexeme × Term)} (h : ∀ part ∈ parts, Spells part.1 part.2) :
      Spells (.openBracket :: (commaSeparated (parts.map Prod.fst) ++ [.closeBracket]))
        (.list (parts.map Prod.snd))
  /-- A compound term is the atom that is named by its text. -/
  | compound {name : String} {parts : List (List Lexeme × Term)} (hne : parts ≠ [])
      (h : ∀ part ∈ parts, Spells part.1 part.2) :
      Spells (.atom name :: .openParen :: (commaSeparated (parts.map Prod.fst) ++ [.closeParen]))
        (.atom (Term.displayHead name (parts.map Prod.snd)))

theorem commaSeparated_cons {ls : List Lexeme} {rest : List (List Lexeme)} (h : rest ≠ []) :
    commaSeparated (ls :: rest) = ls ++ .comma :: commaSeparated rest := by
  cases rest with
  | nil => exact absurd rfl h
  | cons next more => simp [commaSeparated, List.intercalate, List.intersperse]

theorem commaSeparated_singleton (ls : List Lexeme) : commaSeparated [ls] = ls := by
  simp [commaSeparated, List.intercalate]

/-- A spelling does not begin with a closing bracket or parenthesis. -/
theorem Spells.exists_first {ls : List Lexeme} {t : Term} (h : Spells ls t) :
    ∃ l rest, ls = l :: rest ∧ l ≠ .closeBracket ∧ l ≠ .closeParen := by
  cases h <;> exact ⟨_, _, rfl, nofun, nofun⟩

namespace Grammar

variable {finish : Nat} {ts : List Token}

/-! ## What is read is spelled -/

/-- The lexemes spell the terms with commas between them and the closing token after the last, and
then go on. -/
def SpellsAll (e : Enclosure) (ls : List Lexeme) (terms : List Term) (after : List Lexeme) : Prop :=
  ∃ parts : List (List Lexeme × Term), parts ≠ [] ∧ (∀ part ∈ parts, Spells part.1 part.2) ∧
    parts.map Prod.snd = terms ∧ ls = commaSeparated (parts.map Prod.fst) ++ e.close :: after

/-- The last term is closed by the bracket. -/
theorem spellsAll_last {e : Enclosure} {ls after : List Lexeme} {t : Term} (h : Spells ls t) :
    SpellsAll e (ls ++ e.close :: after) [t] after := by
  refine ⟨[(ls, t)], by simp, List.forall_mem_singleton.2 h, rfl, ?_⟩
  rw [List.map_singleton, commaSeparated_singleton]

/-- A comma stands between a term and the others. -/
theorem SpellsAll.cons {e : Enclosure} {ls more after : List Lexeme} {t : Term} {terms : List Term}
    (hrest : SpellsAll e more terms after) (h : Spells ls t) :
    SpellsAll e (ls ++ .comma :: more) (t :: terms) after := by
  obtain ⟨parts, hne, hparts, rfl, rfl⟩ := hrest
  refine ⟨(ls, t) :: parts, by simp, List.forall_mem_cons.2 ⟨h, hparts⟩, rfl, ?_⟩
  rw [List.map_cons, commaSeparated_cons (by simpa using hne), List.append_assoc, List.cons_append]

/-- Terms in brackets are a list. -/
theorem SpellsAll.list {ls after : List Lexeme} {terms : List Term}
    (h : SpellsAll .brackets ls terms after) :
    ∃ used, Spells used (.list terms) ∧ .openBracket :: ls = used ++ after := by
  obtain ⟨parts, -, hparts, rfl, rfl⟩ := h
  exact ⟨_, .list hparts, by simp [Enclosure.close]⟩

/-- Terms in parentheses behind a name are a compound term, which is read as the atom of its text.
-/
theorem SpellsAll.compound {ls after : List Lexeme} {terms : List Term}
    (h : SpellsAll .parens ls terms after) (name : String) :
    ∃ used, Spells used (.atom (Term.displayHead name terms)) ∧
      .atom name :: .openParen :: ls = used ++ after := by
  obtain ⟨parts, hne, hparts, rfl, rfl⟩ := h
  exact ⟨_, .compound hne hparts, by simp [Enclosure.close]⟩

/-- A term that is read is spelled, if this is so of all shorter lists of tokens. -/
theorem spells_of_term_of_shorter {p : Parsed Term ts.length} (h : term finish ts = .ok p)
    (hshorter : ∀ e us (q : Parsed (List Term) us.length), us.length < ts.length →
      sequence e finish us = .ok q →
      SpellsAll e (us.map Token.lexeme) q.value (q.rest.map Token.lexeme)) :
    ∃ ls, Spells ls p.value ∧ ts.map Token.lexeme = ls ++ p.rest.map Token.lexeme := by
  unfold term at h
  split at h
  next name position rest =>
    cases h
    exact ⟨_, .var name, rfl⟩
  next n position rest =>
    cases h
    exact ⟨_, .int n, rfl⟩
  next x position rest =>
    cases h
    exact ⟨_, .float x, rfl⟩
  next s position rest =>
    cases h
    exact ⟨_, .str s, rfl⟩
  next position rest =>
    cases h
    exact ⟨_, .bang, rfl⟩
  next position position' rest =>
    cases h
    exact ⟨_, .list (List.forall_mem_nil _), rfl⟩
  next position inner _ =>
    obtain ⟨q, hq, rfl⟩ := exists_of_map_eq_ok h
    exact (hshorter .brackets inner q (by simp) hq).list
  next name position position' inner =>
    unfold arguments at h
    split at h
    · cases h
    · obtain ⟨q, hq, rfl⟩ := exists_of_map_eq_ok h
      exact (hshorter .parens inner q (by grind) hq).compound name
  next name position rest _ =>
    cases h
    exact ⟨_, .atom name, rfl⟩
  next position n position' rest =>
    cases h
    exact ⟨_, .negInt n, rfl⟩
  next position x position' rest =>
    cases h
    exact ⟨_, .negFloat x, rfl⟩
  next s position rest _ _ =>
    cases h
    exact ⟨_, .symbol s, rfl⟩
  next => cases h

/-- Terms in brackets that are read are spelled. -/
theorem spellsAll_of_sequence {e : Enclosure} {q : Parsed (List Term) ts.length}
    (h : sequence e finish ts = .ok q) :
    SpellsAll e (ts.map Token.lexeme) q.value (q.rest.map Token.lexeme) := by
  induction ts using (measure List.length).wf.induction generalizing e with
  | _ ts ih =>
    unfold sequence at h
    split at h
    next => cases h
    next first hfirst =>
      obtain ⟨ls, hspells, hts⟩ :=
        spells_of_term_of_shorter hfirst fun e us q hus hq => ih us hus hq
      rw [hts]
      split at h
      next position more hmore =>
        obtain ⟨q', hq', rfl⟩ := exists_of_map_eq_ok h
        have hlater := ih more (first.lt_of_rest hmore) hq'
        show SpellsAll e (ls ++ first.rest.map Token.lexeme) (first.value :: q'.value)
          (q'.rest.map Token.lexeme)
        rw [hmore]
        exact hlater.cons hspells
      next follower more _ hmore =>
        split at h
        next hclose =>
          cases h
          show SpellsAll e (ls ++ first.rest.map Token.lexeme) [first.value] (more.map Token.lexeme)
          rw [hmore, List.map_cons, hclose]
          exact spellsAll_last hspells
        next => cases h
      next => cases h

/-! ## What is spelled is read -/

/-- A comma or a closing token comes next. -/
def Stops (after : List Lexeme) : Prop :=
  ∃ l rest, after = l :: rest ∧ (l = .comma ∨ l = .closeParen ∨ l = .closeBracket)

theorem Stops.lexeme {after : List Lexeme} (h : Stops after) {us rest : List Token} {t : Token}
    (hus : us.map Token.lexeme = after) (heq : us = t :: rest) :
    t.lexeme = .comma ∨ t.lexeme = .closeParen ∨ t.lexeme = .closeBracket := by
  obtain ⟨l, more, rfl, hl⟩ := h
  rw [heq, List.map_cons, List.cons.injEq] at hus
  rwa [← hus.1] at hl

/-- Before such lexemes, the spelling is read as the term. -/
def Reads (ls : List Lexeme) (t : Term) : Prop :=
  ∀ finish after ts, Stops after → ts.map Token.lexeme = ls ++ after →
    ∃ rest hlt, term finish ts = .ok ⟨t, rest, hlt⟩ ∧ rest.map Token.lexeme = after

/-- A sequence is read if its terms are. -/
theorem sequence_of_reads (finish : Nat) {e : Enclosure} {parts : List (List Lexeme × Term)}
    {after : List Lexeme} (hne : parts ≠ []) (hparts : ∀ part ∈ parts, Reads part.1 part.2)
    (hts : ts.map Token.lexeme = commaSeparated (parts.map Prod.fst) ++ e.close :: after) :
    ∃ rest hlt, sequence e finish ts = .ok ⟨parts.map Prod.snd, rest, hlt⟩ ∧
      rest.map Token.lexeme = after := by
  induction parts generalizing ts with
  | nil => exact absurd rfl hne
  | cons part others ih =>
    obtain ⟨ls, t⟩ := part
    obtain ⟨hfirst, hothers⟩ := List.forall_mem_cons.1 hparts
    by_cases hlast : others = []
    · subst hlast
      rw [List.map_singleton, commaSeparated_singleton] at hts
      have hstops : Stops (e.close :: after) := ⟨_, _, rfl, by cases e <;> simp [Enclosure.close]⟩
      obtain ⟨rest, hlt, hterm, hrest⟩ := hfirst finish _ ts hstops hts
      obtain ⟨u, us, rfl, hu, hus⟩ := List.map_eq_cons_iff.1 hrest
      refine ⟨us, Nat.lt_of_succ_lt hlt, ?_, hus⟩
      rw [sequence, hterm]
      dsimp only
      split
      next position more heq =>
        cases heq
        cases e <;> cases hu
      next heq =>
        cases heq
        rw [if_pos hu]
        rfl
      next heq => cases heq
    · rw [List.map_cons, commaSeparated_cons (by simpa using hlast), List.append_assoc,
        List.cons_append] at hts
      have hstops : Stops (.comma :: (commaSeparated (others.map Prod.fst) ++ e.close :: after)) :=
        ⟨_, _, rfl, .inl rfl⟩
      obtain ⟨rest, hlt, hterm, hrest⟩ := hfirst finish _ ts hstops hts
      obtain ⟨⟨l, position⟩, us, rfl, rfl, hus⟩ := List.map_eq_cons_iff.1 hrest
      obtain ⟨rest', hlt', hsequence, hrest'⟩ := ih hlast hothers hus
      have hle : us.length ≤ ts.length := Nat.le_of_lt (Nat.lt_of_succ_lt hlt)
      refine ⟨rest', hlt'.trans_le hle, ?_, hrest'⟩
      rw [sequence, hterm]
      dsimp only
      rw [hsequence]
      rfl

/-- The first token of spelled terms is no closing token. -/
theorem ne_close_of_spells {parts : List (List Lexeme × Term)} {after : List Lexeme} {t : Token}
    {us : List Token} (hne : parts ≠ []) (hparts : ∀ part ∈ parts, Spells part.1 part.2)
    (hts : ts.map Token.lexeme = commaSeparated (parts.map Prod.fst) ++ after)
    (heq : ts = t :: us) :
    t.lexeme ≠ .closeBracket ∧ t.lexeme ≠ .closeParen := by
  cases parts with
  | nil => exact absurd rfl hne
  | cons part others =>
    obtain ⟨l, rest, hfirst, hl⟩ := (hparts part List.mem_cons_self).exists_first
    have hlexeme : t.lexeme = l := by
      rw [heq] at hts
      by_cases hlast : others = []
      · rw [hlast, List.map_singleton, commaSeparated_singleton, hfirst] at hts
        exact (List.cons.inj hts).1
      · change _ = commaSeparated (part.1 :: others.map Prod.fst) ++ after at hts
        rw [commaSeparated_cons (by simpa using hlast), hfirst] at hts
        exact (List.cons.inj hts).1
    rwa [hlexeme]

/-- The arguments of a compound term are read if its terms are. -/
theorem arguments_of_spells (finish : Nat) {parts : List (List Lexeme × Term)}
    {after : List Lexeme} (hne : parts ≠ []) (hspells : ∀ part ∈ parts, Spells part.1 part.2)
    (hparts : ∀ part ∈ parts, Reads part.1 part.2)
    (hts : ts.map Token.lexeme = commaSeparated (parts.map Prod.fst) ++ .closeParen :: after) :
    ∃ rest hlt, arguments finish ts = .ok ⟨parts.map Prod.snd, rest, hlt⟩ ∧
      rest.map Token.lexeme = after := by
  obtain ⟨rest, hlt, hsequence, hrest⟩ :=
    sequence_of_reads finish (e := .parens) hne hparts hts
  refine ⟨rest, hlt, ?_, hrest⟩
  rw [arguments]
  · exact hsequence
  · intro position us heq
    exact (ne_close_of_spells hne hspells hts heq).2 rfl

end Grammar

open Grammar in
/-- A spelling is read as its term. -/
theorem Spells.reads {ls : List Lexeme} {t : Term} (h : Spells ls t) : Reads ls t := by
  induction h with
  | var name | int n | float x | str s | bang =>
    intro finish after ts hstops hts
    obtain ⟨⟨l, position⟩, us, rfl, rfl, hus⟩ := List.map_eq_cons_iff.1 hts
    refine ⟨us, by simp, ?_, hus⟩
    rw [term]
    rfl
  | negInt n | negFloat x =>
    intro finish after ts hstops hts
    obtain ⟨⟨l, position⟩, us, rfl, rfl, hus⟩ := List.map_eq_cons_iff.1 hts
    obtain ⟨⟨l, position'⟩, vs, rfl, rfl, hvs⟩ := List.map_eq_cons_iff.1 hus
    refine ⟨vs, Nat.lt_add_of_pos_right Nat.zero_lt_two, ?_, hvs⟩
    rw [term]
    rfl
  | symbol s =>
    intro finish after ts hstops hts
    obtain ⟨⟨l, position⟩, us, rfl, rfl, hus⟩ := List.map_eq_cons_iff.1 hts
    refine ⟨us, by simp, ?_, hus⟩
    rw [term]
    · rfl
    · intro n position' rest heq
      rcases hstops.lexeme hus heq with hl | hl | hl <;> cases hl
    · intro x position' rest heq
      rcases hstops.lexeme hus heq with hl | hl | hl <;> cases hl
  | atom name =>
    intro finish after ts hstops hts
    obtain ⟨⟨l, position⟩, us, rfl, rfl, hus⟩ := List.map_eq_cons_iff.1 hts
    refine ⟨us, by simp, ?_, hus⟩
    rw [term]
    · rfl
    · intro position' rest heq
      rcases hstops.lexeme hus heq with hl | hl | hl <;> cases hl
  | @list parts hspells ih =>
    intro finish after ts hstops hts
    obtain ⟨⟨l, position⟩, us, rfl, rfl, hus⟩ := List.map_eq_cons_iff.1 hts
    by_cases hempty : parts = []
    · subst hempty
      obtain ⟨⟨l, position'⟩, vs, rfl, rfl, hvs⟩ := List.map_eq_cons_iff.1 hus
      refine ⟨vs, Nat.lt_add_of_pos_right Nat.zero_lt_two, ?_, hvs⟩
      rw [term]
      rfl
    · have hinner : us.map Token.lexeme =
          commaSeparated (parts.map Prod.fst) ++ Enclosure.brackets.close :: after := by
        rw [hus]
        simp [Enclosure.close]
      obtain ⟨rest, hlt, hsequence, hrest⟩ :=
        sequence_of_reads finish hempty ih hinner
      refine ⟨rest, hlt.trans (by simp), ?_, hrest⟩
      rw [term]
      · rw [hsequence]
        rfl
      · intro position' vs heq
        exact (ne_close_of_spells hempty hspells hinner heq).1 rfl
  | @compound name parts hne hspells ih =>
    intro finish after ts hstops hts
    obtain ⟨⟨l, position⟩, us, rfl, rfl, hus⟩ := List.map_eq_cons_iff.1 hts
    obtain ⟨⟨l, position'⟩, vs, rfl, rfl, hvs⟩ := List.map_eq_cons_iff.1 hus
    have hinner : vs.map Token.lexeme =
        commaSeparated (parts.map Prod.fst) ++ .closeParen :: after := by
      rw [hvs]
      simp
    obtain ⟨rest, hlt, harguments, hrest⟩ :=
      arguments_of_spells finish hne hspells ih hinner
    refine ⟨rest, hlt.trans (Nat.lt_add_of_pos_right Nat.zero_lt_two), ?_, hrest⟩
    rw [term, harguments]
    rfl

/-! ## Heads of clauses -/

/-- The lexemes are a spelling of the head of a clause. -/
inductive SpellsHead : List Lexeme → String → List Term → Prop where
  | atom (name : String) : SpellsHead [.atom name] name []
  | compound {name : String} {parts : List (List Lexeme × Term)} (hne : parts ≠ [])
      (h : ∀ part ∈ parts, Spells part.1 part.2) :
      SpellsHead
        (.atom name :: .openParen :: (commaSeparated (parts.map Prod.fst) ++ [.closeParen])) name
        (parts.map Prod.snd)

theorem SpellsHead.eq_atom {ls : List Lexeme} {name : String} (h : SpellsHead ls name []) :
    ls = [.atom name] := by
  generalize hargs : ([] : List Term) = args at h
  cases h with
  | atom => rfl
  | compound hne _ => exact absurd (List.map_eq_nil_iff.1 hargs.symm) hne

namespace Grammar

/-- Nothing, or a final point. -/
def IsEnd (ls : List Lexeme) : Prop := ls = [] ∨ ls = [.symbol "."]

/-- A text may end with a point. -/
theorem expectEnd_eq_ok_iff {finish : Nat} {ts : List Token} :
    expectEnd finish ts = .ok () ↔ IsEnd (ts.map Token.lexeme) := by
  unfold expectEnd IsEnd
  cases ts with
  | nil => simp
  | cons t rest =>
    by_cases ht : t.lexeme = .symbol "."
    · have hpoint : t.isSymbol "." = true := by simp [Token.isSymbol, ht]
      cases rest with
      | nil => simp [hpoint, ht]
      | cons u more => simp [hpoint, ht]
    · have hpoint : t.isSymbol "." = false := by simp [Token.isSymbol, ht]
      simp [hpoint, ht]

/-- A head that is read is spelled. -/
theorem spellsHead_of_head {finish : Nat} {ts : List Token}
    {p : Parsed (String × List Term) ts.length} (h : head finish ts = .ok p) :
    ∃ ls, SpellsHead ls p.value.1 p.value.2 ∧
      ts.map Token.lexeme = ls ++ p.rest.map Token.lexeme := by
  unfold head at h
  split at h
  next name position position' inner =>
    unfold arguments at h
    split at h
    · cases h
    · obtain ⟨q, hq, rfl⟩ := exists_of_map_eq_ok h
      obtain ⟨parts, hne, hparts, hvalue, hinner⟩ := spellsAll_of_sequence hq
      have hhead : SpellsHead
          (.atom name :: .openParen :: (commaSeparated (parts.map Prod.fst) ++ [.closeParen])) name
          q.value := hvalue ▸ .compound hne hparts
      refine ⟨_, hhead, ?_⟩
      show .atom name :: .openParen :: inner.map Token.lexeme = _ ++ q.rest.map Token.lexeme
      rw [hinner]
      simp [Enclosure.close]
  next name position rest _ =>
    cases h
    exact ⟨_, .atom name, rfl⟩
  next => cases h

/-- A head that is spelled is read. -/
theorem head_of_spellsHead {ls after : List Lexeme} {name : String} {args : List Term}
    (h : SpellsHead ls name args) {ts : List Token} (hts : ts.map Token.lexeme = ls ++ after)
    (hafter : IsEnd after) (finish : Nat) :
    ∃ rest hlt, head finish ts = .ok ⟨(name, args), rest, hlt⟩ ∧
      rest.map Token.lexeme = after := by
  cases h with
  | atom name =>
    obtain ⟨⟨l, position⟩, us, rfl, rfl, hus⟩ := List.map_eq_cons_iff.1 hts
    refine ⟨us, Nat.lt_succ_self _, ?_, hus⟩
    rw [head]
    · rfl
    · rintro position' inner rfl
      rcases hafter with rfl | rfl
      · cases hus
      · cases hus
  | @compound name parts hne hspells =>
    obtain ⟨⟨l, position⟩, us, rfl, rfl, hus⟩ := List.map_eq_cons_iff.1 hts
    obtain ⟨⟨l, position'⟩, vs, rfl, rfl, hvs⟩ := List.map_eq_cons_iff.1 hus
    have hinner : vs.map Token.lexeme =
        commaSeparated (parts.map Prod.fst) ++ .closeParen :: after := by
      rw [hvs]
      simp
    obtain ⟨rest, hlt, harguments, hrest⟩ := arguments_of_spells finish hne hspells
      (fun part hpart => (hspells part hpart).reads) hinner
    refine ⟨rest, hlt.trans (Nat.lt_add_of_pos_right Nat.zero_lt_two), ?_, hrest⟩
    rw [head, harguments]
    rfl

/-- A text is read as a head if its tokens are a head and nothing but a point is left. -/
theorem exists_of_clauseHead {text : String} {v : String × List Term}
    (h : clauseHead text = .ok v) :
    ∃ ts, ∃ p : Parsed (String × List Term) ts.items.length, Tokens.ofString text = .ok ts ∧
      head ts.finish ts.items = .ok p ∧ expectEnd ts.finish p.rest = .ok () ∧ p.value = v := by
  obtain ⟨ts, hts, hgo⟩ := exists_of_bind_eq_ok h
  obtain ⟨p, hp, hgo⟩ := exists_of_bind_eq_ok hgo
  obtain ⟨_, hend, hreturn⟩ := exists_of_bind_eq_ok hgo
  exact ⟨ts, p, hts, hp, hend, Except.ok.inj hreturn⟩

/-- A text is the head of a clause if its lexemes spell the head, with or without a final point. -/
theorem clauseHead_eq_ok_iff {text name : String} {args : List Term} :
    clauseHead text = .ok (name, args) ↔
      ∃ ls tail, Lexes true text.toList (ls ++ tail) ∧ SpellsHead ls name args ∧ IsEnd tail := by
  constructor
  · intro h
    obtain ⟨ts, p, hts, hp, hend, hvalue⟩ := exists_of_clauseHead h
    obtain ⟨ls, hspells, hlexemes⟩ := spellsHead_of_head hp
    rw [hvalue] at hspells
    refine ⟨ls, p.rest.map Token.lexeme, ?_, hspells, expectEnd_eq_ok_iff.1 hend⟩
    rw [← hlexemes]
    exact lexes_of_scanFrom hts
  · rintro ⟨ls, tail, hlexes, hspells, htail⟩
    obtain ⟨ts, hts, hlexemes⟩ := hlexes.exists_scanFrom 0
    obtain ⟨rest, hlt, hhead, hrest⟩ := head_of_spellsHead hspells hlexemes htail ts.finish
    have hend : expectEnd ts.finish rest = .ok () := by
      rw [expectEnd_eq_ok_iff, hrest]
      exact htail
    have htokens : Tokens.ofString text = .ok ts := hts
    rw [clauseHead, htokens]
    show (head ts.finish ts.items >>= _) = _
    rw [hhead]
    show (expectEnd ts.finish rest >>= _) = _
    rw [hend]
    rfl

end Grammar

end StackLogic.Horn
