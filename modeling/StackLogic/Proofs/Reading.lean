import StackLogic.Horn.Reasoner
import StackLogic.Proofs.Variables
import Mathlib.Data.List.TakeWhile

/-!
# Names that can be written

The variables of a goal that is read are names among its tokens, and a name that the scanner reads
is a run of letters, digits and `_`, so it holds no `#`. So the variables of a query are apart from
all names of used clauses (`over_of_readQuery`).

`Gives` states what a reader does with the names: those of the value and those that are left to read
are names of the tokens it was given. Each reader has one lemma that assumes this of the readers it
calls on fewer tokens; an induction on the number of tokens puts them together.
-/

namespace StackLogic.Horn

namespace Lexeme

/-- A text in quotes is read as what `make` makes of it. -/
theorem exists_of_enclosed {make : String → Lexeme} {missing : ReadCause} {quote : Char}
    {rest : List Char} {s : Scanned} (h : enclosed make missing quote rest = .ok s) :
    ∃ text, s.lexeme = make text := by
  unfold enclosed at h
  split at h
  · cases h
    exact ⟨_, rfl⟩
  · cases h

theorem integer_ne_variableName {digits after : List Char} {s : Scanned} {x : String}
    (h : number.integer digits after = .ok s) : s.lexeme ≠ .variableName x := by
  unfold number.integer at h
  split at h
  · cases h
    simp
  · cases h

theorem number_ne_variableName {c : Char} {rest : List Char} {s : Scanned} {x : String}
    (h : number c rest = .ok s) : s.lexeme ≠ .variableName x := by
  unfold number at h
  split at h
  · split at h
    · cases h
      simp
    · exact integer_ne_variableName h
  · exact integer_ne_variableName h

/-- The text is the name of a variable: a capital letter or `_`, and letters, digits and `_` after
it. -/
def isVariableName : List Char → Bool
  | [] => false
  | c :: rest => (c.isUpper || c == '_') && rest.all isNameChar

/-- A variable in a text never has the sign that marks fresh names. -/
theorem hash_not_mem_of_isVariableName {cs : List Char} (h : isVariableName cs = true) :
    '#' ∉ cs := by
  intro hmem
  cases cs with
  | nil => cases hmem
  | cons c rest =>
    rw [isVariableName, Bool.and_eq_true, List.all_eq_true] at h
    rcases List.mem_cons.1 hmem with rfl | hmem
    · exact absurd h.1 (by decide)
    · exact absurd (h.2 _ hmem) (by decide)

/-- Whatever is scanned as a variable has a name of the right form. -/
theorem isVariableName_of_scan {c : Char} {rest : List Char} {s : Scanned}
    (h : scan c rest = .ok s) {x : String} (hx : s.lexeme = .variableName x) :
    isVariableName x.toList = true := by
  unfold scan at h
  split at h
  · obtain ⟨text, htext⟩ := exists_of_enclosed h
    cases htext.symm.trans hx
  split at h
  · obtain ⟨text, htext⟩ := exists_of_enclosed h
    cases htext.symm.trans hx
  split at h
  · exact absurd hx (number_ne_variableName h)
  split at h
  next hstart =>
    cases h
    cases hx
    rw [String.toList_ofList, isVariableName, Bool.and_eq_true, List.all_eq_true]
    exact ⟨hstart, fun y hy => List.mem_takeWhile_imp hy⟩
  split at h
  · cases h
    cases hx
  split at h
  · cases h
    cases hx
  split at h
  next l hl =>
    cases h
    unfold punctuation? at hl
    split at hl <;> cases hl <;> cases hx
  next => cases h

end Lexeme

/-- The variable names among the tokens have the property. -/
def Token.NamesOver (N : String → Prop) (ts : List Token) : Prop :=
  ∀ t ∈ ts, ∀ x, t.lexeme = .variableName x → N x

/-- All variables among the tokens of a text have names of the right form. -/
theorem Tokens.namesOver_of_scanFrom {boundary : Bool} {position : Nat} {cs : List Char}
    {ts : Tokens} (h : scanFrom boundary position cs = .ok ts) :
    Token.NamesOver (fun x => Lexeme.isVariableName x.toList = true) ts.items := by
  fun_induction scanFrom boundary position cs generalizing ts with
  | case1 =>
    cases h
    intro t ht
    cases ht
  | case2 _ _ _ _ _ ih => exact ih h
  | case3 _ _ _ _ _ _ ih => exact ih h
  | case4 => cases h
  | case5 _ position c rest _ _ scanned hscan token =>
    rename_i ih
    cases hafter : scanFrom (Token.isSymbol ⟨scanned.lexeme, position⟩ ".")
        (position + scanned.width) scanned.rest with
    | error e =>
      rw [hafter] at h
      cases h
    | ok after =>
      rw [hafter] at h
      cases h
      exact List.forall_mem_cons.2 ⟨fun x hx => Lexeme.isVariableName_of_scan hscan hx, ih hafter⟩

namespace Grammar

open Token

variable {N : String → Prop} {α β : Type} {ts rest : List Token} {t : Token} {m n : Nat}

/-- If the reading succeeds, the value has the property, and no new names are left to read. -/
def Gives (N : String → Prop) (P : α → Prop) (r : Except ReadError (Parsed α n)) : Prop :=
  ∀ p, r = .ok p → P p.value ∧ NamesOver N p.rest

theorem namesOver_tail (h : NamesOver N (t :: rest)) : NamesOver N rest :=
  (List.forall_mem_cons.1 h).2

variable {P : α → Prop} {R : β → Prop}

theorem gives_error {e : ReadError} : Gives N P (.error e : Except ReadError (Parsed α n)) := by
  intro p h
  cases h

theorem gives_one {v : α} (hv : P v) (h : NamesOver N (t :: rest)) :
    Gives N P (Reading.one v rest : Reading α (t :: rest)) := by
  intro p hp
  cases hp
  exact ⟨hv, namesOver_tail h⟩

theorem gives_two {u : Token} {v : α} (hv : P v) (h : NamesOver N (t :: u :: rest)) :
    Gives N P (Reading.two v rest : Reading α (t :: u :: rest)) := by
  intro p hp
  cases hp
  exact ⟨hv, namesOver_tail (namesOver_tail h)⟩

theorem exists_of_map_eq_ok {ε : Type} {x : Except ε α} {f : α → β} {b : β}
    (h : x.map f = .ok b) : ∃ a, x = .ok a ∧ f a = b := by
  cases x with
  | error e => cases h
  | ok a => exact ⟨a, rfl, Except.ok.inj h⟩

theorem Gives.weaken {r : Except ReadError (Parsed α m)} (hr : Gives N P r) (h : m ≤ n) :
    Gives N P (r.map (·.weaken h)) := by
  intro p hp
  obtain ⟨q, hq, rfl⟩ := exists_of_map_eq_ok hp
  exact hr q hq

/-- A reader that goes on after another one gives what this one has read. -/
theorem Gives.after {us : List Token} {f : α → β} {r : Reading α us} (hr : Gives N P r)
    (hf : ∀ a, P a → R (f a)) (h : us.length ≤ ts.length) :
    Gives N R (Reading.after f r h) := by
  cases r with
  | error e => exact gives_error
  | ok q =>
    intro p hp
    cases hp
    exact ⟨hf _ (hr q rfl).1, (hr q rfl).2⟩

/-! ### Terms -/

/-- All variables of the terms have the property. -/
abbrev TermsOver (N : String → Prop) (args : List Term) : Prop :=
  ∀ t ∈ args, ∀ x ∈ t.variableNames, N x

/-- A term is read from its first token, or from shorter lists of tokens. -/
theorem gives_term_of_shorter {finish : Nat} (h : NamesOver N ts)
    (hshorter : ∀ e us, us.length < ts.length → NamesOver N us →
      Gives N (TermsOver N) (sequence e finish us)) :
    Gives N (fun t => ∀ x ∈ t.variableNames, N x) (term finish ts) := by
  unfold term
  split
  next name position rest =>
    refine gives_one (fun x hx => ?_) h
    exact Term.mem_variableNames_var.1 hx ▸ h _ List.mem_cons_self name rfl
  next => exact gives_one (by simp) h
  next => exact gives_one (by simp) h
  next => exact gives_one (by simp) h
  next => exact gives_one (by simp) h
  next => exact gives_two (by simp) h
  next position inner _ =>
    have hinner := hshorter .brackets inner (by simp) (namesOver_tail h)
    refine hinner.after (fun items hitems x hx => ?_) _
    obtain ⟨t, ht, hxt⟩ := Term.mem_variableNames_list.1 hx
    exact hitems t ht x hxt
  next name position position' inner =>
    -- the arguments are read, but they become part of the text of an atom
    unfold arguments
    split
    · exact gives_error
    · have hinner := hshorter .parens inner (by grind) (namesOver_tail (namesOver_tail h))
      exact hinner.after (by simp) _
  next => exact gives_one (by simp) h
  next => exact gives_two (by simp) h
  next => exact gives_two (by simp) h
  next => exact gives_one (by simp) h
  next => exact gives_error

/-- The terms in brackets have variables from the tokens only. -/
theorem gives_sequence (e : Enclosure) (finish : Nat) (h : NamesOver N ts) :
    Gives N (TermsOver N) (sequence e finish ts) := by
  induction ts using (measure List.length).wf.induction generalizing e with
  | _ ts ih =>
    unfold sequence
    split
    next => exact gives_error
    next first hfirst =>
      obtain ⟨hvalue, hrest⟩ := gives_term_of_shorter h (fun e us hus hnames => ih us hus e hnames)
        first hfirst
      split
      next position more hmore =>
        rw [hmore] at hrest
        have hlater := ih more (first.lt_of_rest hmore) e (namesOver_tail hrest)
        exact hlater.after (fun args hargs => List.forall_mem_cons.2 ⟨hvalue, hargs⟩) _
      next follower more _ hmore =>
        rw [hmore] at hrest
        split
        · intro p hp
          cases hp
          exact ⟨by simpa [TermsOver] using hvalue, namesOver_tail hrest⟩
        · exact gives_error
      next => exact gives_error

/-- A term that is read has variables from the tokens only. -/
theorem gives_term (finish : Nat) (h : NamesOver N ts) :
    Gives N (fun t => ∀ x ∈ t.variableNames, N x) (term finish ts) :=
  gives_term_of_shorter h fun e _ _ hnames => gives_sequence e finish hnames

/-- The arguments of a head have variables from the tokens only. -/
theorem gives_head (finish : Nat) (h : NamesOver N ts) :
    Gives N (fun p => TermsOver N p.2) (head finish ts) := by
  unfold head
  split
  next name position position' inner =>
    unfold arguments
    split
    · exact gives_error
    · have hinner := gives_sequence .parens finish (namesOver_tail (namesOver_tail h))
      exact hinner.after (R := fun p : String × List Term => TermsOver N p.2) (fun _ h => h) _
  next => exact gives_one (by simp [TermsOver]) h
  next => exact gives_error

/-! ### Expressions -/

/-- The reading gives an expression over these names. -/
abbrev GivesExpr (N : String → Prop) (r : Except ReadError (Parsed Expr n)) : Prop :=
  Gives N (fun e => ∀ x ∈ e.variableNames, N x) r

/-- Fewer than `n` tokens are read as they should be, by the readers that others go back to. -/
structure ReadsBelow (N : String → Prop) (finish n : Nat) : Prop where
  expr : ∀ us, us.length < n → NamesOver N us → GivesExpr N (expr finish us)
  signed : ∀ us, us.length < n → NamesOver N us → GivesExpr N (signed finish us)
  callArguments : ∀ us, us.length < n → NamesOver N us →
    Gives N (fun args => ∀ e ∈ args, ∀ x ∈ e.variableNames, N x) (callArguments finish us)

variable {finish : Nat}

theorem ReadsBelow.mono (h : ReadsBelow N finish n) (hmn : m ≤ n) : ReadsBelow N finish m where
  expr us hus := h.expr us (hus.trans_le hmn)
  signed us hus := h.signed us (hus.trans_le hmn)
  callArguments us hus := h.callArguments us (hus.trans_le hmn)

theorem gives_primary (h : NamesOver N ts) (hbelow : ReadsBelow N finish ts.length) :
    GivesExpr N (primary finish ts) := by
  unfold primary
  split
  next => exact gives_one (by simp) h
  next => exact gives_one (by simp) h
  next name position rest =>
    refine gives_one (fun x hx => ?_) h
    exact Expr.mem_variableNames_var.1 hx ▸ h _ List.mem_cons_self name rfl
  next position rest =>
    split
    next => exact gives_error
    next inner hinner =>
      obtain ⟨hvalue, hrest⟩ := hbelow.expr rest (by simp) (namesOver_tail h) inner hinner
      split
      next hafter =>
        intro p hp
        cases hp
        rw [hafter] at hrest
        exact ⟨hvalue, namesOver_tail hrest⟩
      next => exact gives_error
  next name position rest =>
    split
    next => exact gives_error
    next f _ =>
      refine Gives.weaken ?_ _
      unfold call
      split
      next position' inner =>
        have hinner := namesOver_tail (namesOver_tail h)
        have hargs := hbelow.callArguments inner (by grind) hinner
        refine hargs.after (fun args hargs x hx => ?_) _
        obtain ⟨e, he, hxe⟩ := Expr.mem_variableNames_call.1 hx
        exact hargs e he x hxe
      next => exact gives_error
  next => exact gives_error

theorem gives_power (h : NamesOver N ts) (hbelow : ReadsBelow N finish ts.length) :
    GivesExpr N (power finish ts) := by
  unfold power
  split
  next => exact gives_error
  next base hbase =>
    obtain ⟨hvalue, hrest⟩ := gives_primary h hbelow base hbase
    split
    next position rest hafter =>
      rw [hafter] at hrest
      have hright := hbelow.signed rest (base.lt_of_rest hafter) (namesOver_tail hrest)
      refine hright.after (fun right hright x hx => ?_) _
      exact (Expr.mem_variableNames_binary.1 hx).elim (hvalue x) (hright x)
    next =>
      intro p hp
      cases hp
      exact ⟨hvalue, hrest⟩

theorem gives_signed (h : NamesOver N ts) (hbelow : ReadsBelow N finish ts.length) :
    GivesExpr N (signed finish ts) := by
  unfold signed
  split
  next position rest => exact (hbelow.signed rest (by simp) (namesOver_tail h)).after (by simp) _
  next position rest => exact (hbelow.signed rest (by simp) (namesOver_tail h)).after (by simp) _
  next => exact gives_power h hbelow

/-- The reader stops, or it reads an operator and an operand and goes on. -/
def Collects (operand : (us : List Token) → Reading Expr us)
    (tail : Expr → (us : List Token) → Continuation Expr us) : Prop :=
  ∀ ⦃left us p⦄, tail left us = .ok p →
    p.value = left ∧ p.rest = us ∨
    ∃ t rest op right q, us = t :: rest ∧ operand rest = .ok right ∧
      tail (.binary op left right.value) right.rest = .ok q ∧ p.value = q.value ∧ p.rest = q.rest

/-- The readers for the operands of sums and of products are given by one equation. -/
theorem collects_of_eq {op? : Lexeme → Option BinaryOp}
    {operand : (us : List Token) → Reading Expr us}
    {tail : Expr → (us : List Token) → Continuation Expr us}
    (htail : ∀ left us, tail left us =
      match us with
      | [] => .ok ⟨left, [], Nat.lt_succ_self _⟩
      | t :: rest =>
        match op? t.lexeme with
        | none => .ok ⟨left, t :: rest, Nat.lt_succ_self _⟩
        | some op =>
          match operand rest with
          | .error err => .error err
          | .ok right =>
            (tail (.binary op left right.value) right.rest).map
              (·.weaken (Nat.le_succ_of_le (Nat.lt_succ_of_lt right.lt)))) :
    Collects operand tail := by
  intro left us p hp
  rw [htail] at hp
  split at hp
  next =>
    cases hp
    exact Or.inl ⟨rfl, rfl⟩
  next t rest =>
    split at hp
    next =>
      cases hp
      exact Or.inl ⟨rfl, rfl⟩
    next op _ =>
      split at hp
      next => cases hp
      next right hright =>
        obtain ⟨q, hq, rfl⟩ := exists_of_map_eq_ok hp
        exact Or.inr ⟨t, rest, op, right, q, rfl, hright, hq, rfl, rfl⟩

theorem collects_productTail : Collects (signed finish) (productTail finish) :=
  collects_of_eq fun left us => productTail.eq_def finish left us

theorem collects_sumTail : Collects (product finish) (sumTail finish) :=
  collects_of_eq fun left us => sumTail.eq_def finish left us

/-- A chain of operators has the variables of its operands. -/
theorem gives_of_collects {operand : (us : List Token) → Reading Expr us}
    {tail : Expr → (us : List Token) → Continuation Expr us} (htail : Collects operand tail)
    (hoperand : ∀ us, us.length < n → NamesOver N us → GivesExpr N (operand us))
    (left : Expr) (hleft : ∀ x ∈ left.variableNames, N x) (hlen : ts.length ≤ n)
    (h : NamesOver N ts) : GivesExpr N (tail left ts) := by
  induction ts using (measure List.length).wf.induction generalizing left with
  | _ ts ih =>
    intro p hp
    rcases htail hp with ⟨hvalue, hrest⟩ | ⟨t, rest, op, right, q, rfl, hright, hq, hvalue, hrest⟩
    · rw [hvalue, hrest]
      exact ⟨hleft, h⟩
    · obtain ⟨hoperand, hafter⟩ := hoperand rest hlen (namesOver_tail h) right hright
      have hlt : right.rest.length < (t :: rest).length := Nat.lt_succ_of_lt right.lt
      rw [hvalue, hrest]
      refine ih right.rest hlt _ (fun x hx => ?_) (hlt.le.trans hlen) hafter q hq
      exact (Expr.mem_variableNames_binary.1 hx).elim (hleft x) (hoperand x)

theorem gives_product (h : NamesOver N ts) (hbelow : ReadsBelow N finish ts.length) :
    GivesExpr N (product finish ts) := by
  unfold product
  split
  next => exact gives_error
  next first hfirst =>
    obtain ⟨hvalue, hrest⟩ := gives_signed h hbelow first hfirst
    have htail := gives_of_collects collects_productTail hbelow.signed _ hvalue first.lt.le hrest
    exact Gives.weaken htail _

theorem gives_expr_of_below (h : NamesOver N ts) (hbelow : ReadsBelow N finish ts.length) :
    GivesExpr N (expr finish ts) := by
  have hproduct : ∀ us, us.length < ts.length → NamesOver N us →
      GivesExpr N (product finish us) := fun us hus hnames =>
    gives_product hnames (hbelow.mono hus.le)
  unfold expr
  split
  next => exact gives_error
  next first hfirst =>
    obtain ⟨hvalue, hrest⟩ := gives_product h hbelow first hfirst
    have htail := gives_of_collects collects_sumTail hproduct _ hvalue first.lt.le hrest
    exact Gives.weaken htail _

theorem gives_callArguments (h : NamesOver N ts) (hbelow : ReadsBelow N finish ts.length) :
    Gives N (fun args => ∀ e ∈ args, ∀ x ∈ e.variableNames, N x) (callArguments finish ts) := by
  unfold callArguments
  split
  next => exact gives_error
  next first hfirst =>
    obtain ⟨hvalue, hrest⟩ := gives_expr_of_below h hbelow first hfirst
    split
    next position more hmore =>
      rw [hmore] at hrest
      have hlater := hbelow.callArguments more (first.lt_of_rest hmore) (namesOver_tail hrest)
      exact hlater.after (fun args hargs => List.forall_mem_cons.2 ⟨hvalue, hargs⟩) _
    next position after hafter =>
      intro p hp
      cases hp
      rw [hafter] at hrest
      exact ⟨by simpa using hvalue, namesOver_tail hrest⟩
    next => exact gives_error

/-- The readers of expressions call each other on shorter lists of tokens only. -/
theorem readsBelow (N : String → Prop) (finish n : Nat) : ReadsBelow N finish n := by
  induction n with
  | zero => constructor <;> intro us hus <;> cases hus
  | succ n ih =>
    have hbelow : ∀ {us : List Token}, us.length < n + 1 → ReadsBelow N finish us.length :=
      fun hus => ih.mono (Nat.le_of_lt_succ hus)
    exact ⟨fun us hus h => gives_expr_of_below h (hbelow hus),
      fun us hus h => gives_signed h (hbelow hus),
      fun us hus h => gives_callArguments h (hbelow hus)⟩

/-- An expression that is read has variables from the tokens only. -/
theorem gives_expr (finish : Nat) (h : NamesOver N ts) : GivesExpr N (expr finish ts) :=
  gives_expr_of_below h (readsBelow N finish _)

/-! ### Goals -/

/-- Both sides of an operator are parts of the tokens. -/
theorem splitOperator_namesOver {depth position : Nat} {left right : List Token} {op : GoalOperator}
    (h : splitOperator depth ts = some (left, op, position, right)) (hts : NamesOver N ts) :
    NamesOver N left ∧ NamesOver N right := by
  induction ts generalizing depth left with
  | nil => cases h
  | cons t rest ih =>
    obtain ⟨hfirst, hrest⟩ := List.forall_mem_cons.1 hts
    unfold splitOperator at h
    split at h
    next =>
      cases h
      exact ⟨by simp [NamesOver], hrest⟩
    next =>
      obtain ⟨⟨left', found⟩, hsplit, heq⟩ := Option.map_eq_some_iff.1 h
      cases heq
      obtain ⟨hleft, hright⟩ := ih hsplit hrest
      exact ⟨List.forall_mem_cons.2 ⟨hfirst, hleft⟩, hright⟩

theorem exists_of_bind_eq_ok {ε : Type} {x : Except ε α} {f : α → Except ε β} {b : β}
    (h : x >>= f = .ok b) : ∃ a, x = .ok a ∧ f a = .ok b := by
  cases x with
  | error e => cases h
  | ok a => exact ⟨a, rfl, h⟩

theorem value_of_whole {read : (finish : Nat) → (ts : List Token) → Reading α ts} {v : α}
    (h : whole read finish ts = .ok v) (hread : Gives N P (read finish ts)) : P v := by
  obtain ⟨p, hp, hgo⟩ := exists_of_bind_eq_ok h
  obtain ⟨_, _, hreturn⟩ := exists_of_bind_eq_ok hgo
  cases hreturn
  exact (hread p hp).1

theorem over_goalOfHead {name : String} {args : List Term} (h : TermsOver N args) :
    (goalOfHead name args).Over N := by
  have hterms : ∀ {g : Goal}, g.terms = [] → g.exprs = [] → g.Over N :=
    fun ht he => ⟨by simp [ht], by simp [he]⟩
  unfold goalOfHead
  split
  next => exact hterms rfl rfl
  next => exact hterms rfl rfl
  next => exact hterms rfl rfl
  next => exact hterms rfl rfl
  next => exact ⟨h, by simp [Goal.exprs]⟩
  next => exact ⟨h, by simp [Goal.exprs]⟩
  next => exact ⟨h, by simp [Goal.exprs]⟩

theorem over_of_simpleGoal {g : Goal} (h : simpleGoal finish ts = .ok g) (hts : NamesOver N ts) :
    g.Over N := by
  unfold simpleGoal at h
  split at h
  next =>
    obtain ⟨_, _, hreturn⟩ := exists_of_bind_eq_ok h
    cases hreturn
    exact ⟨by simp [Goal.terms], by simp [Goal.exprs]⟩
  next =>
    obtain ⟨⟨name, args⟩, hhead, hreturn⟩ := exists_of_bind_eq_ok h
    cases hreturn
    have hgives := gives_head finish hts
    exact over_goalOfHead (value_of_whole (P := fun p => TermsOver N p.2) hhead hgives)

theorem over_of_operatorGoal {g : Goal} {op : GoalOperator} {left right : List Token}
    (h : operatorGoal left op right finish = .ok g) (hleft : NamesOver N left)
    (hright : NamesOver N right) : g.Over N := by
  cases op with
  | unify | notUnify =>
    obtain ⟨l, hl, hgo⟩ := exists_of_bind_eq_ok h
    obtain ⟨r, hr, hreturn⟩ := exists_of_bind_eq_ok hgo
    cases hreturn
    refine ⟨fun t ht => ?_, by simp [Goal.exprs]⟩
    rcases List.mem_pair.1 ht with rfl | rfl
    · exact value_of_whole hl (gives_term _ hleft)
    · exact value_of_whole hr (gives_term _ hright)
  | is =>
    obtain ⟨l, hl, hgo⟩ := exists_of_bind_eq_ok h
    obtain ⟨e, he, hreturn⟩ := exists_of_bind_eq_ok hgo
    cases hreturn
    exact ⟨List.forall_mem_singleton.2 (value_of_whole hl (gives_term _ hleft)),
      List.forall_mem_singleton.2 (value_of_whole he (gives_expr _ hright))⟩
  | compare c =>
    obtain ⟨l, hl, hgo⟩ := exists_of_bind_eq_ok h
    obtain ⟨r, hr, hreturn⟩ := exists_of_bind_eq_ok hgo
    cases hreturn
    refine ⟨by simp [Goal.terms], fun e he => ?_⟩
    rcases List.mem_pair.1 he with rfl | rfl
    · exact value_of_whole hl (gives_expr _ hleft)
    · exact value_of_whole hr (gives_expr _ hright)

/-- A goal that is read has variables from the tokens only. -/
theorem over_of_goal {g : Goal} {ts : Tokens} (h : goal ts = .ok g) (hts : NamesOver N ts.items) :
    g.Over N := by
  unfold goal at h
  split at h
  next => cases h
  next left op _ right _ hsplit =>
    obtain ⟨hleft, hright⟩ := splitOperator_namesOver hsplit hts
    exact over_of_operatorGoal h hleft hright
  next => exact over_of_simpleGoal h hts

end Grammar

/-- A goal that is read from a text has no variable with `#` in its name. -/
theorem Goal.over_of_ofString {text : String} {g : Goal} (h : Goal.ofString text = .ok g) :
    g.Over fun x => '#' ∉ x.toList := by
  obtain ⟨ts, hts, hgoal⟩ := Grammar.exists_of_bind_eq_ok h
  refine Grammar.over_of_goal hgoal fun t ht x hx => ?_
  exact Lexeme.hash_not_mem_of_isVariableName (Tokens.namesOver_of_scanFrom hts t ht x hx)

theorem forall_of_mapM_eq_ok {ε α β : Type} {f : α → Except ε β} {Q : β → Prop} {as : List α}
    {bs : List β} (h : as.mapM f = .ok bs) (hf : ∀ a b, f a = .ok b → Q b) : ∀ b ∈ bs, Q b := by
  induction as generalizing bs with
  | nil =>
    cases h
    simp
  | cons a rest ih =>
    rw [List.mapM_cons] at h
    obtain ⟨b, hb, hgo⟩ := Grammar.exists_of_bind_eq_ok h
    obtain ⟨bs', hbs', hreturn⟩ := Grammar.exists_of_bind_eq_ok hgo
    cases hreturn
    exact List.forall_mem_cons.2 ⟨hf a b hb, ih hbs'⟩

/-- A query has no variable with `#` in its name. -/
theorem over_of_readQuery {text : String} {goals : List Goal} (h : readQuery text = .ok goals) :
    ∀ g ∈ goals, g.Over fun x => '#' ∉ x.toList := by
  simp only [readQuery] at h
  split at h
  · cases h
  · refine forall_of_mapM_eq_ok h fun part g hg => ?_
    unfold readGoal at hg
    split at hg
    next hread =>
      cases hg
      exact Goal.over_of_ofString hread
    next => cases hg

/-- The query `q(X).` after its mark. -/
theorem readQuery_callQ : readQuery " q(X)." = .ok [.call "q" [.var "X"]] := by
  have htexts : goalTexts (Text.trim " q(X).".toList) = ["q(X)"] := by decide +kernel
  have hgoal : readGoal "q(X)" = .ok (.call "q" [.var "X"]) := by
    have hread : Goal.ofString "q(X)" = .ok (.call "q" [.var "X"]) := BodyGoal.callQ.goal_eq.symm
    rw [readGoal, hread]
  rw [readQuery, htexts]
  show List.mapM readGoal ["q(X)"] = _
  rw [List.mapM_cons, hgoal]
  rfl

end StackLogic.Horn
