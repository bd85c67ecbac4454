import StackLogic.Horn.Grammar.Expr
import StackLogic.Proofs.Variables
import StackLogic.Proofs.Spelling

/-!
# The table of operators

`Derives` is the table of operators as a grammar: which lexemes are an expression of which level.
The readers follow it (`Derives.expr_eq_ok`): what is derived is read as the same tree, up to the
first token that cannot go on with it. The proof is an induction over derivations, with one lemma
for each rule of the grammar; what it says about a level is `Parses`.

`Expr.lexemes` writes a tree with parentheses only where an operand stands in the place of a tighter
level. This is derived (`Expr.derives`), so that the tree is read back (`Expr.read_lexemes`).
-/

namespace StackLogic.Horn

/-! ## Levels -/

/-- The levels of the table, from the loosest to the tightest. -/
inductive Level where
  | sum | product | signed | power | primary
  deriving DecidableEq

namespace Level

/-- The next tighter level. -/
def tighter : Level → Level
  | sum => product
  | product => signed
  | signed => power
  | power => primary
  | primary => primary

/-- How tight a level binds. -/
def rank : Level → Nat
  | sum => 0
  | product => 1
  | signed => 2
  | power => 3
  | primary => 4

/-- The operators that go on with an expression of this level. -/
def operators : Level → List Lexeme
  | sum =>
    [.symbol "+", .symbol "-", .symbol "*", .symbol "/", .symbol "//", .symbol "%", .atom "mod",
      .symbol "**"]
  | product =>
    [.symbol "*", .symbol "/", .symbol "//", .symbol "%", .atom "mod", .symbol "**"]
  | signed => [.symbol "**"]
  | power => [.symbol "**"]
  | primary => []

theorem rank_tighter {level : Level} (h : level.rank < 4) :
    level.tighter.rank = level.rank + 1 := by
  cases level with
  | primary => exact absurd h (Nat.lt_irrefl 4)
  | _ => rfl

theorem rank_injective : Function.Injective rank := by
  intro a b h
  cases a <;> cases b <;> cases h <;> rfl

theorem rank_le (level : Level) : level.rank ≤ 4 := by
  cases level <;> decide

theorem operators_tighter_subset (level : Level) : level.tighter.operators ⊆ level.operators := by
  cases level <;> decide

/-- No token comes next that goes on with an expression of this level. -/
def StopsAt (level : Level) (rest : List Token) : Prop :=
  ∀ t ∈ rest.head?, t.lexeme ∉ level.operators

theorem stopsAt_cons {level : Level} {t : Token} {rest : List Token} :
    level.StopsAt (t :: rest) ↔ t.lexeme ∉ level.operators := by
  simp [StopsAt]

/-- Where a level stops, the tighter ones do. -/
theorem StopsAt.tighter {level : Level} {rest : List Token} (h : level.StopsAt rest) :
    level.tighter.StopsAt rest :=
  fun t ht hmem => h t ht (level.operators_tighter_subset hmem)

end Level

namespace Grammar

variable {level wanted : Level} {e left right : Expr} {ls rs : List Lexeme} {l : Lexeme}
  {op : BinaryOp} {finish : Nat} {t : Token} {ts rest : List Token}

/-! ## The grammar -/

/-- The lexemes are an expression of the level. -/
inductive Derives : Level → Expr → List Lexeme → Prop where
  | int (n : Int64) : Derives .primary (.num (.int n)) [.int n]
  | float (x : Float) : Derives .primary (.num (.float x)) [.float x]
  | var (name : String) : Derives .primary (.var name) [.variableName name]
  | parens {e : Expr} {ls : List Lexeme} (h : Derives .sum e ls) :
      Derives .primary e (.openParen :: (ls ++ [.closeParen]))
  | call (f : Function) {parts : List (List Lexeme × Expr)} (hne : parts ≠ [])
      (h : ∀ part ∈ parts, Derives .sum part.2 part.1) :
      Derives .primary (.call f (parts.map Prod.snd))
        (.atom f.name :: .openParen :: (commaSeparated (parts.map Prod.fst) ++ [.closeParen]))
  | pow {left right : Expr} {ls rs : List Lexeme} (hl : Derives .primary left ls)
      (hr : Derives .signed right rs) :
      Derives .power (.binary .pow left right) (ls ++ .symbol "**" :: rs)
  | minus {e : Expr} {ls : List Lexeme} (h : Derives .signed e ls) :
      Derives .signed (.neg e) (.symbol "-" :: ls)
  | plus {e : Expr} {ls : List Lexeme} (h : Derives .signed e ls) :
      Derives .signed e (.symbol "+" :: ls)
  | product {left right : Expr} {ls rs : List Lexeme} {l : Lexeme} {op : BinaryOp}
      (ho : productOp? l = some op) (hl : Derives .product left ls)
      (hr : Derives .signed right rs) :
      Derives .product (.binary op left right) (ls ++ l :: rs)
  | sum {left right : Expr} {ls rs : List Lexeme} {l : Lexeme} {op : BinaryOp}
      (ho : sumOp? l = some op) (hl : Derives .sum left ls) (hr : Derives .product right rs) :
      Derives .sum (.binary op left right) (ls ++ l :: rs)
  /-- An expression of a tighter level. -/
  | tighter {level : Level} {e : Expr} {ls : List Lexeme} (h : Derives level.tighter e ls) :
      Derives level e ls

/-- An expression may stand in the place of a looser one. -/
theorem Derives.mono (h : Derives level e ls) (hle : wanted.rank ≤ level.rank) :
    Derives wanted e ls := by
  induction hn : level.rank - wanted.rank generalizing wanted with
  | zero =>
    have heq : wanted.rank = level.rank := by omega
    exact Level.rank_injective heq ▸ h
  | succ n ih =>
    have hfour := level.rank_le
    have htighter : wanted.tighter.rank = wanted.rank + 1 := Level.rank_tighter (by omega)
    exact .tighter (ih (by omega) (by omega))

/-! ## Operators -/

theorem sumOp?_eq_none (h : l ∉ Level.sum.operators) : sumOp? l = none := by
  unfold sumOp?
  split
  case h_3 => rfl
  all_goals exact absurd (by decide) h

theorem productOp?_eq_none (h : l ∉ Level.product.operators) : productOp? l = none := by
  unfold productOp?
  split
  case h_6 => rfl
  all_goals exact absurd (by decide) h

theorem not_mem_of_productOp? (h : productOp? l = some op) : l ∉ Level.signed.operators := by
  intro hmem
  rw [List.mem_singleton.1 hmem] at h
  cases h

theorem not_mem_of_sumOp? (h : sumOp? l = some op) : l ∉ Level.product.operators := by
  intro hmem
  have hall : ∀ l ∈ Level.product.operators, sumOp? l = none := by decide
  rw [hall l hmem] at h
  cases h

/-! ## The readers -/

/-- What a reader gives, without the bound on the tokens that are left. -/
def outcome {α : Type} {n : Nat} (r : Except ReadError (Parsed α n)) :
    Except ReadError (α × List Token) :=
  r.map fun p => (p.value, p.rest)

section Outcome

variable {α β : Type} {m n : Nat} {r : Except ReadError (Parsed α n)} {v : α}

/-- What a reader gives tells the whole result, since bounds have no content. -/
theorem outcome_eq_ok : outcome r = .ok (v, rest) ↔ ∃ hlt, r = .ok ⟨v, rest, hlt⟩ := by
  cases r with
  | error err => simp [outcome, Except.map]
  | ok p =>
    obtain ⟨value, left, hlt⟩ := p
    simp only [outcome, Except.map, Except.ok.injEq, Prod.mk.injEq, Parsed.mk.injEq]
    constructor
    · rintro ⟨rfl, rfl⟩
      exact ⟨hlt, rfl, rfl⟩
    · rintro ⟨_, hv, hrest⟩
      exact ⟨hv, hrest⟩

theorem outcome_weaken (h : n ≤ m) : outcome (r.map (·.weaken h)) = outcome r := by
  cases r <;> rfl

/-- A reader that goes on after another one leaves what this one has left. -/
theorem outcome_after {us : List Token} {q : Reading α us} {f : α → β}
    (h : us.length ≤ ts.length) (hq : outcome q = .ok (v, rest)) :
    outcome (Reading.after f q h : Reading β ts) = .ok (f v, rest) := by
  obtain ⟨hlt, rfl⟩ := outcome_eq_ok.1 hq
  rfl

end Outcome

/-! ### Sums and products -/

/-- A sum starts with a product. -/
theorem outcome_expr (h : outcome (product finish ts) = .ok (e, rest)) :
    outcome (expr finish ts) = outcome (sumTail finish e rest) := by
  obtain ⟨hlt, hproduct⟩ := outcome_eq_ok.1 h
  rw [expr, hproduct]
  exact outcome_weaken _

/-- A product starts with an operand that may have signs. -/
theorem outcome_product (h : outcome (signed finish ts) = .ok (e, rest)) :
    outcome (product finish ts) = outcome (productTail finish e rest) := by
  obtain ⟨hlt, hsigned⟩ := outcome_eq_ok.1 h
  rw [product, hsigned]
  exact outcome_weaken _

/-- The operators of a sum bind to the left. -/
theorem outcome_sumTail_cons (ho : sumOp? t.lexeme = some op)
    (h : outcome (product finish ts) = .ok (right, rest)) :
    outcome (sumTail finish left (t :: ts)) =
      outcome (sumTail finish (.binary op left right) rest) := by
  obtain ⟨hlt, hproduct⟩ := outcome_eq_ok.1 h
  rw [sumTail, ho, hproduct]
  exact outcome_weaken _

/-- The operators of a product bind to the left. -/
theorem outcome_productTail_cons (ho : productOp? t.lexeme = some op)
    (h : outcome (signed finish ts) = .ok (right, rest)) :
    outcome (productTail finish left (t :: ts)) =
      outcome (productTail finish (.binary op left right) rest) := by
  obtain ⟨hlt, hsigned⟩ := outcome_eq_ok.1 h
  rw [productTail, ho, hsigned]
  exact outcome_weaken _

/-- A sum ends before any other token. -/
theorem outcome_sumTail_stop (h : Level.sum.StopsAt rest) :
    outcome (sumTail finish e rest) = .ok (e, rest) := by
  cases rest with
  | nil =>
    rw [sumTail]
    rfl
  | cons t rest =>
    rw [sumTail, sumOp?_eq_none (h t rfl)]
    rfl

theorem outcome_productTail_stop (h : Level.product.StopsAt rest) :
    outcome (productTail finish e rest) = .ok (e, rest) := by
  cases rest with
  | nil =>
    rw [productTail]
    rfl
  | cons t rest =>
    rw [productTail, productOp?_eq_none (h t rfl)]
    rfl

/-! ### Signs and powers -/

theorem outcome_signed_minus (ht : t.lexeme = .symbol "-")
    (h : outcome (signed finish ts) = .ok (e, rest)) :
    outcome (signed finish (t :: ts)) = .ok (.neg e, rest) := by
  obtain ⟨lexeme, position⟩ := t
  subst ht
  rw [signed]
  exact outcome_after _ h

theorem outcome_signed_plus (ht : t.lexeme = .symbol "+")
    (h : outcome (signed finish ts) = .ok (e, rest)) :
    outcome (signed finish (t :: ts)) = .ok (e, rest) := by
  obtain ⟨lexeme, position⟩ := t
  subst ht
  rw [signed]
  exact outcome_after _ h

/-- Without a sign there is nothing to read before the power. -/
theorem signed_eq_power (hminus : t.lexeme ≠ .symbol "-") (hplus : t.lexeme ≠ .symbol "+") :
    signed finish (t :: ts) = power finish (t :: ts) := by
  obtain ⟨lexeme, position⟩ := t
  rw [signed]
  · rintro p us ⟨⟩
    exact hminus rfl
  · rintro p us ⟨⟩
    exact hplus rfl

/-- The exponent of a power may have signs and be a power itself. -/
theorem outcome_power_cons (ht : t.lexeme = .symbol "**")
    (hbase : outcome (primary finish ts) = .ok (left, t :: rest)) {after : List Token}
    (h : outcome (signed finish rest) = .ok (right, after)) :
    outcome (power finish ts) = .ok (.binary .pow left right, after) := by
  obtain ⟨hlt, hprimary⟩ := outcome_eq_ok.1 hbase
  obtain ⟨lexeme, position⟩ := t
  subst ht
  rw [power, hprimary]
  exact outcome_after _ h

/-- Without `**` a power is its base. -/
theorem outcome_power_stop (hbase : outcome (primary finish ts) = .ok (e, rest))
    (h : Level.power.StopsAt rest) : outcome (power finish ts) = .ok (e, rest) := by
  obtain ⟨hlt, hprimary⟩ := outcome_eq_ok.1 hbase
  rw [power, hprimary]
  dsimp only
  split
  next => exact absurd (List.mem_singleton.2 rfl) (h _ rfl)
  next => rfl

/-! ### Operands -/

theorem outcome_primary_parens {p : Nat} (h : outcome (expr finish ts) = .ok (e, t :: rest))
    (ht : t.lexeme = .closeParen) :
    outcome (primary finish (⟨.openParen, p⟩ :: ts)) = .ok (e, rest) := by
  obtain ⟨hlt, hexpr⟩ := outcome_eq_ok.1 h
  obtain ⟨lexeme, position⟩ := t
  subst ht
  rw [primary, hexpr]
  rfl

theorem outcome_primary_call {f : Function} {p q : Nat} {args : List Expr}
    (h : outcome (callArguments finish ts) = .ok (args, rest)) :
    outcome (primary finish (⟨.atom f.name, p⟩ :: ⟨.openParen, q⟩ :: ts)) =
      .ok (.call f args, rest) := by
  rw [primary, f.ofName?_name]
  dsimp only
  rw [outcome_weaken, call]
  exact outcome_after _ h

theorem outcome_callArguments_last (h : outcome (expr finish ts) = .ok (e, t :: rest))
    (ht : t.lexeme = .closeParen) : outcome (callArguments finish ts) = .ok ([e], rest) := by
  obtain ⟨hlt, hexpr⟩ := outcome_eq_ok.1 h
  obtain ⟨lexeme, position⟩ := t
  subst ht
  rw [callArguments, hexpr]
  rfl

theorem outcome_callArguments_cons (h : outcome (expr finish ts) = .ok (e, t :: rest))
    (ht : t.lexeme = .comma) {args : List Expr} {after : List Token}
    (hrest : outcome (callArguments finish rest) = .ok (args, after)) :
    outcome (callArguments finish ts) = .ok (e :: args, after) := by
  obtain ⟨hlt, hexpr⟩ := outcome_eq_ok.1 h
  obtain ⟨lexeme, position⟩ := t
  subst ht
  rw [callArguments, hexpr]
  exact outcome_after _ hrest

/-! ## What is derived is read -/

theorem exists_of_lexemes_append_cons (h : ts.map Token.lexeme = ls ++ l :: rs) :
    ∃ us t vs, ts = us ++ t :: vs ∧ us.map Token.lexeme = ls ∧ t.lexeme = l ∧
      vs.map Token.lexeme = rs := by
  obtain ⟨us, ws, rfl, hus, hws⟩ := List.map_eq_append_iff.1 h
  obtain ⟨t, vs, rfl, ht, hvs⟩ := List.map_eq_cons_iff.1 hws
  exact ⟨us, t, vs, rfl, hus, ht, hvs⟩

/-- Closing parentheses and commas end an expression. -/
theorem sum_stopsAt (h : t.lexeme = .closeParen ∨ t.lexeme = .comma) :
    Level.sum.StopsAt (t :: rest) := by
  rw [Level.stopsAt_cons]
  rcases h with h | h <;> rw [h] <;> decide

/-- The lexemes begin with no sign. -/
def Unsigned (ls : List Lexeme) : Prop :=
  ∃ l more, ls = l :: more ∧ l ≠ .symbol "-" ∧ l ≠ .symbol "+"

theorem Unsigned.append (h : Unsigned ls) (rs : List Lexeme) : Unsigned (ls ++ rs) := by
  obtain ⟨l, more, rfl, hl⟩ := h
  exact ⟨l, more ++ rs, rfl, hl⟩

theorem Unsigned.signed_eq_power (h : Unsigned ls) (hts : ts.map Token.lexeme = ls) :
    signed finish (ts ++ rest) = power finish (ts ++ rest) := by
  obtain ⟨l, more, rfl, hminus, hplus⟩ := h
  obtain ⟨t, us, rfl, rfl, -⟩ := List.map_eq_cons_iff.1 hts
  exact Grammar.signed_eq_power hminus hplus

/-- The reader of the level reads the lexemes as the expression. In a sum or a product it goes on
with the expression as the left operand of what follows, so that operators group to the left. -/
def Parses : Level → Expr → List Lexeme → Prop
  | .sum, e, ls => ∀ finish ts rest, ts.map Token.lexeme = ls → Level.product.StopsAt rest →
      outcome (expr finish (ts ++ rest)) = outcome (sumTail finish e rest)
  | .product, e, ls => ∀ finish ts rest, ts.map Token.lexeme = ls → Level.signed.StopsAt rest →
      outcome (product finish (ts ++ rest)) = outcome (productTail finish e rest)
  | .signed, e, ls => ∀ finish ts rest, ts.map Token.lexeme = ls → Level.signed.StopsAt rest →
      outcome (signed finish (ts ++ rest)) = .ok (e, rest)
  | .power, e, ls => Unsigned ls ∧ ∀ finish ts rest, ts.map Token.lexeme = ls →
      Level.power.StopsAt rest → outcome (power finish (ts ++ rest)) = .ok (e, rest)
  | .primary, e, ls => Unsigned ls ∧ ∀ finish ts rest, ts.map Token.lexeme = ls →
      outcome (primary finish (ts ++ rest)) = .ok (e, rest)

namespace Parses

/-- An expression is read up to a token that cannot go on. -/
theorem expr_stop (h : Parses .sum e ls) (hts : ts.map Token.lexeme = ls)
    (hrest : Level.sum.StopsAt rest) : outcome (expr finish (ts ++ rest)) = .ok (e, rest) :=
  (h finish ts rest hts hrest.tighter).trans (outcome_sumTail_stop hrest)

theorem product_stop (h : Parses .product e ls) (hts : ts.map Token.lexeme = ls)
    (hrest : Level.product.StopsAt rest) :
    outcome (product finish (ts ++ rest)) = .ok (e, rest) :=
  (h finish ts rest hts hrest.tighter).trans (outcome_productTail_stop hrest)

/-- Each reader begins with the one of the next tighter level. -/
theorem of_tighter (h : Parses level.tighter e ls) : Parses level e ls := by
  cases level with
  | sum =>
    intro finish ts rest hts hrest
    exact outcome_expr (h.product_stop hts hrest)
  | product =>
    intro finish ts rest hts hrest
    exact outcome_product (h finish ts rest hts hrest)
  | signed =>
    intro finish ts rest hts hrest
    rw [h.1.signed_eq_power hts]
    exact h.2 finish ts rest hts hrest
  | power =>
    refine ⟨h.1, fun finish ts rest hts hrest => ?_⟩
    exact outcome_power_stop (h.2 finish ts rest hts) hrest
  | primary => exact h

theorem of_lexeme (hl : ∀ s, l ≠ .symbol s)
    (h : ∀ finish p rest, outcome (primary finish (⟨l, p⟩ :: rest)) = .ok (e, rest)) :
    Parses .primary e [l] := by
  refine ⟨⟨l, [], rfl, hl _, hl _⟩, fun finish ts rest hts => ?_⟩
  obtain ⟨⟨_, p⟩, rfl, rfl⟩ := List.map_eq_singleton_iff.1 hts
  exact h finish p rest

theorem parens (h : Parses .sum e ls) :
    Parses .primary e (.openParen :: (ls ++ [.closeParen])) := by
  refine ⟨⟨_, _, rfl, by simp, by simp⟩, fun finish ts rest hts => ?_⟩
  obtain ⟨⟨_, p⟩, us, rfl, rfl, hus⟩ := List.map_eq_cons_iff.1 hts
  obtain ⟨us, t, vs, rfl, hls, ht, hvs⟩ := exists_of_lexemes_append_cons hus
  obtain rfl := List.map_eq_nil_iff.1 hvs
  rw [List.cons_append, List.append_assoc]
  exact outcome_primary_parens (h.expr_stop hls (sum_stopsAt (.inl ht))) ht

/-- Arguments are read up to the parenthesis. -/
theorem callArguments {parts : List (List Lexeme × Expr)} (hne : parts ≠ [])
    (h : ∀ part ∈ parts, Parses .sum part.2 part.1)
    (hts : ts.map Token.lexeme = commaSeparated (parts.map Prod.fst))
    (ht : t.lexeme = .closeParen) :
    outcome (Grammar.callArguments finish (ts ++ t :: rest)) = .ok (parts.map Prod.snd, rest) := by
  induction parts generalizing ts with
  | nil => exact absurd rfl hne
  | cons part others ih =>
    obtain ⟨hfirst, hothers⟩ := List.forall_mem_cons.1 h
    by_cases hlast : others = []
    · subst hlast
      rw [List.map_singleton, commaSeparated_singleton] at hts
      exact outcome_callArguments_last (hfirst.expr_stop hts (sum_stopsAt (.inl ht))) ht
    · rw [List.map_cons, commaSeparated_cons (by simpa using hlast)] at hts
      obtain ⟨us, c, vs, rfl, hus, hc, hvs⟩ := exists_of_lexemes_append_cons hts
      rw [List.append_assoc, List.cons_append]
      exact outcome_callArguments_cons (hfirst.expr_stop hus (sum_stopsAt (.inr hc))) hc
        (ih hlast hothers hvs)

theorem call (f : Function) {parts : List (List Lexeme × Expr)} (hne : parts ≠ [])
    (h : ∀ part ∈ parts, Parses .sum part.2 part.1) :
    Parses .primary (.call f (parts.map Prod.snd))
      (.atom f.name :: .openParen :: (commaSeparated (parts.map Prod.fst) ++ [.closeParen])) := by
  refine ⟨⟨_, _, rfl, by simp, by simp⟩, fun finish ts rest hts => ?_⟩
  obtain ⟨⟨_, p⟩, us, rfl, rfl, hus⟩ := List.map_eq_cons_iff.1 hts
  obtain ⟨⟨_, q⟩, ws, rfl, rfl, hws⟩ := List.map_eq_cons_iff.1 hus
  obtain ⟨us, t, vs, rfl, hls, ht, hvs⟩ := exists_of_lexemes_append_cons hws
  obtain rfl := List.map_eq_nil_iff.1 hvs
  rw [List.cons_append, List.cons_append, List.append_assoc]
  exact outcome_primary_call (callArguments hne h hls ht)

/-- Powers bind to the right. -/
theorem pow (hl : Parses .primary left ls) (hr : Parses .signed right rs) :
    Parses .power (.binary .pow left right) (ls ++ .symbol "**" :: rs) := by
  refine ⟨hl.1.append _, fun finish ts rest hts hrest => ?_⟩
  obtain ⟨us, t, vs, rfl, hus, ht, hvs⟩ := exists_of_lexemes_append_cons hts
  rw [List.append_assoc]
  exact outcome_power_cons ht (hl.2 finish us _ hus) (hr finish vs rest hvs hrest)

theorem minus (h : Parses .signed e ls) : Parses .signed (.neg e) (.symbol "-" :: ls) := by
  intro finish ts rest hts hrest
  obtain ⟨t, us, rfl, ht, hus⟩ := List.map_eq_cons_iff.1 hts
  exact outcome_signed_minus ht (h finish us rest hus hrest)

theorem plus (h : Parses .signed e ls) : Parses .signed e (.symbol "+" :: ls) := by
  intro finish ts rest hts hrest
  obtain ⟨t, us, rfl, ht, hus⟩ := List.map_eq_cons_iff.1 hts
  exact outcome_signed_plus ht (h finish us rest hus hrest)

/-- The operator ends the signed operand before it, and the tail collects it. -/
theorem product (ho : productOp? l = some op) (hl : Parses .product left ls)
    (hr : Parses .signed right rs) :
    Parses .product (.binary op left right) (ls ++ l :: rs) := by
  intro finish ts rest hts hrest
  obtain ⟨us, t, vs, rfl, hus, rfl, hvs⟩ := exists_of_lexemes_append_cons hts
  have hstop : Level.signed.StopsAt (t :: (vs ++ rest)) :=
    Level.stopsAt_cons.2 (not_mem_of_productOp? ho)
  rw [List.append_assoc, List.cons_append, hl finish us _ hus hstop]
  exact outcome_productTail_cons ho (hr finish vs rest hvs hrest)

/-- The operator ends the product before it, and the tail collects it. -/
theorem sum (ho : sumOp? l = some op) (hl : Parses .sum left ls)
    (hr : Parses .product right rs) : Parses .sum (.binary op left right) (ls ++ l :: rs) := by
  intro finish ts rest hts hrest
  obtain ⟨us, t, vs, rfl, hus, rfl, hvs⟩ := exists_of_lexemes_append_cons hts
  have hstop : Level.product.StopsAt (t :: (vs ++ rest)) :=
    Level.stopsAt_cons.2 (not_mem_of_sumOp? ho)
  rw [List.append_assoc, List.cons_append, hl finish us _ hus hstop]
  exact outcome_sumTail_cons ho (hr.product_stop hvs hrest)

end Parses

/-- What the grammar derives is read, up to the first token that cannot go on. -/
theorem Derives.parses (h : Derives level e ls) : Parses level e ls := by
  induction h with
  | int n =>
    refine .of_lexeme (by simp) fun finish p rest => ?_
    rw [primary]
    rfl
  | float x =>
    refine .of_lexeme (by simp) fun finish p rest => ?_
    rw [primary]
    rfl
  | var name =>
    refine .of_lexeme (by simp) fun finish p rest => ?_
    rw [primary]
    rfl
  | parens _ ih => exact ih.parens
  | call f hne _ ih => exact .call f hne ih
  | pow _ _ ihl ihr => exact .pow ihl ihr
  | minus _ ih => exact ih.minus
  | plus _ ih => exact ih.plus
  | product ho _ _ ihl ihr => exact .product ho ihl ihr
  | sum ho _ _ ihl ihr => exact .sum ho ihl ihr
  | tighter _ ih => exact ih.of_tighter

/-- **What the table derives is read as the same tree**, up to a token that cannot go on with it. -/
theorem Derives.expr_eq_ok (h : Derives level e ls) (finish : Nat)
    (hts : ts.map Token.lexeme = ls) (hrest : Level.sum.StopsAt rest) :
    ∃ hlt, expr finish (ts ++ rest) = .ok ⟨e, rest, hlt⟩ :=
  outcome_eq_ok.1 ((h.mono (Nat.zero_le _) : Derives .sum e ls).parses.expr_stop hts hrest)

/-- The grammar is unambiguous: the same lexemes are no two expressions. -/
theorem Derives.unique (h : Derives level left ls) (h' : Derives wanted right ls) :
    left = right := by
  have hts : (ls.map fun l => (⟨l, 0⟩ : Token)).map Token.lexeme = ls := by
    simp [Function.comp_def]
  have hnil : Level.sum.StopsAt [] := by simp [Level.StopsAt]
  obtain ⟨_, hleft⟩ := h.expr_eq_ok 0 hts hnil
  obtain ⟨_, hright⟩ := h'.expr_eq_ok 0 hts hnil
  cases hleft.symm.trans hright
  rfl

end Grammar

/-! ## Writing expressions -/

namespace BinaryOp

/-- The level of what the operator makes. -/
def level : BinaryOp → Level
  | add | sub => .sum
  | mul | div | floorDiv | mod => .product
  | pow => .power

/-- The level of the place on the left of the operator. -/
def leftPlace : BinaryOp → Level
  | add | sub => .sum
  | mul | div | floorDiv | mod => .product
  | pow => .primary

/-- The level of the place on the right of the operator. -/
def rightPlace : BinaryOp → Level
  | add | sub => .product
  | mul | div | floorDiv | mod => .signed
  | pow => .signed

/-- The operator as a lexeme. -/
def lexeme : BinaryOp → Lexeme
  | mod => .atom mod.symbol
  | op => .symbol op.symbol

end BinaryOp

/-- The lexemes of an expression of some level in a place, with parentheses if the place is for a
tighter level. -/
def inPlace (place level : Level) (ls : List Lexeme) : List Lexeme :=
  if place.rank ≤ level.rank then ls else .openParen :: (ls ++ [.closeParen])

namespace Expr

/-- The level of an expression. -/
def level : Expr → Level
  | num _ | var _ | call _ _ => .primary
  | neg _ => .signed
  | binary op _ _ => op.level

mutual

/-- The lexemes of an expression, with parentheses only where the table requires them. -/
def lexemes : Expr → List Lexeme
  | num (.int n) => [.int n]
  | num (.float x) => [.float x]
  | var name => [.variableName name]
  | neg e => .symbol "-" :: inPlace .signed e.level e.lexemes
  | binary op left right =>
    inPlace op.leftPlace left.level left.lexemes ++
      op.lexeme :: inPlace op.rightPlace right.level right.lexemes
  | call f args =>
    .atom f.name :: .openParen :: (commaSeparated (lexemesAll args) ++ [.closeParen])

/-- The lexemes of several expressions. -/
def lexemesAll : List Expr → List (List Lexeme)
  | [] => []
  | e :: rest => e.lexemes :: lexemesAll rest

end

mutual

/-- Every call has an argument. -/
def callsHaveArguments : Expr → Bool
  | num _ | var _ => true
  | neg e => e.callsHaveArguments
  | binary _ left right => left.callsHaveArguments && right.callsHaveArguments
  | call _ args => !args.isEmpty && allCallsHaveArguments args

/-- Every call in several expressions has an argument. -/
def allCallsHaveArguments : List Expr → Bool
  | [] => true
  | e :: rest => e.callsHaveArguments && allCallsHaveArguments rest

end

theorem lexemesAll_eq_map (es : List Expr) : lexemesAll es = es.map lexemes := by
  induction es with
  | nil => rfl
  | cons e rest ih => rw [lexemesAll, ih, List.map_cons]

theorem allCallsHaveArguments_eq_all (es : List Expr) :
    allCallsHaveArguments es = es.all callsHaveArguments := by
  induction es with
  | nil => rfl
  | cons e rest ih => rw [allCallsHaveArguments, ih, List.all_cons]

end Expr

/-! ### What is written is derived -/

open Grammar

variable {e left right : Expr} {ls rs : List Lexeme}

theorem Grammar.Derives.inPlace {level : Level} (h : Derives level e ls) (place : Level) :
    Derives place e (inPlace place level ls) := by
  unfold Horn.inPlace
  split
  next hle => exact h.mono hle
  next =>
    have hparens := Derives.parens (h.mono (Nat.zero_le _))
    exact hparens.mono place.rank_le

/-- The table gives the operator its places. -/
theorem Grammar.Derives.binary (op : BinaryOp) (hl : Derives op.leftPlace left ls)
    (hr : Derives op.rightPlace right rs) :
    Derives op.level (.binary op left right) (ls ++ op.lexeme :: rs) := by
  cases op with
  | add | sub => exact .sum rfl hl hr
  | mul | div | floorDiv | mod => exact .product rfl hl hr
  | pow => exact .pow hl hr

/-- An expression is written as the grammar derives it. -/
theorem Expr.derives (e : Expr) (he : e.callsHaveArguments = true) :
    Derives e.level e e.lexemes := by
  induction e with
  | num n =>
    cases n with
    | int n => exact .int n
    | float x => exact .float x
  | var name => exact .var name
  | neg e ih => exact .minus ((ih he).inPlace .signed)
  | binary op left right ihl ihr =>
    rw [callsHaveArguments, Bool.and_eq_true] at he
    exact .binary op ((ihl he.1).inPlace _) ((ihr he.2).inPlace _)
  | call f args ih =>
    rw [callsHaveArguments, Bool.and_eq_true, Bool.not_eq_true', List.isEmpty_eq_false_iff,
      allCallsHaveArguments_eq_all, List.all_eq_true] at he
    have hparts : ∀ part ∈ args.map fun e => (e.lexemes, e), Derives .sum part.2 part.1 := by
      intro part hpart
      obtain ⟨e, hmem, rfl⟩ := List.mem_map.1 hpart
      exact (ih e hmem (he.2 e hmem)).mono (Nat.zero_le _)
    have hcall := Derives.call f (by simpa using he.1) hparts
    simp only [List.map_map, Function.comp_def, List.map_id'] at hcall
    rwa [level, lexemes, lexemesAll_eq_map]

/-- **The reader of expressions follows the table of operators.** An expression that is written with
parentheses only where the table requires them is read as the same tree, and reading stops before a
token that cannot go on with an expression. -/
theorem Expr.read_lexemes (finish : Nat) (e : Expr) (he : e.callsHaveArguments = true)
    (ts rest : List Token) (hts : ts.map Token.lexeme = e.lexemes)
    (hrest : Level.sum.StopsAt rest) :
    ∃ hlt, Grammar.expr finish (ts ++ rest) = .ok ⟨e, rest, hlt⟩ :=
  (e.derives he).expr_eq_ok finish hts hrest

/-- `(-2) ** -X ** 2 mod max(1, (2 + 3) * 4) - (Y - 0.5)` -/
def everyLevel : Expr :=
  .binary .sub
    (.binary .mod
      (.binary .pow (.neg (.num (.int 2))) (.neg (.binary .pow (.var "X") (.num (.int 2)))))
      (.call .max [.num (.int 1),
        .binary .mul (.binary .add (.num (.int 2)) (.num (.int 3))) (.num (.int 4))]))
    (.binary .sub (.var "Y") (.num (.float 0.5)))

/-- The lexemes of the expression as tokens one after the other. -/
def everyLevelTokens : List Token :=
  everyLevel.lexemes.mapIdx fun i l => ⟨l, i⟩

theorem Expr.read_lexemes_everyLevel :
    everyLevel.lexemes =
      [.openParen, .symbol "-", .int 2, .closeParen, .symbol "**", .symbol "-", .variableName "X",
        .symbol "**", .int 2, .atom "mod", .atom "max", .openParen, .int 1, .comma, .openParen,
        .int 2, .symbol "+", .int 3, .closeParen, .symbol "*", .int 4, .closeParen, .symbol "-",
        .openParen, .variableName "Y", .symbol "-", .float 0.5, .closeParen] ∧
    everyLevelTokens.map Token.lexeme = everyLevel.lexemes ∧
    ∃ hlt, Grammar.expr 30 (everyLevelTokens ++ [⟨.symbol ">=", 28⟩, ⟨.int 1, 29⟩]) =
      .ok ⟨everyLevel, [⟨.symbol ">=", 28⟩, ⟨.int 1, 29⟩], hlt⟩ :=
  ⟨rfl, rfl, Expr.read_lexemes 30 everyLevel rfl _ _ rfl (by simp [Level.StopsAt, Level.operators])⟩

end StackLogic.Horn
