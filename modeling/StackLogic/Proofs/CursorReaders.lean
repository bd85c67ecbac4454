import StackLogic.Proofs.Cursor
import StackLogic.Proofs.Precedence

/-!
# Readers that walk

The readers of terms, heads and expressions once more, as walks of a cursor that collect what they
have read as they go on. Nothing here says that a reader comes to an end. The loops and the readers
that come back to themselves have a limit instead, for the turns of the loop and for the depth of
the calls: a walk that needs more is given up.

In front of fewer tokens than the limit, the walks do what the readers of lists do
(`Walk.ReadsBelow`), so none of them is given up there: every turn and every call takes place behind
a token that has been moved over. Each reader has one lemma, which assumes this of the readers it
calls; `follows_elements`, `follows_tail`, `follows_moreArguments` and `readsBelow_signed` are the
inductions on the limit.
-/

namespace StackLogic.Horn

open Grammar (Enclosure Reading sumOp? productOp? outcome unexpected)

/-! ## The readers -/

namespace Walk

/-- What is missing when an element is followed by this slot. -/
def missing : Enclosure → Slot → Expectation
  | .parens, _ => .commaOrParen
  | .brackets, s => if s.lexeme? = some .pipe then .noTail else .commaOrBracket

/-- The terms of a single token that is no name of an atom. -/
def single? : Lexeme → Option Term
  | .variableName name => some (.var name)
  | .int n => some (.num (.int n))
  | .float x => some (.num (.float x))
  | .str s => some (.str s)
  | .bang => some (.atom "!")
  | _ => none

/-- The number that a minus sign and a token stand for. -/
def negative? : Lexeme → Option Term
  | .int n => some (.num (.int (-n)))
  | .float x => some (.num (.float (-x)))
  | _ => none

/-- The expressions of a single token. -/
def operand? : Lexeme → Option Expr
  | .int n => some (.num (.int n))
  | .float x => some (.num (.float x))
  | .variableName name => some (.var name)
  | _ => none

section

variable (elements : Enclosure → Walk (List Term))

/-- Read the elements of a list after the opening bracket. -/
def list : Walk Term := do
  if (← peek).lexeme? = some .closeBracket then
    let _ ← advance
    return .list []
  else return .list (← elements .brackets)

/-- Read the arguments after an opening parenthesis. -/
def arguments : Walk (List Term) := do
  if (← peek).lexeme? = some .closeParen then throw ((← peek).unexpected .arguments)
  else elements .parens

/-- Read a term. -/
def term : Walk Term := do
  let s ← advance
  match s.lexeme? with
  | some .openBracket => list elements
  | some (.atom name) =>
    if (← peek).lexeme? = some .openParen then
      let _ ← advance
      return .atom (Term.displayHead name (← arguments elements))
    else return .atom name
  | some (.symbol sign) =>
    if sign = "-" then
      match (← peek).lexeme?.bind negative? with
      | some n =>
        let _ ← advance
        return n
      | none => return .atom sign
    else return .atom sign
  | l =>
    match l.bind single? with
    | some t => return t
    | none => throw (s.unexpected .term)

/-- Read a predicate name and its arguments, if it has any. -/
def head : Walk (String × List Term) := do
  let s ← advance
  match s.lexeme? with
  | some (.atom name) =>
    if (← peek).lexeme? = some .openParen then
      let _ ← advance
      return (name, ← arguments elements)
    else return (name, [])
  | _ => throw (s.unexpected .predicateName)

end

/-- Read terms up to the closing token and add them to those that have been read. -/
def elements : (limit : Nat) → Enclosure → List Term → Walk (List Term)
  | 0, _, _ => unfinished
  | limit + 1, e, read => do
    let t ← term fun e => elements limit e []
    let s ← advance
    if s.lexeme? = some .comma then elements limit e (read ++ [t])
    else if s.lexeme? = some e.close then return read ++ [t]
    else throw (s.unexpected (missing e s))

/-- Move over a point if there is one. -/
def skipPoint : Walk Unit := do
  if (← peek).lexeme? = some (.symbol ".") then
    let _ ← advance

/-- Nothing but a final `.` may follow. -/
def expectEnd : Walk Unit := do
  skipPoint
  let s ← peek
  if s.lexeme?.isSome then throw (s.unexpected .endOfInput)

/-- Collect the operands of the operators of one level. -/
def tail (op? : Lexeme → Option BinaryOp) (operand : Walk Expr) : (limit : Nat) → Expr → Walk Expr
  | 0, _ => unfinished
  | limit + 1, left => do
    match (← peek).lexeme?.bind op? with
    | some op =>
      let _ ← advance
      let right ← operand
      tail op? operand limit (.binary op left right)
    | none => return left

/-- Read the operands of one level and the operators between them. -/
def chain (op? : Lexeme → Option BinaryOp) (operand : Walk Expr) (limit : Nat) : Walk Expr := do
  tail op? operand limit (← operand)

/-- Read more expressions and add them to those that have been read. -/
def moreArguments (expr : Walk Expr) : (limit : Nat) → List Expr → Walk (List Expr)
  | 0, _ => unfinished
  | limit + 1, read => do
    let s ← advance
    if s.lexeme? = some .comma then
      let next ← expr
      moreArguments expr limit (read ++ [next])
    else if s.lexeme? = some .closeParen then return read
    else throw (s.unexpected .commaOrParen)

section

variable (expr : Walk Expr) (limit : Nat)

/-- Read expressions up to the closing parenthesis. -/
def callArguments : Walk (List Expr) := do
  let first ← expr
  moreArguments expr limit [first]

/-- Read what follows the name of a function. -/
def call (f : Function) : Walk Expr := do
  let s ← advance
  if s.lexeme? = some .openParen then
    return .call f (← callArguments expr limit)
  else throw (s.unexpected .openParen)

/-- Read a number, a variable, a function call, or an expression in parentheses. -/
def primary : Walk Expr := do
  let s ← advance
  match s.lexeme? with
  | some .openParen =>
    let inner ← expr
    let close ← advance
    if close.lexeme? = some .closeParen then return inner
    else throw (close.unexpected .closeParen)
  | some (.atom name) =>
    match Function.ofName? name with
    | none => throw (s.unexpected .functionName)
    | some f => call expr limit f
  | l =>
    match l.bind operand? with
    | some e => return e
    | none => throw (s.unexpected .operand)

end

section

variable (signed : Walk Expr) (limit : Nat)

/-- Read a product. -/
def product : Walk Expr := chain productOp? signed limit

/-- Read an expression. -/
def expr : Walk Expr := chain sumOp? (product signed limit) limit

/-- Read a power. -/
def power : Walk Expr := do
  let base ← primary (expr signed limit) limit
  if (← peek).lexeme? = some (.symbol "**") then
    let _ ← advance
    return .binary .pow base (← signed)
  else return base

end

/-- Read an operand with any number of signs before it. -/
def signed : (limit : Nat) → Walk Expr
  | 0 => unfinished
  | limit + 1 => do
    let s ← peek
    if s.lexeme? = some (.symbol "-") then
      let _ ← advance
      return .neg (← signed limit)
    else if s.lexeme? = some (.symbol "+") then
      let _ ← advance
      signed limit
    else power (signed limit) limit

/-- Read a term with a limit. -/
def termWithin (limit : Nat) : Walk Term := term fun e => elements limit e []

/-- Read a head with a limit. -/
def headWithin (limit : Nat) : Walk (String × List Term) := head fun e => elements limit e []

/-- Read an expression with a limit. -/
def exprWithin (limit : Nat) : Walk Expr := expr (signed limit) limit

end Walk

/-! ## Readers of lists -/

section

variable {α β : Type} {row : Tokens} {ts us rest : List Token}

theorem Tokens.next_cons (row : Tokens) (t : Token) (ts : List Token) :
    (row.next (t :: ts)).lexeme? = some t.lexeme := rfl

theorem Tokens.exists_of_next {l : Lexeme} (h : (row.next ts).lexeme? = some l) :
    ∃ p rest, ts = ⟨l, p⟩ :: rest := by
  cases ts with
  | nil => cases h
  | cons t rest =>
    obtain ⟨lexeme, p⟩ := t
    cases h
    exact ⟨p, rest, rfl⟩

theorem Tokens.next_ne {l : Lexeme} (h : ∀ p rest, ts = ⟨l, p⟩ :: rest → False) :
    ¬ (row.next ts).lexeme? = some l := by
  intro hnext
  obtain ⟨p, rest, heq⟩ := exists_of_next hnext
  exact h p rest heq

theorem except_map_map {ε γ : Type} (r : Except ε α) (f : α → β) (g : β → γ) :
    (r.map f).map g = r.map fun a => g (f a) := by
  cases r <;> rfl

/-- Nothing has been read before. -/
theorem except_map_nil_append {ε : Type} (r : Except ε (List α × β)) :
    (r.map fun p => ([] ++ p.1, p.2)) = r := by
  cases r <;> rfl

namespace Grammar

/-- What a reader makes of another one's result does not change what is left. -/
theorem outcome_after_eq_map {f : α → β} {r : Reading α us} (h : us.length ≤ ts.length) :
    outcome (Reading.after f r h : Reading β ts) = (outcome r).map fun p => (f p.1, p.2) := by
  cases r <;> rfl

theorem outcome_after_id {r : Reading α us} (h : us.length ≤ ts.length) :
    outcome (Reading.after id r h : Reading α ts) = outcome r := by
  cases r <;> rfl

theorem term_negative {finish p q : Nat} {l : Lexeme} {n : Term} (h : Walk.negative? l = some n) :
    term finish (⟨.symbol "-", p⟩ :: ⟨l, q⟩ :: rest) = Reading.two n rest := by
  cases l with
  | int | float =>
    cases h
    rw [term]
  | _ => cases h

/-- A symbol is an atom unless it is the sign of a number. -/
theorem term_symbol (row : Tokens) {finish p : Nat} {sign : String}
    (h : sign = "-" → (row.next ts).lexeme?.bind Walk.negative? = none) :
    term finish (⟨.symbol sign, p⟩ :: ts) = Reading.one (Term.atom sign) ts := by
  rw [term]
  · rintro q n us rfl rfl
    cases h rfl
  · rintro q x us rfl rfl
    cases h rfl

end Grammar

theorem Walk.missing_next (e : Enclosure) (row : Tokens) (ts : List Token) :
    missing e (row.next ts) = e.missing ts := by
  cases e with
  | parens => cases ts <;> rfl
  | brackets =>
    cases ts with
    | nil => rfl
    | cons t ts =>
      obtain ⟨l, p⟩ := t
      cases l <;> rfl

end

/-! ## The walks follow them -/

namespace Walk

open Tokens Grammar

variable {α β : Type} {m n : Nat} {row : Tokens} {ts : List Token} {c : Cursor}

/-- In front of fewer than `n` tokens, the walk does what the reader does with them. -/
def ReadsBelow (w : Walk α) (n : Nat)
    (read : (finish : Nat) → (ts : List Token) → Reading α ts) : Prop :=
  ∀ ⦃row : Tokens⦄ ⦃ts : List Token⦄ ⦃c : Cursor⦄, ts.length < n → c.Before row ts →
    w.Follows row c (outcome (read row.finish ts))

theorem ReadsBelow.mono {w : Walk α} {read : (finish : Nat) → (ts : List Token) → Reading α ts}
    (h : w.ReadsBelow n read) (hmn : m ≤ n) : w.ReadsBelow m read :=
  fun _ _ _ hlen => h (hlen.trans_le hmn)

/-- A walk that collects values has read nothing else if there was nothing before. -/
theorem ReadsBelow.of_collects {w : Walk (List α)}
    {read : (finish : Nat) → (ts : List Token) → Reading (List α) ts}
    (h : ∀ ⦃row ts c⦄, ts.length < n → c.Before row ts →
      w.Follows row c ((outcome (read row.finish ts)).map fun p => ([] ++ p.1, p.2))) :
    w.ReadsBelow n read := by
  intro row ts c hlen hc
  have hread := h hlen hc
  rwa [except_map_nil_append] at hread

/-- After a reading the walk goes on, unless there was an error. -/
theorem Follows.then {w : Walk α} {k : α → Walk β} {q : Except ReadError (Parsed α n)}
    {r : Except ReadError (β × List Token)} (hw : w.Follows row c (outcome q))
    (herror : ∀ e, q = .error e → r = .error e)
    (hok : ∀ p, q = .ok p → ∀ c', c'.Before row p.rest → (k p.value).Follows row c' r) :
    (w >>= k).Follows row c r := by
  cases q with
  | error e =>
    rw [herror e rfl]
    exact hw.bind_error
  | ok p => exact hw.bind (hok p rfl)

/-- The error at a slot that has just been left. -/
theorem Follows.unexpected {k : Slot → Walk α} (h : c.Before row ts) {e : Expectation}
    (hk : k (row.next ts) = throw ((row.next ts).unexpected e)) :
    (advance >>= k).Follows row c (.error (unexpected e row.finish ts)) := by
  refine (follows_advance h).bind fun c' h' => ?_
  rw [hk, ← row.unexpected_next]
  exact follows_throw h' h.next_mem e

/-! ### Terms -/

section

variable {elements : Enclosure → Walk (List Term)}

/-- Arguments are read if sequences are. -/
theorem readsBelow_arguments
    (helements : ∀ e, (elements e).ReadsBelow n (Grammar.sequence e)) :
    (arguments elements).ReadsBelow n Grammar.arguments := by
  intro row ts c hlen hc
  rw [arguments]
  refine (follows_peek hc).bind fun c hc => ?_
  by_cases hclose : (row.next ts).lexeme? = some .closeParen
  · obtain ⟨p, rest, rfl⟩ := exists_of_next hclose
    rw [if_pos hclose, Grammar.arguments]
    exact (follows_peek hc).bind fun c hc => follows_throw hc hc.next_mem _
  · have hsequence : Grammar.arguments row.finish ts = Grammar.sequence .parens row.finish ts := by
      rw [Grammar.arguments]
      rintro p us rfl
      exact hclose rfl
    rw [if_neg hclose, hsequence]
    exact helements .parens hlen hc

/-- A list is read if sequences are. -/
theorem follows_list {p : Nat} (helements : ∀ e, (elements e).ReadsBelow n (Grammar.sequence e))
    (hlen : ts.length < n) (hc : c.Before row ts) :
    (list elements).Follows row c
      (outcome (Grammar.term row.finish (⟨.openBracket, p⟩ :: ts))) := by
  rw [list]
  refine (follows_peek hc).bind fun c hc => ?_
  by_cases hclose : (row.next ts).lexeme? = some .closeBracket
  · obtain ⟨q, rest, rfl⟩ := exists_of_next hclose
    rw [if_pos hclose, Grammar.term]
    exact (follows_move hc).bind fun c hc => follows_pure hc _
  · have hterm : Grammar.term row.finish (⟨.openBracket, p⟩ :: ts) =
        Reading.after Term.list (Grammar.sequence .brackets row.finish ts) (Nat.le_succ _) := by
      rw [Grammar.term]
      rintro q us rfl
      exact hclose rfl
    rw [if_neg hclose, hterm, outcome_after_eq_map]
    exact (helements .brackets hlen hc).map

/-- A compound term is read if sequences are. -/
theorem follows_compound {name : String} {p : Nat}
    (helements : ∀ e, (elements e).ReadsBelow n (Grammar.sequence e)) (hlen : ts.length < n)
    (hc : c.Before row (⟨.atom name, p⟩ :: ts)) :
    (term elements).Follows row c (outcome (Grammar.term row.finish (⟨.atom name, p⟩ :: ts))) := by
  rw [term]
  refine (follows_move hc).bind fun c hc => (follows_peek hc).bind fun c hc => ?_
  by_cases hopen : (row.next ts).lexeme? = some .openParen
  · obtain ⟨q, inner, rfl⟩ := exists_of_next hopen
    have hinner : inner.length < n := Nat.lt_of_succ_lt hlen
    rw [if_pos hopen, Grammar.term, outcome_after_eq_map]
    exact (follows_move hc).bind fun c hc => (readsBelow_arguments helements hinner hc).map
  · have hterm : Grammar.term row.finish (⟨.atom name, p⟩ :: ts) =
        Reading.one (Term.atom name) ts := by
      rw [Grammar.term]
      rintro q us rfl
      exact hopen rfl
    rw [if_neg hopen, hterm]
    exact follows_pure hc _

theorem follows_symbol {sign : String} {p : Nat} (hc : c.Before row (⟨.symbol sign, p⟩ :: ts)) :
    (term elements).Follows row c
      (outcome (Grammar.term row.finish (⟨.symbol sign, p⟩ :: ts))) := by
  rw [term]
  refine (follows_move hc).bind fun c' hc' => ?_
  dsimp only [Slot.ofToken]
  by_cases hsign : sign = "-"
  · subst hsign
    rw [if_pos rfl]
    refine (follows_peek hc').bind fun c' hc' => ?_
    cases hnegative : (row.next ts).lexeme?.bind negative? with
    | none =>
      rw [term_symbol row fun _ => hnegative]
      exact follows_pure hc' _
    | some n =>
      obtain ⟨l, hl, hn⟩ := Option.bind_eq_some_iff.1 hnegative
      obtain ⟨q, rest, rfl⟩ := exists_of_next hl
      rw [term_negative hn]
      exact (follows_move hc').bind fun c' hc' => follows_pure hc' _
  · rw [if_neg hsign, term_symbol row fun h => absurd h hsign]
    exact follows_pure hc' _

/-- A term takes one token more than the sequences inside of it. -/
theorem readsBelow_term (helements : ∀ e, (elements e).ReadsBelow n (Grammar.sequence e)) :
    (term elements).ReadsBelow (n + 1) Grammar.term := by
  intro row ts c hlen hc
  cases ts with
  | nil =>
    rw [term, Grammar.term.eq_def]
    exact Follows.unexpected hc rfl
  | cons t rest =>
    have hrest : rest.length < n := Nat.lt_of_succ_lt_succ hlen
    obtain ⟨l, p⟩ := t
    cases l with
    | atom name => exact follows_compound helements hrest hc
    | symbol sign => exact follows_symbol hc
    | openBracket =>
      rw [term]
      exact (follows_move hc).bind fun c hc => follows_list helements hrest hc
    | variableName | int | float | str | bang =>
      rw [term, Grammar.term]
      exact (follows_move hc).bind fun c hc => follows_pure hc _
    | openParen | closeParen | closeBracket | comma | pipe =>
      rw [term, Grammar.term.eq_def]
      exact Follows.unexpected hc rfl

theorem readsBelow_head (helements : ∀ e, (elements e).ReadsBelow n (Grammar.sequence e)) :
    (head elements).ReadsBelow n Grammar.head := by
  intro row ts c hlen hc
  unfold head Grammar.head
  split
  next name p q inner =>
    have hinner : inner.length < n := (Nat.lt_add_of_pos_right Nat.zero_lt_two).trans hlen
    refine (follows_move hc).bind fun c hc => (follows_peek hc).bind fun c hc => ?_
    rw [next_cons, if_pos rfl, outcome_after_eq_map]
    exact (follows_move hc).bind fun c hc => (readsBelow_arguments helements hinner hc).map
  next name p rest hrest =>
    refine (follows_move hc).bind fun c hc => (follows_peek hc).bind fun c hc => ?_
    rw [if_neg (next_ne hrest)]
    exact follows_pure hc _
  next hatom hname =>
    refine Follows.unexpected hc ?_
    split
    next name hnext =>
      obtain ⟨p, rest, rfl⟩ := exists_of_next hnext
      exact absurd rfl (hname name p rest)
    next => rfl

end

/-- The loop over elements comes to an end as long as the limit is above the number of tokens. -/
theorem follows_elements (e : Enclosure) (read : List Term) (hlen : ts.length < n)
    (hc : c.Before row ts) :
    (elements n e read).Follows row c
      ((outcome (sequence e row.finish ts)).map fun p => (read ++ p.1, p.2)) := by
  induction n generalizing row ts e read c with
  | zero => cases hlen
  | succ n ih =>
    -- A term with elements starts with a bracket or a name, so there are fewer tokens behind it.
    have helements : ∀ e, (elements n e []).ReadsBelow n (Grammar.sequence e) := fun e =>
      ReadsBelow.of_collects fun _ _ _ hus hc => ih e [] hus hc
    have hterm := readsBelow_term helements hlen hc
    rw [elements, Grammar.sequence]
    refine hterm.then (fun err herror => by rw [herror]; rfl) fun first hfirst c hc => ?_
    rw [hfirst]
    dsimp only
    split
    next p more hmore =>
      rw [hmore] at hc
      refine (follows_move hc).bind fun c hc => ?_
      rw [Slot.lexeme?_ofToken, if_pos rfl, outcome_after_eq_map]
      have hlt : more.length < n := (first.lt_of_rest hmore).trans_le (Nat.le_of_lt_succ hlen)
      have hlater := ih e (read ++ [first.value]) hlt hc
      simpa only [except_map_map, List.append_assoc, List.singleton_append] using hlater
    next follower more hfollower hmore =>
      rw [hmore] at hc
      have hcomma : ¬ some follower.lexeme = some Lexeme.comma := fun h =>
        hfollower follower.position (by rw [← Option.some.inj h])
      split
      next hclose =>
        refine (follows_move hc).bind fun c hc => ?_
        rw [Slot.lexeme?_ofToken, if_neg hcomma, if_pos (congrArg some hclose)]
        exact follows_pure hc _
      next hclose =>
        have hclose' : ¬ some follower.lexeme = some e.close := fun h => hclose (Option.some.inj h)
        rw [hmore, ← missing_next e row]
        refine Follows.unexpected hc ?_
        rw [next_cons, if_neg hcomma, if_neg hclose']
    next hmore =>
      rw [hmore] at hc
      rw [← missing_next e row]
      exact Follows.unexpected hc rfl

/-- The loop over elements reads a sequence. -/
theorem readsBelow_elements (e : Enclosure) : (elements n e []).ReadsBelow n (Grammar.sequence e) :=
  ReadsBelow.of_collects fun _ _ _ hlen hc => follows_elements e [] hlen hc

/-- The walk over a term follows the reader of terms. -/
theorem readsBelow_termWithin (n : Nat) : (termWithin n).ReadsBelow n Grammar.term :=
  (readsBelow_term readsBelow_elements).mono (Nat.le_succ n)

theorem readsBelow_headWithin (n : Nat) : (headWithin n).ReadsBelow n Grammar.head :=
  readsBelow_head readsBelow_elements

/-! ### The end -/

/-- The tokens after a point, if there is one. -/
def afterPoint (ts : List Token) : List Token :=
  match ts with
  | t :: rest => if t.isSymbol "." then rest else ts
  | [] => []

theorem expectEnd_eq (finish : Nat) (ts : List Token) :
    Grammar.expectEnd finish ts =
      if (afterPoint ts).isEmpty then .ok ()
      else .error (unexpected .endOfInput finish (afterPoint ts)) := by
  cases ts with
  | nil => rfl
  | cons t rest =>
    unfold Grammar.expectEnd afterPoint
    dsimp only
    by_cases hpoint : t.isSymbol "."
    · simp only [if_pos hpoint]
      cases rest <;> rfl
    · simp only [if_neg hpoint]
      rfl

/-- A point at the end is skipped. -/
theorem follows_skipPoint (hc : c.Before row ts) :
    skipPoint.Follows row c (.ok ((), afterPoint ts)) := by
  rw [skipPoint]
  refine (follows_peek hc).bind fun c hc => ?_
  cases ts with
  | nil => exact follows_pure hc _
  | cons t rest =>
    rw [next_cons, afterPoint]
    by_cases hpoint : t.lexeme = .symbol "."
    · have hsymbol : t.isSymbol "." = true := beq_iff_eq.2 hpoint
      rw [if_pos (congrArg some hpoint), if_pos hsymbol]
      exact (follows_move hc).bind fun c hc => follows_pure hc _
    · have hsymbol : ¬ t.isSymbol "." = true := fun h => hpoint (beq_iff_eq.1 h)
      rw [if_neg fun h => hpoint (Option.some.inj h), if_neg hsymbol]
      exact follows_pure hc _

/-- The walk looks for the end where the reader does. -/
theorem follows_expectEnd (hc : c.Before row ts) :
    expectEnd.Follows row c ((Grammar.expectEnd row.finish ts).map fun u => (u, [])) := by
  rw [expectEnd, expectEnd_eq]
  refine (follows_skipPoint hc).bind fun c hc => (follows_peek hc).bind fun c hc => ?_
  cases hrest : afterPoint ts with
  | nil =>
    rw [hrest] at hc
    exact follows_pure hc _
  | cons t rest =>
    rw [hrest] at hc
    exact follows_throw hc hc.next_mem _

/-! ### Expressions -/

section

-- The equation is that of `sumTail` and that of `productTail`.
variable {op? : Lexeme → Option BinaryOp} {operand : Walk Expr}
  {read : (finish : Nat) → (us : List Token) → Reading Expr us}
  {readTail : (finish : Nat) → Expr → (us : List Token) → Continuation Expr us}
  (htail : ∀ finish left us, readTail finish left us =
    match us with
    | [] => .ok ⟨left, [], Nat.lt_succ_self _⟩
    | t :: rest =>
      match op? t.lexeme with
      | none => .ok ⟨left, t :: rest, Nat.lt_succ_self _⟩
      | some op =>
        match read finish rest with
        | .error err => .error err
        | .ok right =>
          (readTail finish (.binary op left right.value) right.rest).map
            (·.weaken (Nat.le_succ_of_le (Nat.lt_succ_of_lt right.lt))))

include htail

/-- The loop over operands comes to an end as long as the limit is above the number of tokens. -/
theorem follows_tail (hoperand : operand.ReadsBelow n read) (left : Expr) (hmn : m ≤ n)
    (hlen : ts.length < m) (hc : c.Before row ts) :
    (tail op? operand m left).Follows row c (outcome (readTail row.finish left ts)) := by
  -- `m` is for the turns that are left, while the limit `n` of the operands stays the same.
  induction m generalizing ts left c with
  | zero => cases hlen
  | succ m ih =>
    rw [tail, htail]
    refine (follows_peek hc).bind fun c hc => ?_
    cases ts with
    | nil => exact follows_pure hc _
    | cons t rest =>
      rw [next_cons, Option.bind_some]
      dsimp only
      cases hop : op? t.lexeme with
      | none => exact follows_pure hc _
      | some op =>
        have hrest : rest.length < m := Nat.lt_of_succ_lt_succ hlen
        refine (follows_move hc).bind fun c hc => ?_
        have hright := hoperand (hrest.trans hmn) hc
        refine hright.then (fun err herror => by rw [herror]; rfl) fun right hvalue c hc => ?_
        rw [hvalue]
        dsimp only
        rw [outcome_weaken]
        exact ih _ (Nat.le_of_succ_le hmn) (right.lt.trans hrest) hc

/-- Sums and products are read in the same way. -/
theorem readsBelow_chain {readChain : (finish : Nat) → (us : List Token) → Reading Expr us}
    (hchain : ∀ finish us, readChain finish us =
      match read finish us with
      | .error err => .error err
      | .ok first => (readTail finish first.value first.rest).map (·.weaken first.lt))
    (hoperand : operand.ReadsBelow n read) : (chain op? operand n).ReadsBelow n readChain := by
  intro row ts c hlen hc
  rw [chain, hchain]
  refine (hoperand hlen hc).then (fun err herror => by rw [herror]; rfl) fun first hfirst c hc => ?_
  rw [hfirst]
  dsimp only
  rw [outcome_weaken]
  exact follows_tail htail hoperand _ le_rfl (first.lt.trans hlen) hc

end

section

variable {expr : Walk Expr}

/-- The loop over arguments comes to an end as long as the limit is above the number of tokens. -/
theorem follows_moreArguments (hexpr : expr.ReadsBelow n Grammar.expr) (read : List Expr)
    (hmn : m ≤ n) (hlen : ts.length < m) (hc : c.Before row ts) :
    (expr >>= fun e => moreArguments expr m (read ++ [e])).Follows row c
      ((outcome (Grammar.callArguments row.finish ts)).map fun p => (read ++ p.1, p.2)) := by
  induction m generalizing ts read c with
  | zero => cases hlen
  | succ m ih =>
    have hfirst := hexpr (hlen.trans_le hmn) hc
    rw [Grammar.callArguments]
    refine hfirst.then (fun err herror => by rw [herror]; rfl) fun first hvalue c hc => ?_
    rw [moreArguments, hvalue]
    dsimp only
    split
    next p more hmore =>
      have hlt : more.length < m := (first.lt_of_rest hmore).trans_le (Nat.le_of_lt_succ hlen)
      rw [hmore] at hc
      refine (follows_move hc).bind fun c hc => ?_
      rw [Slot.lexeme?_ofToken, if_pos rfl, outcome_after_eq_map]
      have hlater := ih (read ++ [first.value]) (Nat.le_of_succ_le hmn) hlt hc
      simpa only [except_map_map, List.append_assoc, List.singleton_append] using hlater
    next p after hafter =>
      rw [hafter] at hc
      exact (follows_move hc).bind fun c hc => follows_pure hc _
    next hcomma hclose =>
      refine Follows.unexpected hc ?_
      rw [if_neg (next_ne hcomma), if_neg (next_ne hclose)]

theorem readsBelow_callArguments (hexpr : expr.ReadsBelow n Grammar.expr) :
    (callArguments expr n).ReadsBelow n Grammar.callArguments :=
  ReadsBelow.of_collects fun _ _ _ hlen hc => follows_moreArguments hexpr [] le_rfl hlen hc

theorem readsBelow_call (f : Function) (hexpr : expr.ReadsBelow n Grammar.expr) :
    (call expr n f).ReadsBelow n (Grammar.call f) := by
  intro row ts c hlen hc
  rw [call]
  by_cases hopen : (row.next ts).lexeme? = some .openParen
  · obtain ⟨p, inner, rfl⟩ := exists_of_next hopen
    refine (follows_move hc).bind fun c hc => ?_
    rw [Slot.lexeme?_ofToken, if_pos rfl, Grammar.call, outcome_after_eq_map]
    exact (readsBelow_callArguments hexpr (Nat.lt_of_succ_lt hlen) hc).map
  · have hcall : Grammar.call f row.finish ts = .error (unexpected .openParen row.finish ts) := by
      rw [Grammar.call]
      rintro p inner rfl
      exact hopen rfl
    rw [hcall]
    exact Follows.unexpected hc (if_neg hopen)

theorem follows_parens {p : Nat} (hexpr : expr.ReadsBelow n Grammar.expr) (hlen : ts.length < n)
    (hc : c.Before row (⟨.openParen, p⟩ :: ts)) :
    (primary expr n).Follows row c
      (outcome (Grammar.primary row.finish (⟨.openParen, p⟩ :: ts))) := by
  rw [primary, Grammar.primary]
  refine (follows_move hc).bind fun c hc => ?_
  have hinner := hexpr hlen hc
  refine hinner.then (fun err herror => by rw [herror]; rfl) fun inner hvalue c hc => ?_
  rw [hvalue]
  dsimp only
  split
  next q after hafter =>
    rw [hafter] at hc
    exact (follows_move hc).bind fun c hc => follows_pure hc _
  next hclose => exact Follows.unexpected hc (if_neg (next_ne hclose))

/-- A primary expression takes a token before it reads another expression. -/
theorem readsBelow_primary (hexpr : expr.ReadsBelow n Grammar.expr) :
    (primary expr n).ReadsBelow (n + 1) Grammar.primary := by
  intro row ts c hlen hc
  cases ts with
  | nil =>
    rw [primary, Grammar.primary.eq_def]
    exact Follows.unexpected hc rfl
  | cons t rest =>
    have hrest : rest.length < n := Nat.lt_of_succ_lt_succ hlen
    obtain ⟨l, p⟩ := t
    cases l with
    | int | float | variableName =>
      rw [primary, Grammar.primary]
      exact (follows_move hc).bind fun c hc => follows_pure hc _
    | openParen => exact follows_parens hexpr hrest hc
    | atom name =>
      rw [primary, Grammar.primary]
      cases hname : Function.ofName? name with
      | none =>
        refine Follows.unexpected hc ?_
        rw [next_cons]
        dsimp only
        rw [hname]
      | some f =>
        refine (follows_move hc).bind fun c hc => ?_
        dsimp only [Slot.ofToken]
        rw [hname, outcome_weaken]
        exact readsBelow_call f hexpr hrest hc
    | _ =>
      rw [primary, Grammar.primary.eq_def]
      exact Follows.unexpected hc rfl

end

section

variable {signed : Walk Expr}

theorem readsBelow_product (hsigned : signed.ReadsBelow n Grammar.signed) :
    (product signed n).ReadsBelow n Grammar.product :=
  readsBelow_chain Grammar.productTail.eq_def Grammar.product.eq_def hsigned

theorem readsBelow_expr (hsigned : signed.ReadsBelow n Grammar.signed) :
    (expr signed n).ReadsBelow n Grammar.expr :=
  readsBelow_chain Grammar.sumTail.eq_def Grammar.expr.eq_def (readsBelow_product hsigned)

/-- The operand of a power takes a token before another one is read. -/
theorem readsBelow_power (hsigned : signed.ReadsBelow n Grammar.signed) :
    (power signed n).ReadsBelow (n + 1) Grammar.power := by
  intro row ts c hlen hc
  have hprimary := readsBelow_primary (readsBelow_expr hsigned) hlen hc
  rw [power, Grammar.power]
  refine hprimary.then (fun err herror => by rw [herror]; rfl) fun base hbase c hc => ?_
  rw [hbase]
  dsimp only
  split
  next p after hafter =>
    have hlt : after.length < n := (base.lt_of_rest hafter).trans_le (Nat.le_of_lt_succ hlen)
    rw [hafter] at hc
    refine (follows_peek hc).bind fun c hc => ?_
    rw [next_cons, if_pos rfl, outcome_after_eq_map]
    exact (follows_move hc).bind fun c hc => (hsigned hlt hc).map
  next hpower =>
    refine (follows_peek hc).bind fun c hc => ?_
    rw [if_neg (next_ne hpower)]
    exact follows_pure hc _

end

/-- The reader that comes back to itself follows its list reader, by induction on the limit. -/
theorem readsBelow_signed (n : Nat) : (signed n).ReadsBelow n Grammar.signed := by
  induction n with
  | zero => exact fun _ _ _ hlen => absurd hlen (Nat.not_lt_zero _)
  | succ n ih =>
    intro row ts c hlen hc
    rw [signed]
    refine (follows_peek hc).bind fun c hc => ?_
    by_cases hminus : (row.next ts).lexeme? = some (.symbol "-")
    · obtain ⟨p, rest, rfl⟩ := exists_of_next hminus
      rw [if_pos hminus, Grammar.signed, outcome_after_eq_map]
      exact (follows_move hc).bind fun c hc => (ih (Nat.lt_of_succ_lt_succ hlen) hc).map
    by_cases hplus : (row.next ts).lexeme? = some (.symbol "+")
    · obtain ⟨p, rest, rfl⟩ := exists_of_next hplus
      rw [if_neg hminus, if_pos hplus, Grammar.signed, outcome_after_id]
      exact (follows_move hc).bind fun c hc => ih (Nat.lt_of_succ_lt_succ hlen) hc
    · have hpower : Grammar.signed row.finish ts = Grammar.power row.finish ts := by
        rw [Grammar.signed]
        · rintro p rest rfl
          exact hminus rfl
        · rintro p rest rfl
          exact hplus rfl
      rw [if_neg hminus, if_neg hplus, hpower]
      exact readsBelow_power ih hlen hc

/-- The walk over an expression follows the reader of expressions. -/
theorem readsBelow_exprWithin (n : Nat) : (exprWithin n).ReadsBelow n Grammar.expr :=
  readsBelow_expr (readsBelow_signed n)

end Walk

end StackLogic.Horn
