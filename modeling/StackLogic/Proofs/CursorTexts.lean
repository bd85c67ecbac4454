import StackLogic.Proofs.CursorReaders
import StackLogic.Proofs.CompoundTerms
import StackLogic.Proofs.TokenSpans

/-!
# Readers of texts end

Goals, heads and terms are read from a text by cursors in the row of its tokens, or in two parts of
it if the goal has an operator. Whatever the text is, this comes to an end, with the result of the
readers of lists (`text_readers_end`). All cursors stay inside of their rows: they look at slots
only, never go back, and stop at the empty slot at the latest. An error is at a character of the
text or at its end.
-/

namespace StackLogic.Horn

open Grammar (GoalOperator Reading)

/-- Walks one after the other, each in a row of its own. The cursors are kept as they stand at the
end. -/
abbrev Walks (α : Type) := ExceptT ReadError (StateT (List Cursor) Option) α

/-! ## The readers of texts -/

namespace Walk

/-- Read with a walk, up to the end. -/
def whole {α : Type} (w : Walk α) : Walk α := do
  let a ← w
  expectEnd
  return a

/-- Read a goal without an operator. -/
def simpleGoal (limit : Nat) : Walk Goal := do
  if (← peek).lexeme? = some .bang then
    let _ ← advance
    expectEnd
    return .cut
  else
    let (name, args) ← whole (headWithin limit)
    return Grammar.goalOfHead name args

end Walk

namespace Walks

variable {α β : Type}

/-- The result of the walks, and the cursors with those from before. -/
def run (w : Walks α) (cursors : List Cursor) : Option (Except ReadError α × List Cursor) :=
  StateT.run (ExceptT.run w) cursors

/-- Walk from the beginning of a row. -/
def along (slots : List Slot) (w : Walk α) : Walks α := fun cursors =>
  (w.run { slots }).map fun p => (p.1, cursors ++ [p.2])

/-- A part of a row with an empty slot at its end. If there was none, it gets the position of the
slot before it. -/
def closed (slots : List Slot) : List Slot :=
  match slots.getLast? with
  | none => [Slot.empty 0]
  | some s => if s.lexeme?.isNone then slots else slots ++ [Slot.empty s.position]

/-- The index of the first operator outside of brackets, if the first slot has this index. -/
def findOperator (depth index : Nat) : List Slot → Option (Nat × GoalOperator)
  | [] => none
  | s :: rest =>
    match depth, s.lexeme?.bind GoalOperator.ofLexeme? with
    | 0, some op => some (index, op)
    | depth, _ => findOperator ((s.lexeme?.map (Grammar.nest depth)).getD depth) (index + 1) rest

/-- Read the goal with this operator between two parts of a row. -/
def operatorGoal (limit : Nat) (left : List Slot) (op : GoalOperator) (right : List Slot) :
    Walks Goal :=
  match op with
  | .unify => do
    let l ← along left (.whole (.termWithin limit))
    return .unify l (← along right (.whole (.termWithin limit)))
  | .notUnify => do
    let l ← along left (.whole (.termWithin limit))
    return .notUnify l (← along right (.whole (.termWithin limit)))
  | .is => do
    let l ← along left (.whole (.termWithin limit))
    return .is l (← along right (.whole (.exprWithin limit)))
  | .compare c => do
    let l ← along left (.whole (.exprWithin limit))
    return .compare c l (← along right (.whole (.exprWithin limit)))

/-- Read the goal in a row. -/
def goal (limit : Nat) (slots : List Slot) : Walks Goal :=
  match findOperator 0 0 slots with
  | some (0, op) =>
    throw { cause := .missingLeft op.symbol, position := (slots.head?.map Slot.position).getD 0 }
  | some (i, op) => operatorGoal limit (closed (slots.take i)) op (closed (slots.drop (i + 1)))
  | none => along (closed slots) (.simpleGoal limit)

/-- Read a text by the slots of its tokens. -/
def ofText (read : List Slot → Walks α) (text : String) : Walks α :=
  match Tokens.ofString text with
  | .error e => throw e
  | .ok ts => read ts.slots

/-- A second walk adds its cursors to those of the first. -/
theorem run_bind (w : Walks α) (k : α → Walks β) (cursors : List Cursor) :
    (w >>= k).run cursors = (w.run cursors).bind fun p =>
      match p.1 with
      | .ok a => (k a).run p.2
      | .error e => some (.error e, p.2) := by
  show (w.run cursors).bind _ = _
  cases w.run cursors with
  | none => rfl
  | some p => obtain ⟨r, cursors'⟩ := p; cases r <;> rfl

/-- The walks end with this result. All their cursors are inside of their rows, and an error is at
most at this position. -/
def End (w : Walks α) (bound : Nat) (r : Except ReadError α) : Prop :=
  ∀ cursors, ∃ more, w.run cursors = some (r, cursors ++ more) ∧ (∀ c ∈ more, c.Inside) ∧
    ∀ e, r = .error e → e.position ≤ bound

variable {bound : Nat} {w : Walks α} {k : α → Walks β} {r : Except ReadError α}
  {s : α → Except ReadError β} {row : Tokens}

theorem end_pure (a : α) : (pure a : Walks α).End bound (.ok a) := fun cursors =>
  ⟨[], by rw [List.append_nil]; rfl, List.forall_mem_nil _, nofun⟩

theorem end_throw {e : ReadError} (he : e.position ≤ bound) :
    (throw e : Walks α).End bound (.error e) := fun cursors =>
  ⟨[], by rw [List.append_nil]; rfl, List.forall_mem_nil _, fun _ h => Except.error.inj h ▸ he⟩

/-- Walks that end one after the other end together. -/
theorem End.bind (hw : w.End bound r) (hk : ∀ a, r = .ok a → (k a).End bound (s a)) :
    (w >>= k).End bound (r >>= s) := by
  intro cursors
  obtain ⟨more, hrun, hinside, herror⟩ := hw cursors
  cases r with
  | error e =>
    refine ⟨more, ?_, hinside, fun e' he => herror e' (by cases he; rfl)⟩
    rw [run_bind, hrun]
    rfl
  | ok a =>
    obtain ⟨more', hrun', hinside', herror'⟩ := hk a rfl (cursors ++ more)
    refine ⟨more ++ more', ?_, List.forall_mem_append.2 ⟨hinside, hinside'⟩, herror'⟩
    rw [run_bind, hrun, ← List.append_assoc]
    exact hrun'

/-- A walk along one row ends with the cursor inside of it. -/
theorem end_along {w : Walk α} {r : Except ReadError (α × List Token)}
    (hw : w.Follows row { slots := row.slots } r) (hbound : ∀ s ∈ row.slots, s.position ≤ bound) :
    (along row.slots w).End bound (r.map Prod.fst) := by
  intro cursors
  obtain ⟨c, hrun, -, hafter⟩ := hw
  refine ⟨[c], ?_, List.forall_mem_singleton.2 ?_, ?_⟩
  · show (w.run { slots := row.slots }).map _ = _
    rw [hrun]
    rfl
  · cases r with
    | error e =>
      obtain ⟨⟨rest, hbefore⟩, -⟩ := hafter
      exact hbefore.inside
    | ok p => exact Cursor.Before.inside hafter
  · intro e he
    cases r with
    | error e' =>
      cases he
      obtain ⟨-, slot, hslot, hposition⟩ := hafter
      exact hposition ▸ hbound slot hslot
    | ok p => cases he

end Walks

/-! ## Rows that fit -/

/-- A row inside of a text of length `bound`, with fewer tokens than the limit. -/
structure Tokens.Fits (row : Tokens) (bound limit : Nat) : Prop where
  position_le : ∀ s ∈ row.slots, s.position ≤ bound
  length_lt : row.items.length < limit

namespace Tokens.Fits

variable {row : Tokens} {t : Token} {before after : List Token} {bound limit : Nat}

theorem position_le_of_mem (h : row.Fits bound limit) (ht : t ∈ row.items) : t.position ≤ bound :=
  h.position_le (Slot.ofToken t) (List.mem_append_left _ (List.mem_map_of_mem ht))

/-- The row that is cut off in front of a token ends at the position of its last token. -/
theorem left (h : row.Fits bound limit) (hitems : row.items = before ++ t :: after) :
    Tokens.Fits { items := before, finish := Grammar.lastPosition before } bound limit where
  position_le := by
    have hbefore : ∀ u ∈ before, u.position ≤ bound := fun u hu =>
      h.position_le_of_mem (hitems ▸ List.mem_append_left _ hu)
    refine List.forall_mem_append.2 ⟨List.forall_mem_map.2 hbefore, List.forall_mem_singleton.2 ?_⟩
    show Grammar.lastPosition before ≤ bound
    cases hlast : before.getLast? with
    | none => simp [Grammar.lastPosition, hlast]
    | some u =>
      simp only [Grammar.lastPosition, hlast]
      exact hbefore u (List.mem_of_getLast? hlast)
  length_lt := by
    have hlt := h.length_lt
    rw [hitems, List.length_append] at hlt
    exact (Nat.le_add_right _ _).trans_lt hlt

/-- The tokens behind an operator fit. -/
theorem right (h : row.Fits bound limit) (hitems : row.items = before ++ t :: after) :
    Tokens.Fits { items := after, finish := row.finish } bound limit where
  position_le := by
    refine List.forall_mem_append.2 ⟨List.forall_mem_map.2 fun u hu => ?_,
      fun s hs => h.position_le s (List.mem_append_right _ hs)⟩
    exact h.position_le_of_mem (hitems ▸ List.mem_append_right _ (List.mem_cons_of_mem t hu))
  length_lt := by
    have hlt := h.length_lt
    rw [hitems, List.length_append, List.length_cons] at hlt
    show after.length < limit
    omega

end Tokens.Fits

/-- The tokens of a text start at different characters of it, so there are no more of them. -/
theorem Tokens.fits_of_ofString {text : String} {row : Tokens} {limit : Nat}
    (h : Tokens.ofString text = .ok row) (hlimit : text.length < limit) :
    row.Fits text.length limit := by
  have hread : Accounts true 0 text.toList row.items (.ok row.finish) := accounts_iff.2 h
  have hfinish : row.finish = text.length := by
    rw [hread.finish_eq rfl, Nat.zero_add, String.length_toList]
  obtain ⟨hincreasing, -, hbefore⟩ := List.pairwise_append.1 (hread.pairwise_places rfl)
  have hlt : ∀ t ∈ row.items, t.position < text.length := fun t ht =>
    hfinish ▸ hbefore t.position (List.mem_map_of_mem ht) row.finish List.mem_cons_self
  refine ⟨List.forall_mem_append.2 ⟨List.forall_mem_map.2 fun t ht => (hlt t ht).le,
    List.forall_mem_singleton.2 hfinish.le⟩, ?_⟩
  have hsub : row.items.map Token.position ⊆ List.range text.length := by
    intro p hp
    obtain ⟨t, ht, rfl⟩ := List.mem_map.1 hp
    exact List.mem_range.2 (hlt t ht)
  have hnodup : (row.items.map Token.position).Nodup := hincreasing.imp Nat.ne_of_lt
  have hle := (hnodup.subperm hsub).length_le
  rw [List.length_map, List.length_range] at hle
  exact hle.trans_lt hlimit

/-! ## They follow the readers of lists -/

namespace Walk

open Tokens Grammar

variable {α : Type} {w : Walk α} {row : Tokens} {ts : List Token} {c : Cursor}
  {read : (finish : Nat) → (ts : List Token) → Reading α ts}

/-- A walk over the whole row leaves nothing. -/
theorem follows_whole (hw : w.Follows row c (outcome (read row.finish ts))) :
    w.whole.Follows row c ((Grammar.whole read row.finish ts).map fun a => (a, [])) := by
  rw [whole, Grammar.whole]
  cases hread : read row.finish ts with
  | error err =>
    rw [hread] at hw
    exact hw.bind_error
  | ok p =>
    rw [hread] at hw
    refine hw.bind fun c hc => ?_
    show Follows _ row c (((Grammar.expectEnd row.finish p.rest).bind fun _ => .ok p.value).map _)
    have hend := follows_expectEnd hc
    cases hexpect : Grammar.expectEnd row.finish p.rest with
    | error err =>
      rw [hexpect] at hend
      exact hend.bind_error
    | ok u =>
      rw [hexpect] at hend
      exact hend.bind fun c hc => follows_pure hc _

theorem follows_simpleGoal {limit : Nat} (hlen : ts.length < limit) (hc : c.Before row ts) :
    (simpleGoal limit).Follows row c
      ((Grammar.simpleGoal row.finish ts).map fun g => (g, [])) := by
  rw [simpleGoal]
  refine (follows_peek hc).bind fun c hc => ?_
  by_cases hbang : (row.next ts).lexeme? = some .bang
  · obtain ⟨p, rest, rfl⟩ := exists_of_next hbang
    rw [if_pos hbang, Grammar.simpleGoal]
    refine (follows_move hc).bind fun c hc => ?_
    have hend := follows_expectEnd hc
    cases hexpect : Grammar.expectEnd row.finish rest with
    | error err =>
      rw [hexpect] at hend
      exact hend.bind_error
    | ok u =>
      rw [hexpect] at hend
      exact hend.bind fun c hc => follows_pure hc _
  · have hsimple : Grammar.simpleGoal row.finish ts =
        (Grammar.whole Grammar.head row.finish ts).map fun p => Grammar.goalOfHead p.1 p.2 := by
      rw [Grammar.simpleGoal]
      · cases Grammar.whole Grammar.head row.finish ts <;> rfl
      · rintro p rest rfl
        exact hbang rfl
    rw [if_neg hbang, hsimple, except_map_map]
    have hhead := (follows_whole (readsBelow_headWithin limit hlen hc)).map
      (f := fun p => Grammar.goalOfHead p.1 p.2)
    rwa [except_map_map] at hhead

end Walk

namespace Walks

open Walk

variable {α : Type} {row : Tokens} {ts left right : List Token} {bound limit : Nat}

theorem closed_slots (row : Tokens) : closed row.slots = row.slots := by
  rw [closed, Tokens.slots, List.getLast?_concat]
  rfl

theorem closed_tokens (h : ts ≠ []) :
    closed (ts.map Slot.ofToken) =
      Tokens.slots { items := ts, finish := Grammar.lastPosition ts } := by
  obtain ⟨us, t, rfl⟩ := List.eq_nil_or_concat ts |>.resolve_left h
  simp [closed, Tokens.slots, Grammar.lastPosition, Slot.ofToken]

/-- The first operator outside of brackets is found at the place where the list is split. -/
theorem findOperator_eq (depth index finish : Nat) (ts : List Token) :
    findOperator depth index (ts.map Slot.ofToken ++ [Slot.empty finish]) =
      (Grammar.splitOperator depth ts).map fun p => (index + p.1.length, p.2.1) := by
  induction ts generalizing depth index with
  | nil => cases depth <;> rfl
  | cons t rest ih =>
    have hlater : ∀ d, findOperator d (index + 1) (rest.map Slot.ofToken ++ [Slot.empty finish]) =
        ((Grammar.splitOperator d rest).map fun p => (t :: p.1, p.2)).map
          fun p => (index + p.1.length, p.2.1) := by
      intro d
      rw [ih, Option.map_map]
      refine congrArg (Option.map · _) (funext fun p => ?_)
      simp only [Function.comp_apply, List.length_cons, Nat.add_comm, Nat.add_left_comm]
    rw [List.map_cons, List.cons_append, findOperator.eq_def, Grammar.splitOperator.eq_def]
    dsimp only [Slot.lexeme?_ofToken, Option.bind_some, Option.map_some, Option.getD_some]
    cases depth with
    | zero =>
      cases GoalOperator.ofLexeme? t.lexeme with
      | none => exact hlater _
      | some op => rfl
    | succ d => exact hlater _

theorem exists_of_splitOperator {depth position : Nat} {op : GoalOperator}
    (h : Grammar.splitOperator depth ts = some (left, op, position, right)) :
    ∃ t, ts = left ++ t :: right ∧ t.position = position := by
  induction ts generalizing depth left with
  | nil => cases h
  | cons t rest ih =>
    rw [Grammar.splitOperator.eq_def] at h
    dsimp only at h
    split at h
    next =>
      cases h
      exact ⟨t, rfl, rfl⟩
    next =>
      obtain ⟨⟨left', found⟩, hsplit, heq⟩ := Option.map_eq_some_iff.1 h
      cases heq
      obtain ⟨u, rfl, hposition⟩ := ih hsplit
      exact ⟨u, rfl, hposition⟩

/-- Each side of an operator is read to its end. -/
theorem end_part {read : (finish : Nat) → (ts : List Token) → Reading α ts} {w : Walk α}
    (hw : w.ReadsBelow limit read) (hrow : row.Fits bound limit) :
    (along row.slots w.whole).End bound (Grammar.whole read row.finish row.items) := by
  have hwhole := follows_whole (hw hrow.length_lt (Cursor.before_start row))
  have hend := end_along hwhole hrow.position_le
  rw [except_map_map] at hend
  cases hread : Grammar.whole read row.finish row.items <;> rwa [hread] at hend

/-- A goal with an operator ends if its sides do. -/
theorem end_operatorGoal {left right : Tokens} (op : GoalOperator)
    (hleft : left.Fits bound limit) (hright : right.Fits bound limit)
    (hfinish : left.finish = Grammar.lastPosition left.items) :
    (operatorGoal limit left.slots op right.slots).End bound
      (Grammar.operatorGoal left.items op right.items right.finish) := by
  have hterm : ∀ {row : Tokens}, row.Fits bound limit →
      (along row.slots (whole (termWithin limit))).End bound
        (Grammar.whole Grammar.term row.finish row.items) :=
    end_part (readsBelow_termWithin limit)
  have hexpr : ∀ {row : Tokens}, row.Fits bound limit →
      (along row.slots (whole (exprWithin limit))).End bound
        (Grammar.whole Grammar.expr row.finish row.items) :=
    end_part (readsBelow_exprWithin limit)
  cases op with
  | unify =>
    rw [operatorGoal, Grammar.operatorGoal, ← hfinish]
    exact (hterm hleft).bind fun l _ => (hterm hright).bind fun r _ => end_pure _
  | notUnify =>
    rw [operatorGoal, Grammar.operatorGoal, ← hfinish]
    exact (hterm hleft).bind fun l _ => (hterm hright).bind fun r _ => end_pure _
  | is =>
    rw [operatorGoal, Grammar.operatorGoal, ← hfinish]
    exact (hterm hleft).bind fun l _ => (hexpr hright).bind fun r _ => end_pure _
  | compare c =>
    rw [operatorGoal, Grammar.operatorGoal, ← hfinish]
    exact (hexpr hleft).bind fun l _ => (hexpr hright).bind fun r _ => end_pure _

/-- The reader of goals ends within the bound. -/
theorem end_goal {ts : Tokens} (hfits : ts.Fits bound limit) :
    (goal limit ts.slots).End bound (Grammar.goal ts) := by
  have hfind : findOperator 0 0 ts.slots = _ := findOperator_eq 0 0 ts.finish ts.items
  rw [goal, Grammar.goal, hfind]
  cases hsplit : Grammar.splitOperator 0 ts.items with
  | none =>
    have hsimple := end_along (follows_simpleGoal hfits.length_lt (Cursor.before_start ts))
      hfits.position_le
    rw [except_map_map] at hsimple
    dsimp only [Option.map_none]
    rw [closed_slots]
    cases hgoal : Grammar.simpleGoal ts.finish ts.items <;> rwa [hgoal] at hsimple
  | some found =>
    obtain ⟨left, op, position, right⟩ := found
    obtain ⟨t, hitems, rfl⟩ := exists_of_splitOperator hsplit
    cases left with
    | nil =>
      have hhead : (ts.slots.head?.map Slot.position).getD 0 = t.position := by
        rw [Tokens.slots, hitems]
        rfl
      dsimp only [Option.map_some, List.length_nil, Nat.add_zero]
      rw [hhead]
      exact end_throw (hfits.position_le_of_mem (hitems ▸ List.mem_cons_self))
    | cons u left =>
      have htake : ts.slots.take (left.length + 1) = (u :: left).map Slot.ofToken := by
        rw [Tokens.slots, hitems, List.map_append, List.append_assoc]
        exact List.take_left' (by rw [List.length_map, List.length_cons])
      have hdrop : ts.slots.drop (left.length + 1 + 1) =
          Tokens.slots { items := right, finish := ts.finish } := by
        rw [Tokens.slots, hitems, ← List.singleton_append (l := right), ← List.append_assoc,
          List.map_append, List.append_assoc]
        exact List.drop_left' (by simp)
      simp only [Option.map_some, List.length_cons, Nat.zero_add]
      rw [htake, hdrop, closed_slots, closed_tokens (List.cons_ne_nil u left)]
      exact end_operatorGoal op (hfits.left hitems) (hfits.right hitems) rfl

/-- The rows of texts fit, and an error of the scanner is inside of the text. -/
theorem end_ofText {read : List Slot → Walks α} {text : String}
    {readList : Tokens → Except ReadError α} (hlimit : text.length < limit)
    (h : ∀ ts : Tokens, ts.Fits text.length limit →
      (read ts.slots).End text.length (readList ts)) :
    (ofText read text).End text.length (Tokens.ofString text >>= readList) := by
  rw [ofText]
  cases hts : Tokens.ofString text with
  | error e =>
    refine end_throw ?_
    obtain ⟨ts, hread⟩ := exists_accounts_iff.2 hts
    obtain ⟨i, hi, ⟨c, rest, hdrop, -⟩, -⟩ := hread.take_of_error rfl
    have hlt := List.length_lt_of_drop_ne_nil (hdrop ▸ List.cons_ne_nil c rest)
    rw [String.length_toList] at hlt
    omega
  | ok ts => exact h ts (Tokens.fits_of_ofString hts hlimit)

end Walks

/-! ## Readers of terms, heads and expressions -/

/-- Wherever a cursor stands in its row, a limit as high as the number of slots is not reached: the
walk ends with what the reader gives for the tokens in front of the cursor. The cursor stays inside
of the same row and does not go back; if a value was read, it has moved on. An error is at a slot of
the row. -/
def Walk.Consumes {α : Type} (w : (limit : Nat) → Walk α)
    (read : (finish : Nat) → (ts : List Token) → Reading α ts) : Prop :=
  ∀ c : Cursor, c.Inside → ∀ limit, c.slots.length ≤ limit → ∃ row ts c', c.Before row ts ∧
    (w limit).run c = some ((read row.finish ts).map Parsed.value, c') ∧
    c'.slots = c.slots ∧ c'.Inside ∧ c.index ≤ c'.index ∧
    (∀ p, read row.finish ts = .ok p → c'.Before row p.rest ∧ c.index < c'.index) ∧
    ∀ e, read row.finish ts = .error e → ∃ s ∈ c.slots, e.position = s.position

theorem Walk.consumes_of_readsBelow {α : Type} {w : (limit : Nat) → Walk α}
    {read : (finish : Nat) → (ts : List Token) → Reading α ts}
    (h : ∀ limit, (w limit).ReadsBelow limit read) : Consumes w read := by
  intro c hc limit hlimit
  obtain ⟨row, ts, hbefore⟩ := hc.exists_before
  have hlen : ts.length < limit := by
    have hadd := hbefore.index_add
    rw [hbefore.slots_eq, Tokens.slots, List.length_append, List.length_map,
      List.length_singleton] at hlimit
    omega
  obtain ⟨c', hrun, hle, hafter⟩ := h limit hlen hbefore
  cases hread : read row.finish ts with
  | error e =>
    rw [hread] at hrun hafter
    obtain ⟨⟨rest, hrest⟩, s, hs, hposition⟩ := hafter
    refine ⟨row, ts, c', hbefore, hread ▸ hrun, hrest.slots_eq.trans hbefore.slots_eq.symm,
      hrest.inside, hle, fun p hp => ?_, fun e' he' => ?_⟩
    · cases hread.symm.trans hp
    · cases hread.symm.trans he'
      exact ⟨s, hbefore.slots_eq ▸ hs, hposition⟩
  | ok p =>
    rw [hread] at hrun hafter
    have hrest : c'.Before row p.rest := hafter
    have hmoved : c.index < c'.index := by
      have hadd := hbefore.index_add
      have hadd' := hrest.index_add
      have hlt := p.lt
      omega
    refine ⟨row, ts, c', hbefore, hread ▸ hrun, hrest.slots_eq.trans hbefore.slots_eq.symm,
      hrest.inside, hle, fun q hq => ?_, fun e he => ?_⟩
    · cases hread.symm.trans hq
      exact ⟨hrest, hmoved⟩
    · cases hread.symm.trans he

/-- Reading a goal, a head or a term from a text ends, whatever the text is, and gives what the
readers of lists give: a limit that is greater than the number of characters is never reached. The
cursors stay inside of their rows, and an error is in the text or at its end. The readers of terms,
expressions and heads move on wherever they read a value. -/
theorem text_readers_end (text : String) :
    (∀ limit, text.length < limit →
      (Walks.ofText (.goal limit) text).End text.length (Goal.ofString text) ∧
      (Walks.ofText (.along · (.whole (.headWithin limit))) text).End text.length
        (Grammar.clauseHead text) ∧
      (Walks.ofText (.along · (.whole (.termWithin limit))) text).End text.length
        (Grammar.soleTerm text)) ∧
    Walk.Consumes .termWithin Grammar.term ∧ Walk.Consumes .exprWithin Grammar.expr ∧
    Walk.Consumes .headWithin Grammar.head := by
  refine ⟨fun limit hlimit => ⟨?_, ?_, ?_⟩, Walk.consumes_of_readsBelow Walk.readsBelow_termWithin,
    Walk.consumes_of_readsBelow Walk.readsBelow_exprWithin,
    Walk.consumes_of_readsBelow Walk.readsBelow_headWithin⟩
  · exact Walks.end_ofText hlimit fun _ => Walks.end_goal
  · exact Walks.end_ofText hlimit fun _ => Walks.end_part (Walk.readsBelow_headWithin limit)
  · exact Walks.end_ofText hlimit fun _ => Walks.end_part (Walk.readsBelow_termWithin limit)

/-- A goal with an operator and a list that has a tail. -/
def listTail : String := "X = [H|T]"

theorem text_readers_end_listTail :
    ∃ cursors, (Walks.ofText (.goal 10) listTail).run [] =
        some (.error ⟨.unexpected .noTail (some .pipe), 6⟩, cursors) ∧
      (∀ c ∈ cursors, c.Inside) ∧ 6 ≤ listTail.length := by
  have hgoal : Goal.ofString listTail = .error ⟨.unexpected .noTail (some .pipe), 6⟩ := by
    have htokens : Tokens.ofString listTail = .ok
        { items := [⟨.variableName "X", 0⟩, ⟨.symbol "=", 2⟩, ⟨.openBracket, 4⟩,
            ⟨.variableName "H", 5⟩, ⟨.pipe, 6⟩, ⟨.variableName "T", 7⟩, ⟨.closeBracket, 8⟩]
          finish := 9 } := by decide +kernel
    rw [Goal.ofString, htokens]
    show Grammar.operatorGoal [⟨.variableName "X", 0⟩] .unify [⟨.openBracket, 4⟩,
      ⟨.variableName "H", 5⟩, ⟨.pipe, 6⟩, ⟨.variableName "T", 7⟩, ⟨.closeBracket, 8⟩] 9 = _
    rw [Grammar.operatorGoal, Grammar.whole, Grammar.term, Grammar.whole, Grammar.term,
      Grammar.sequence, Grammar.term]
    · rfl
    · nofun
  obtain ⟨hend, -, -⟩ := (text_readers_end listTail).1 10 (by decide)
  obtain ⟨cursors, hrun, hinside, herror⟩ := hend []
  rw [hgoal] at hrun herror
  exact ⟨cursors, hrun, hinside, herror _ rfl⟩

end StackLogic.Horn
