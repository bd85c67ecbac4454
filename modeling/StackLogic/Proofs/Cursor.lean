import StackLogic.Horn.Grammar.Term
import Mathlib.Order.Nat

/-!
# Cursors in a row of tokens

A row of tokens in memory is a list of slots: one for each token and an empty one at the end. A
cursor is an index into such a row. A walk looks at the slot under the cursor and moves on over it,
but never over an empty slot; a look outside of the row finds an empty slot at position 0. A walk
that was given up before its end has no result.

A cursor writes down where it has looked. `Cursor.Before` says that it stands in its row, in front
of the tokens that are left, and that it has looked at slots of the row only and never at an earlier
one. `Walk.Follows` says what a walk comes to from there; it is closed under the ways of putting
walks together, so a walk that is put together from looks and moves stays in its row.
-/

namespace StackLogic.Horn

/-- A slot of a row. -/
structure Slot where
  /-- The token in it; none at the end of the row. -/
  lexeme? : Option Lexeme
  /-- The index of the first character. -/
  position : Nat

namespace Slot

/-- The slot of a token. -/
def ofToken (t : Token) : Slot := { lexeme? := some t.lexeme, position := t.position }

@[simp]
theorem lexeme?_ofToken (t : Token) : (ofToken t).lexeme? = some t.lexeme := rfl

/-- An empty slot. -/
def empty (position : Nat) : Slot := { lexeme? := none, position }

/-- The error at a slot. -/
def unexpected (s : Slot) (expectation : Expectation) : ReadError :=
  { cause := .unexpected expectation s.lexeme?, position := s.position }

end Slot

/-- The row of these tokens. -/
def Tokens.slots (ts : Tokens) : List Slot := ts.items.map Slot.ofToken ++ [Slot.empty ts.finish]

/-- An index into a row. -/
structure Cursor where
  /-- The row. -/
  slots : List Slot
  /-- The index of the next slot. -/
  index : Nat := 0
  /-- The indices where the cursor has looked, from the first to the last. -/
  looks : List Nat := []

/-- A cursor stands in its row: the row ends with its only empty slot, the cursor is not behind it,
and it has looked at slots of the row only, from the left to the right. -/
structure Cursor.Inside (c : Cursor) : Prop where
  /-- The row is one of tokens. -/
  row : ∃ ts : Tokens, c.slots = ts.slots
  /-- The cursor is not behind the empty slot. -/
  index_lt : c.index < c.slots.length
  /-- Every look was at a slot. -/
  looks_lt : ∀ i ∈ c.looks, i < c.slots.length
  /-- No look was to the left of an earlier one, or to the right of the cursor. -/
  ordered : (c.looks ++ [c.index]).Pairwise (· ≤ ·)

/-- What a cursor does in its row. It gives a value or an error, or nothing if it was given up. -/
abbrev Walk (α : Type) := ExceptT ReadError (StateT Cursor Option) α

namespace Walk

variable {α β : Type}

/-- The result of a walk, and the cursor after it. -/
def run (w : Walk α) (c : Cursor) : Option (Except ReadError α × Cursor) :=
  StateT.run (ExceptT.run w) c

/-- A walk that is given up. -/
def unfinished : Walk α := fun _ => none

/-- Look at the next slot. -/
def peek : Walk Slot := do
  let c ← get
  set { c with looks := c.looks ++ [c.index] }
  return c.slots.getD c.index (Slot.empty 0)

/-- Look at the next slot and move over it, unless it is empty. -/
def advance : Walk Slot := do
  let s ← peek
  if s.lexeme?.isSome then
    modify fun c => { c with index := c.index + 1 }
  return s

theorem run_bind (w : Walk α) (k : α → Walk β) (c : Cursor) :
    (w >>= k).run c = (w.run c).bind fun p =>
      match p.1 with
      | .ok a => (k a).run p.2
      | .error e => some (.error e, p.2) := by
  show (w.run c).bind _ = _
  cases w.run c with
  | none => rfl
  | some p => obtain ⟨r, c'⟩ := p; cases r <;> rfl

end Walk

/-! ## Standing in a row -/

variable {α β : Type} {row : Tokens} {ts rest : List Token} {t : Token} {c c' : Cursor}

/-- The slot in front of these tokens of a row. -/
def Tokens.next (row : Tokens) (ts : List Token) : Slot :=
  (ts.head?.map Slot.ofToken).getD (Slot.empty row.finish)

theorem Tokens.unexpected_next (row : Tokens) (ts : List Token) (e : Expectation) :
    (row.next ts).unexpected e = Grammar.unexpected e row.finish ts := by
  cases ts <;> rfl

namespace Cursor

/-- The cursor stands in the row, in front of these tokens of it. -/
structure Before (c : Cursor) (row : Tokens) (ts : List Token) : Prop where
  slots_eq : c.slots = row.slots
  drop_eq : row.items.drop c.index = ts
  index_le : c.index ≤ row.items.length
  ordered : (c.looks ++ [c.index]).Pairwise (· ≤ ·)

theorem before_start (row : Tokens) : ({ slots := row.slots } : Cursor).Before row row.items where
  slots_eq := rfl
  drop_eq := rfl
  index_le := Nat.zero_le _
  ordered := List.pairwise_singleton _ _

theorem Before.index_add (h : c.Before row ts) : c.index + ts.length = row.items.length := by
  rw [← h.drop_eq, List.length_drop]
  exact Nat.add_sub_cancel' h.index_le

/-- At the cursor stands the next token, or the end of the row. -/
theorem Before.getElem?_slots (h : c.Before row ts) : c.slots[c.index]? = some (row.next ts) := by
  have hdrop : c.slots.drop c.index = ts.map Slot.ofToken ++ [Slot.empty row.finish] := by
    rw [h.slots_eq, Tokens.slots,
      List.drop_append_of_le_length (by rw [List.length_map]; exact h.index_le), ← List.map_drop,
      h.drop_eq]
  rw [← List.head?_drop, hdrop]
  cases ts <;> rfl

theorem Before.next_mem (h : c.Before row ts) : row.next ts ∈ row.slots :=
  h.slots_eq ▸ List.mem_of_getElem? h.getElem?_slots

/-- No slot behind the cursor has been looked at. -/
theorem Before.looks_le (h : c.Before row ts) : ∀ i ∈ c.looks, i ≤ c.index := fun i hi =>
  (List.pairwise_append.1 h.ordered).2.2 i hi c.index (List.mem_singleton.2 rfl)

/-- A cursor that stands before tokens of a row is inside of the row. -/
theorem Before.inside (h : c.Before row ts) : c.Inside where
  row := ⟨row, h.slots_eq⟩
  index_lt := (List.getElem?_eq_some_iff.1 h.getElem?_slots).1
  looks_lt i hi := (h.looks_le i hi).trans_lt (List.getElem?_eq_some_iff.1 h.getElem?_slots).1
  ordered := h.ordered

theorem Inside.exists_before (h : c.Inside) : ∃ row ts, c.Before row ts := by
  obtain ⟨row, hrow⟩ := h.row
  have hlt := h.index_lt
  rw [hrow, Tokens.slots, List.length_append, List.length_map, List.length_singleton] at hlt
  exact ⟨row, _, hrow, rfl, Nat.le_of_lt_succ hlt, h.ordered⟩

/-- The cursor after a look. -/
def looked (c : Cursor) : Cursor := { c with looks := c.looks ++ [c.index] }

theorem Before.looked (h : c.Before row ts) : c.looked.Before row ts where
  slots_eq := h.slots_eq
  drop_eq := h.drop_eq
  index_le := h.index_le
  ordered := by
    refine List.pairwise_append.2 ⟨h.ordered, List.pairwise_singleton _ _, fun i hi j hj => ?_⟩
    rw [List.mem_singleton.1 hj]
    rcases List.mem_append.1 hi with hi | hi
    · exact h.looks_le i hi
    · exact (List.mem_singleton.1 hi).le

/-- The cursor after a move to the next slot. -/
def moved (c : Cursor) : Cursor := { c with index := c.index + 1 }

theorem Before.moved (h : c.Before row (t :: ts)) : c.moved.Before row ts where
  slots_eq := h.slots_eq
  drop_eq := by
    show row.items.drop (c.index + 1) = ts
    rw [← List.drop_drop, h.drop_eq, List.drop_one, List.tail_cons]
  index_le := by
    have hadd := h.index_add
    rw [List.length_cons] at hadd
    show c.index + 1 ≤ row.items.length
    omega
  ordered := by
    refine List.pairwise_append.2
      ⟨(List.pairwise_append.1 h.ordered).1, List.pairwise_singleton _ _, fun i hi j hj => ?_⟩
    rw [List.mem_singleton.1 hj]
    exact (h.looks_le i hi).trans (Nat.le_succ _)

end Cursor

/-! ## What a walk comes to -/

namespace Walk

variable {w : Walk α} {k : α → Walk β} {a : α} {r : Except ReadError (β × List Token)}
  {e : ReadError}

/-- From the cursor, the walk ends with this result. If it has read a value, it ends in front of the
tokens that are left; an error is at a slot of the row. The cursor is still in the row, and it has
not gone back. -/
def Follows (w : Walk α) (row : Tokens) (c : Cursor) (r : Except ReadError (α × List Token)) :
    Prop :=
  ∃ c', w.run c = some (r.map Prod.fst, c') ∧ c.index ≤ c'.index ∧
    match r with
    | .ok (_, rest) => c'.Before row rest
    | .error e => (∃ rest, c'.Before row rest) ∧ ∃ s ∈ row.slots, e.position = s.position

theorem follows_pure (h : c.Before row ts) (a : α) :
    (pure a : Walk α).Follows row c (.ok (a, ts)) :=
  ⟨c, rfl, le_rfl, h⟩

/-- A walk that ends with an error names a slot of the row. -/
theorem follows_throw {s : Slot} (h : c.Before row ts) (hs : s ∈ row.slots) (e : Expectation) :
    (throw (s.unexpected e) : Walk α).Follows row c (.error (s.unexpected e)) :=
  ⟨c, rfl, le_rfl, ⟨ts, h⟩, s, hs, rfl⟩

/-- A walk goes on where another one has come to. -/
theorem Follows.bind (hw : w.Follows row c (.ok (a, rest)))
    (hk : ∀ c', c'.Before row rest → (k a).Follows row c' r) : (w >>= k).Follows row c r := by
  obtain ⟨c', hrun, hle, hbefore⟩ := hw
  obtain ⟨c'', hrun', hle', hafter⟩ := hk c' hbefore
  refine ⟨c'', ?_, hle.trans hle', hafter⟩
  rw [run_bind, hrun]
  exact hrun'

/-- An error ends the walk. -/
theorem Follows.bind_error (hw : w.Follows row c (.error e)) :
    (w >>= k).Follows row c (.error e) := by
  obtain ⟨c', hrun, hle, hafter⟩ := hw
  refine ⟨c', ?_, hle, hafter⟩
  rw [run_bind, hrun]
  rfl

/-- Looking at a slot does not move the cursor. -/
theorem follows_peek (h : c.Before row ts) : peek.Follows row c (.ok (row.next ts, ts)) := by
  refine ⟨c.looked, ?_, le_rfl, h.looked⟩
  have hslot : c.slots.getD c.index (Slot.empty 0) = row.next ts := by
    rw [List.getD_eq_getElem?_getD, h.getElem?_slots]
    rfl
  show some (Except.ok (c.slots.getD c.index (Slot.empty 0)), c.looked) = _
  rw [hslot]
  rfl

/-- Moving on takes one token, and none at the end. -/
theorem follows_advance (h : c.Before row ts) :
    advance.Follows row c (.ok (row.next ts, ts.tail)) := by
  obtain ⟨c', hrun, hle, hbefore⟩ := follows_peek h
  cases ts with
  | nil =>
    refine ⟨c', ?_, hle, hbefore⟩
    rw [advance, run_bind, hrun]
    rfl
  | cons t ts =>
    refine ⟨c'.moved, ?_, hle.trans (Nat.le_succ _), hbefore.moved⟩
    rw [advance, run_bind, hrun]
    rfl

theorem follows_move (h : c.Before row (t :: ts)) :
    advance.Follows row c (.ok (Slot.ofToken t, ts)) :=
  follows_advance h

/-- Another value is made of the value that was read. -/
theorem Follows.map {f : α → β} {r : Except ReadError (α × List Token)} (hw : w.Follows row c r) :
    (w >>= fun a => pure (f a)).Follows row c (r.map fun p => (f p.1, p.2)) := by
  cases r with
  | error e => exact hw.bind_error
  | ok p => exact hw.bind fun c' h => follows_pure h (f p.1)

end Walk

end StackLogic.Horn
