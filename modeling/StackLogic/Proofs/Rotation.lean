import StackLogic.Proofs.Atomicity
import Mathlib.Data.List.Rotate

/-!
# `ROLL` rotates and `PICK` copies

`ROLL` with the index `n` rotates the `n + 1` uppermost cells by one place, so that the undermost of
them comes to the top (`onIndex_roll`), and doing so again and again goes through all their rotations
(`repeated_roll`). `PICK` copies the cell that `ROLL` would move. An index that points to no cell is
refused by both.
-/

namespace StackLogic.Machine

variable {m m' : Machine} {n : Int64} {v : Value} {before after cells rest : Operands} {word : String}

/-- Push an integer and run the word that takes it as an index. -/
def onIndex (m : Machine) (p : Primitive) (n : Int64) : Step :=
  primitiveStep { m with stack := .int n :: m.stack } p

/-- Do the same step so many times in a row, as long as it leads on. -/
def repeated (f : Machine → Step) : Nat → Machine → Step
  | 0, m => .next m
  | k + 1, m =>
    match f m with
    | .next m' => repeated f k m'
    | stop => stop

/-! ## Indices -/

/-- An index within the stack is the place of an item. -/
theorem stackIndex_of_lt {below : Operands} (hnonneg : 0 ≤ n.toInt)
    (hlt : n.toInt < below.length) : stackIndex word (.int n) below = .ok n.toInt.toNat := by
  have hvalid : ¬ (n < 0 ∨ below.length ≤ n.toInt.toNat) := by
    rw [Int64.lt_iff_toInt_lt, Int64.toInt_zero]
    omega
  show (if n < 0 ∨ below.length ≤ n.toInt.toNat then _ else _) = _
  rw [if_neg hvalid]
  rfl

/-- Any other index faults and stays on the stack. -/
theorem stackIndex_of_not_lt {below : Operands} (h : ¬ (0 ≤ n.toInt ∧ n.toInt < below.length)) :
    stackIndex word (.int n) below = .error (.badIndex word n below.length) := by
  have hinvalid : n < 0 ∨ below.length ≤ n.toInt.toNat := by
    rw [Int64.lt_iff_toInt_lt, Int64.toInt_zero]
    omega
  show (if n < 0 ∨ below.length ≤ n.toInt.toNat then _ else _) = _
  rw [if_pos hinvalid]
  rfl

/-- An index that points to no cell stays on the stack. -/
theorem onIndex_of_not_lt (h : ¬ (0 ≤ n.toInt ∧ n.toInt < m.stack.length)) :
    m.onIndex .roll n = .fault (.badIndex "ROLL" n m.stack.length)
        { m with stack := .int n :: m.stack } ∧
      m.onIndex .pick n = .fault (.badIndex "PICK" n m.stack.length)
        { m with stack := .int n :: m.stack } := by
  have hroll : Primitive.roll.run m.dictionary (.int n :: m.stack) =
      (stackIndex "ROLL" (.int n) m.stack >>= _) := rfl
  have hpick : Primitive.pick.run m.dictionary (.int n :: m.stack) =
      (stackIndex "PICK" (.int n) m.stack >>= _) := rfl
  rw [stackIndex_of_not_lt h] at hroll hpick
  exact ⟨primitiveStep_of_error hroll, primitiveStep_of_error hpick⟩

/-! ## One step -/

/-- A word that emits nothing changes the stack alone. -/
theorem primitiveStep_of_silent {p : Primitive} {s : Operands}
    (h : p.run m.dictionary m.stack = .ok { stack := s }) :
    m.primitiveStep p = .next { m with stack := s } := by
  unfold primitiveStep
  rw [h]

/-- An index that counts the cells above a cell points to it. -/
theorem stackIndex_of_append (hs : m.stack = before ++ v :: after) (hn : n.toInt = before.length)
    (word : String) :
    before.length < m.stack.length ∧ stackIndex word (.int n) m.stack = .ok before.length := by
  have hlt : before.length < m.stack.length := by
    rw [hs]
    simp
  refine ⟨hlt, ?_⟩
  rw [stackIndex_of_lt (by omega) (by omega), hn, Int.toNat_natCast]

/-- `ROLL` moves the cell that the index points to to the top. -/
theorem onIndex_roll (hs : m.stack = before ++ v :: after) (hn : n.toInt = before.length) :
    m.onIndex .roll n = .next { m with stack := v :: (before ++ after) } := by
  obtain ⟨hlt, hindex⟩ := stackIndex_of_append hs hn "ROLL"
  have hremove : m.stack.remove before.length "ROLL" = .ok (v, before ++ after) := by
    rw [Operands.remove_of_lt hlt]
    simp [hs, List.eraseIdx_append_of_length_le]
  refine primitiveStep_of_silent ?_
  show (stackIndex "ROLL" (.int n) m.stack >>= fun i => m.stack.remove i "ROLL" >>= _) = _
  rw [hindex]
  show (m.stack.remove before.length "ROLL" >>= _) = _
  rw [hremove]
  rfl

/-- `PICK` copies the cell that the index points to. -/
theorem onIndex_pick (hs : m.stack = before ++ v :: after) (hn : n.toInt = before.length) :
    m.onIndex .pick n = .next { m with stack := v :: m.stack } := by
  obtain ⟨hlt, hindex⟩ := stackIndex_of_append hs hn "PICK"
  have hpeek : m.stack.peek before.length "PICK" = .ok v := by
    rw [Operands.peek_of_lt hlt]
    simp [hs]
  refine primitiveStep_of_silent ?_
  show (stackIndex "PICK" (.int n) m.stack >>= fun i => m.stack.peek i "PICK" >>= _) = _
  rw [hindex]
  show (m.stack.peek before.length "PICK" >>= _) = _
  rw [hpeek]
  rfl

/-! ## Many steps -/

/-- `ROLL` rotates the cells down to the one that the index points to. -/
theorem onIndex_roll_rotate {i : Nat} (hs : m.stack = cells ++ rest) (hn : n.toInt = i)
    (hcells : cells.length = i + 1) :
    m.onIndex .roll n = .next { m with stack := cells.rotate i ++ rest } := by
  rcases List.eq_nil_or_concat' cells with rfl | ⟨before, v, rfl⟩
  · cases hcells
  · obtain rfl : before.length = i := by simpa using hcells
    rw [List.append_assoc] at hs
    rw [onIndex_roll hs hn, List.rotate_append_length_eq]
    rfl

/-- Rolling again and again goes through the rotations of these cells. -/
theorem repeated_roll {i : Nat} (hs : m.stack = cells ++ rest) (hn : n.toInt = i)
    (hcells : cells.length = i + 1) (k : Nat) :
    repeated (·.onIndex .roll n) k m =
      .next { m with stack := cells.rotate (k * i) ++ rest } := by
  induction k generalizing m cells with
  | zero => simp [repeated, ← hs]
  | succ k ih =>
    have hrotated : (cells.rotate i).length = i + 1 := by rw [List.length_rotate, hcells]
    rw [repeated, onIndex_roll_rotate hs hn hcells]
    refine (ih rfl hrotated).trans ?_
    rw [List.rotate_rotate, Nat.succ_mul, Nat.add_comm]

/-- Once each of these cells has come to the top, the stack is as before. -/
theorem repeated_roll_length {i : Nat} (hs : m.stack = cells ++ rest) (hn : n.toInt = i)
    (hcells : cells.length = i + 1) : repeated (·.onIndex .roll n) (i + 1) m = .next m := by
  rw [repeated_roll hs hn hcells, ← hcells, List.rotate_length_mul, ← hs]

/-! ## Words with a fixed index -/

theorem arity_le_of_primitiveStep {p : Primitive} (h : m.primitiveStep p = .next m') :
    p.arity ≤ m.stack.length := by
  by_contra hlt
  obtain ⟨missing, hrun⟩ := (Primitive.run_eq_underflow_iff (d := m.dictionary)).2 (Nat.not_le.1 hlt)
  rw [primitiveStep_of_error hrun] at h
  cases h

theorem onIndex_of_dup (h : m.primitiveStep .dup = .next m') : m.onIndex .pick 0 = .next m' := by
  match hs : m.stack, arity_le_of_primitiveStep h with
  | a :: r, _ =>
    rw [onIndex_pick (show m.stack = [] ++ a :: r from hs) rfl, ← h, hs]
    exact (primitiveStep_of_silent (by rw [hs]; rfl)).symm

theorem onIndex_of_over (h : m.primitiveStep .overWord = .next m') :
    m.onIndex .pick 1 = .next m' := by
  match hs : m.stack, arity_le_of_primitiveStep h with
  | b :: a :: r, _ =>
    rw [onIndex_pick (show m.stack = [b] ++ a :: r from hs) rfl, ← h, hs]
    exact (primitiveStep_of_silent (by rw [hs]; rfl)).symm

theorem onIndex_of_swap (h : m.primitiveStep .swap = .next m') : m.onIndex .roll 1 = .next m' := by
  match hs : m.stack, arity_le_of_primitiveStep h with
  | b :: a :: r, _ =>
    rw [onIndex_roll (show m.stack = [b] ++ a :: r from hs) rfl, ← h]
    exact (primitiveStep_of_silent (by rw [hs]; rfl)).symm

theorem onIndex_of_rot (h : m.primitiveStep .rot = .next m') : m.onIndex .roll 2 = .next m' := by
  match hs : m.stack, arity_le_of_primitiveStep h with
  | c :: b :: a :: r, _ =>
    rw [onIndex_roll (show m.stack = [c, b] ++ a :: r from hs) rfl, ← h]
    exact (primitiveStep_of_silent (by rw [hs]; rfl)).symm

theorem repeated_of_twoSwap (h : m.primitiveStep .twoSwap = .next m') :
    repeated (·.onIndex .roll 3) 2 m = .next m' := by
  match hs : m.stack, arity_le_of_primitiveStep h with
  | d :: c :: b :: a :: r, _ =>
    have hrotate : [d, c, b, a].rotate (2 * 3) = [b, a, d, c] := by simp [List.rotate]
    rw [repeated_roll (show m.stack = [d, c, b, a] ++ r from hs) (i := 3) rfl rfl, hrotate, ← h]
    exact (primitiveStep_of_silent (by rw [hs]; rfl)).symm

/-- For an index that points to a cell, `ROLL` moves that cell to the top and leaves the others in
their order, and as many steps as cells are moved bring the stack back; `PICK` copies that cell. Any
other index is refused by both words and stays on the stack. `DUP`, `OVER`, `SWAP` and `ROT` are
`PICK` or `ROLL` with a fixed index, and `2SWAP` is `ROLL` twice. -/
theorem roll_and_pick_laws (m : Machine) :
    (∀ n : Int64, 0 ≤ n.toInt → n.toInt < m.stack.length →
      ∃ before v after, m.stack = before ++ v :: after ∧ n.toInt = before.length ∧
        m.onIndex .roll n = .next { m with stack := v :: (before ++ after) } ∧
        (v :: (before ++ after)).Perm m.stack ∧
        repeated (·.onIndex .roll n) (before.length + 1) m = .next m ∧
        m.onIndex .pick n = .next { m with stack := v :: m.stack }) ∧
    (∀ n : Int64, ¬ (0 ≤ n.toInt ∧ n.toInt < m.stack.length) →
      m.onIndex .roll n =
        .fault (.badIndex "ROLL" n m.stack.length) { m with stack := .int n :: m.stack } ∧
      m.onIndex .pick n =
        .fault (.badIndex "PICK" n m.stack.length) { m with stack := .int n :: m.stack }) ∧
    (∀ m', m.primitiveStep .dup = .next m' → m.onIndex .pick 0 = .next m') ∧
    (∀ m', m.primitiveStep .overWord = .next m' → m.onIndex .pick 1 = .next m') ∧
    (∀ m', m.primitiveStep .swap = .next m' → m.onIndex .roll 1 = .next m') ∧
    (∀ m', m.primitiveStep .rot = .next m' → m.onIndex .roll 2 = .next m') ∧
    ∀ m', m.primitiveStep .twoSwap = .next m' → repeated (·.onIndex .roll 3) 2 m = .next m' := by
  refine ⟨fun n hnonneg hlt => ?_, fun n h => onIndex_of_not_lt h, fun m' => onIndex_of_dup,
    fun m' => onIndex_of_over, fun m' => onIndex_of_swap, fun m' => onIndex_of_rot,
    fun m' => repeated_of_twoSwap⟩
  obtain ⟨i, hi⟩ := Int.eq_ofNat_of_zero_le hnonneg
  have hin : i < m.stack.length := by omega
  obtain ⟨before, v, after, hs, rfl⟩ : ∃ before v after,
      m.stack = before ++ v :: after ∧ before.length = i := by
    refine ⟨m.stack.take i, m.stack[i], m.stack.drop (i + 1), ?_, List.length_take_of_le hin.le⟩
    rw [List.getElem_cons_drop, List.take_append_drop]
  have hcells : m.stack = (before ++ [v]) ++ after := by rw [hs, List.append_cons]
  refine ⟨before, v, after, hs, hi, onIndex_roll hs hi, ?_, ?_, onIndex_pick hs hi⟩
  · rw [hs]
    exact List.perm_middle.symm
  · exact repeated_roll_length hcells hi (by simp)

/-- Four texts, the top first. -/
def fourTexts : Machine where
  stack := [.str "d", .str "c", .str "b", .str "a"]

/-- On four texts, `2 ROLL` brings the third to the top, and three times bring all back; the index four
and the least integer are refused. -/
theorem roll_and_pick_laws_fourTexts :
    fourTexts.onIndex .roll 2 =
        .next { fourTexts with stack := [.str "b", .str "d", .str "c", .str "a"] } ∧
      repeated (·.onIndex .roll 2) 3 fourTexts = .next fourTexts ∧
      fourTexts.onIndex .pick 4 =
        .fault (.badIndex "PICK" 4 4) { fourTexts with stack := .int 4 :: fourTexts.stack } ∧
      fourTexts.onIndex .roll Int64.minValue =
        .fault (.badIndex "ROLL" Int64.minValue 4)
          { fourTexts with stack := .int Int64.minValue :: fourTexts.stack } ∧
      repeated (·.onIndex .roll 3) 2 fourTexts =
        .next { fourTexts with stack := [.str "b", .str "a", .str "d", .str "c"] } := by
  obtain ⟨hvalid, hinvalid, -, -, -, -, hswap⟩ := roll_and_pick_laws fourTexts
  obtain ⟨before, v, after, hs, hn, hroll, -, hback, -⟩ := hvalid 2 (by decide) (by decide)
  obtain ⟨rfl, hcells⟩ : before = [.str "d", .str "c"] ∧ v :: after = [.str "b", .str "a"] :=
    List.append_inj hs.symm (Int.ofNat_inj.1 hn.symm)
  cases hcells
  exact ⟨hroll, hback, (hinvalid 4 (by decide)).2, (hinvalid _ (by decide)).1, hswap _ rfl⟩

end StackLogic.Machine
