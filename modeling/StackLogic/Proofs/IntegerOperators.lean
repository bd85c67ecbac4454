import StackLogic.Horn.Evaluation
import Mathlib.Algebra.Order.Ring.Int
import Mathlib.Tactic.Linarith

/-!
# Operators on integers

`BinaryOp.result?` is the result of an operator among all integers. The operators work on words of
sixty-four bits instead, and `//` and `mod` correct the quotient and the remainder of the machine by
one step. No step wraps around (`BinaryOp.stepsExact_of_apply`), so a result is always the exact
one.

An operator fails if there is no exact result, or if it does not fit in a word. It also fails for a
few operands whose exact result fits (`BinaryOp.Refuses`): those for which the quotient of the
machine does not fit, or not the exponent.
-/

namespace StackLogic.Horn

/-! ## Division that rounds down -/

section Rounding

variable {a b : Int}

/-- The remainder of the machine is smaller than the divisor and has the sign of the dividend. -/
theorem tmod_bounds (a : Int) (hb : b ≠ 0) :
    (a.tmod b).natAbs < b.natAbs ∧ (0 ≤ a → 0 ≤ a.tmod b) ∧ (a ≤ 0 → a.tmod b ≤ 0) := by
  refine ⟨?_, Int.tmod_nonneg b, fun ha => ?_⟩
  · rw [Int.natAbs_tmod]
    exact Nat.mod_lt _ (by omega)
  · have hneg := Int.tmod_nonneg b (a := -a) (by omega)
    rw [Int.neg_tmod] at hneg
    omega

/-- A remainder that truncates has the sign of the dividend. -/
theorem tmod_neg_iff (hb : b ≠ 0) (h : a.tmod b ≠ 0) : a.tmod b < 0 ↔ a < 0 := by
  obtain ⟨-, hpos, hneg⟩ := tmod_bounds a hb
  omega

/-- Quotient and remainder are determined by the remainder lying between zero and the divisor. -/
theorem fdiv_fmod_eq {q r : Int} (h : q * b + r = a) (hr : 0 ≤ r ∧ r < b ∨ b < r ∧ r ≤ 0) :
    a.fdiv b = q ∧ a.fmod b = r := by
  have heq : r + b * q = a := by linarith
  rcases hr with ⟨hle, hlt⟩ | ⟨hlt, hle⟩
  · exact (Int.fdiv_fmod_unique (by omega)).2 ⟨heq, hle, hlt⟩
  · exact (Int.fdiv_fmod_unique' (by omega)).2 ⟨heq, hlt, hle⟩

/-- An inexact quotient of operands with different signs is rounded up by the machine. -/
theorem fdiv_fmod_of_opposite (hb : b ≠ 0) (hr : a.tmod b ≠ 0) (hs : ¬ (a < 0 ↔ b < 0)) :
    a.fdiv b = a.tdiv b - 1 ∧ a.fmod b = a.tmod b + b := by
  have hdiv := Int.tdiv_mul_add_tmod a b
  obtain ⟨hlt, hpos, hneg⟩ := tmod_bounds a hb
  refine fdiv_fmod_eq (by linarith) ?_
  omega

/-- Without a remainder of the other sign, rounding down is truncating. -/
theorem fdiv_fmod_of_same (hb : b ≠ 0) (h : a.tmod b ≠ 0 → (a < 0 ↔ b < 0)) :
    a.fdiv b = a.tdiv b ∧ a.fmod b = a.tmod b := by
  obtain ⟨hlt, hpos, hneg⟩ := tmod_bounds a hb
  refine fdiv_fmod_eq (Int.tdiv_mul_add_tmod a b) ?_
  omega

/-- An inexact quotient is at most half as large as the dividend. -/
theorem natAbs_tdiv_le (hb : b ≠ 0) (h : a.tmod b ≠ 0) :
    2 * (a.tdiv b).natAbs ≤ a.natAbs := by
  have htwo : 2 ≤ b.natAbs := by
    by_contra hlt
    have hone : b.natAbs = 1 := by omega
    have hmod := Int.natAbs_tmod a b
    rw [hone, Nat.mod_one] at hmod
    omega
  rw [Int.natAbs_tdiv]
  calc 2 * (a.natAbs / b.natAbs) ≤ b.natAbs * (a.natAbs / b.natAbs) :=
        Nat.mul_le_mul_right _ htwo
    _ ≤ a.natAbs := Nat.mul_div_le _ _

end Rounding

/-! ## Words -/

/-- The integer fits in a word of sixty-four bits. -/
def FitsWord (n : Int) : Prop := Int64.minValue.toInt ≤ n ∧ n ≤ Int64.maxValue.toInt

theorem fitsWord_iff {n : Int} : FitsWord n ↔ -2 ^ 63 ≤ n ∧ n < 2 ^ 63 := by
  rw [FitsWord, Int64.toInt_minValue, Int64.toInt_maxValue]
  omega

theorem fitsWord_toInt (w : Int64) : FitsWord w.toInt :=
  fitsWord_iff.2 ⟨w.le_toInt, w.toInt_lt⟩

theorem toInt_ofInt_of_fits {n : Int} (h : FitsWord n) : (Int64.ofInt n).toInt = n :=
  have hn := fitsWord_iff.1 h
  Int64.toInt_ofInt_of_le hn.1 hn.2

section Words

variable {a b : Int64}

theorem toInt_eq_zero_iff : a.toInt = 0 ↔ a = 0 := by
  rw [← Int64.toInt_inj, Int64.toInt_zero]

theorem toInt_ne_zero (h : a ≠ 0) : a.toInt ≠ 0 := fun ha => h (toInt_eq_zero_iff.1 ha)

/-- Division of words truncates, unless the least word is divided by minus one. -/
theorem toInt_div (h : ¬ (a = Int64.minValue ∧ b = -1)) :
    (a / b).toInt = a.toInt.tdiv b.toInt := by
  by_cases ha : a = Int64.minValue
  · exact Int64.toInt_div_of_ne_right a b fun hb => h ⟨ha, hb⟩
  · exact Int64.toInt_div_of_ne_left a b ha

/-- The quotient is not the least word if it has to be corrected. -/
theorem toInt_div_sub_one (hb : b ≠ 0) (hr : a % b ≠ 0) :
    (a / b - 1).toInt = (a / b).toInt - 1 := by
  have hb' := toInt_ne_zero hb
  have hr' : a.toInt.tmod b.toInt ≠ 0 := fun h =>
    hr (toInt_eq_zero_iff.1 ((Int64.toInt_mod a b).trans h))
  have hle := natAbs_tdiv_le hb' hr'
  have ha := fitsWord_iff.1 (fitsWord_toInt a)
  have hq : (a / b).toInt = a.toInt.tdiv b.toInt := by
    refine toInt_div fun h => hr ?_
    rw [h.1, h.2]
    rfl
  rw [Int64.toInt_sub, hq, Int64.toInt_one]
  exact Int.bmod_eq_of_le (by omega) (by omega)

/-- A remainder and a divisor with different signs have a sum that fits. -/
theorem toInt_mod_add (hs : ¬ ((a % b).toInt < 0 ↔ b.toInt < 0)) :
    (a % b + b).toInt = (a % b).toInt + b.toInt := by
  have hr := fitsWord_iff.1 (fitsWord_toInt (a % b))
  have hb' := fitsWord_iff.1 (fitsWord_toInt b)
  rw [Int64.toInt_add]
  exact Int.bmod_eq_of_le (by omega) (by omega)

end Words

/-! ## Exact results -/

namespace Number

variable {a b : Int64} {n : Int} {v : Number}

/-- A result that is no word is an overflow. -/
theorem exact_of_not_fits (h : ¬ FitsWord n) : exact n = .error .overflow := by
  have hfit : Decimal.fit? n = none := if_neg h
  rw [exact, hfit]

/-- A result that fits is the word. -/
theorem exact_of_fits (h : FitsWord n) : exact n = .ok (int (Int64.ofInt n)) := by
  have hfit : Decimal.fit? n = some (Int64.ofInt n) := if_pos h
  rw [exact, hfit]

theorem exact_toInt (w : Int64) : exact w.toInt = .ok (int w) := by
  rw [exact_of_fits (fitsWord_toInt w), Int64.ofInt_toInt]

theorem eq_int_of_exact (h : exact n = .ok v) : ∃ w : Int64, v = int w ∧ w.toInt = n := by
  by_cases hn : FitsWord n
  · rw [exact_of_fits hn] at h
    exact ⟨_, (Except.ok.inj h).symm, toInt_ofInt_of_fits hn⟩
  · rw [exact_of_not_fits hn] at h
    cases h

theorem exists_error_of_exact_iff : (∃ err, exact n = .error err) ↔ ¬ FitsWord n := by
  constructor
  · rintro ⟨err, h⟩ hn
    rw [exact_of_fits hn] at h
    cases h
  · intro hn
    exact ⟨_, exact_of_not_fits hn⟩

/-- The test of the corrections: there is a remainder, and the signs differ. -/
theorem corrects_iff {r s : Int64} :
    (r != 0 && (decide (s < 0) != decide (b < 0))) = true ↔
      r.toInt ≠ 0 ∧ ¬ (s.toInt < 0 ↔ b.toInt < 0) := by
  simp only [Bool.and_eq_true, bne_iff_ne, ne_eq, decide_eq_decide, Int64.lt_iff_toInt_lt,
    Int64.toInt_zero, toInt_eq_zero_iff]

/-- The quotient corrected by one step is the exact one, rounded down. -/
theorem floorQuotient_eq (hb : b ≠ 0) : floorQuotient a b = exact (a.toInt.fdiv b.toInt) := by
  have hb' := toInt_ne_zero hb
  have hmod := Int64.toInt_mod a b
  rw [floorQuotient, if_neg hb]
  split
  next h =>
    rw [h.1, h.2, exact_of_not_fits]
    rw [fitsWord_iff]
    decide
  next h =>
    have hdiv := toInt_div h
    dsimp only
    split
    next hc =>
      obtain ⟨hr, hs⟩ := corrects_iff.1 hc
      have hword : (a / b - 1).toInt = a.toInt.fdiv b.toInt := by
        rw [toInt_div_sub_one hb (fun h => hr (toInt_eq_zero_iff.2 h)), hdiv]
        exact (fdiv_fmod_of_opposite hb' (hmod ▸ hr) hs).1.symm
      rw [← hword, exact_toInt]
    next hc =>
      have hword : (a / b).toInt = a.toInt.fdiv b.toInt := by
        rw [hdiv]
        refine (fdiv_fmod_of_same hb' fun hr => ?_).1.symm
        by_contra hs
        exact hc (corrects_iff.2 ⟨hmod.symm ▸ hr, hs⟩)
      rw [← hword, exact_toInt]

/-- The remainder corrected by one step is the exact one, if the quotient of the machine fits. -/
theorem floorRemainder_eq (hb : b ≠ 0) (h : ¬ (a = Int64.minValue ∧ b = -1)) :
    floorRemainder a b = exact (a.toInt.fmod b.toInt) := by
  have hb' := toInt_ne_zero hb
  have hmod := Int64.toInt_mod a b
  rw [floorRemainder, if_neg hb, if_neg h]
  dsimp only
  split
  next hc =>
    obtain ⟨hr, hs⟩ := corrects_iff.1 hc
    have hword : (a % b + b).toInt = a.toInt.fmod b.toInt := by
      rw [toInt_mod_add hs, hmod]
      rw [hmod] at hr hs
      rw [tmod_neg_iff hb' hr] at hs
      exact (fdiv_fmod_of_opposite hb' hr hs).2.symm
    rw [← hword, exact_toInt]
  next hc =>
    have hword : (a % b).toInt = a.toInt.fmod b.toInt := by
      rw [hmod]
      refine (fdiv_fmod_of_same hb' fun hr => ?_).2.symm
      by_contra hs
      rw [← tmod_neg_iff hb' hr, ← hmod] at hs
      exact hc (corrects_iff.2 ⟨hmod.symm ▸ hr, hs⟩)
    rw [← hword, exact_toInt]

/-! ## Powers -/

/-- A power of a base with at least two bits and a large exponent does not fit. -/
theorem not_fitsWord_pow {a : Int} {e : Nat} (ha : 2 ≤ a.natAbs) (he : 64 ≤ e) :
    ¬ FitsWord (a ^ e) := by
  have hpow : 2 ^ 64 ≤ (a ^ e).natAbs := by
    rw [Int.natAbs_pow]
    calc 2 ^ 64 ≤ 2 ^ e := Nat.pow_le_pow_right (by decide) he
      _ ≤ a.natAbs ^ e := Nat.pow_le_pow_left ha e
  rw [fitsWord_iff]
  omega

/-- A power below the greatest exponent is exact, or an overflow. -/
theorem power_eq {a : Int} {e : Nat} (he : e < UInt32.size) : power a e = exact (a ^ e) := by
  rw [power, if_neg (by omega)]
  split
  next ha => rw [ha, zero_pow_eq]
  split
  next ha => rw [ha, one_pow]
  split
  next ha => simp only [ha, neg_one_pow_eq_ite, Nat.even_iff]
  split
  next hzero hone hneg hlarge => exact (exact_of_not_fits (not_fitsWord_pow (by omega) hlarge)).symm
  next => rfl

end Number

/-! ## Operators -/

namespace BinaryOp

/-- The result of an operator among all integers. There is none for a division by zero and for a
negative exponent, and `/` is no operator among integers. -/
def result? : BinaryOp → Int → Int → Option Int
  | add, m, n => some (m + n)
  | sub, m, n => some (m - n)
  | mul, m, n => some (m * n)
  | div, _, _ => none
  | floorDiv, m, n => if n = 0 then none else some (m.fdiv n)
  | mod, m, n => if n = 0 then none else some (m.fmod n)
  | pow, m, n => if n < 0 then none else some (m ^ n.toNat)

/-- The operands are refused although their exact result is zero, one or minus one: the least word
divided by minus one has no quotient in the machine, and an exponent has to fit in thirty-two
bits. -/
def Refuses (op : BinaryOp) (a b : Int64) : Prop :=
  op = mod ∧ a = Int64.minValue ∧ b = -1 ∨
    op = pow ∧ (UInt32.size : Int) ≤ b.toInt ∧ a.toInt.natAbs ≤ 1

variable {op : BinaryOp} {a b : Int64} {n : Int}

/-- An operator has its exact result, unless it refuses the operands. -/
theorem apply_of_result (h : op.result? a.toInt b.toInt = some n) (hr : ¬ op.Refuses a b) :
    Number.apply op (.int a) (.int b) = Number.exact n := by
  cases op with
  | add | sub | mul => exact congrArg Number.exact (Option.some.inj h)
  | div => cases h
  | floorDiv =>
    obtain ⟨hb, hn⟩ := Option.ite_none_left_eq_some.1 h
    have hb' : b ≠ 0 := fun h => hb (toInt_eq_zero_iff.2 h)
    rw [← Option.some.inj hn]
    exact Number.floorQuotient_eq hb'
  | mod =>
    obtain ⟨hb, hn⟩ := Option.ite_none_left_eq_some.1 h
    have hb' : b ≠ 0 := fun h => hb (toInt_eq_zero_iff.2 h)
    rw [← Option.some.inj hn]
    exact Number.floorRemainder_eq hb' fun h => hr (.inl ⟨rfl, h⟩)
  | pow =>
    obtain ⟨hb, hn⟩ := Option.ite_none_left_eq_some.1 h
    rw [← Option.some.inj hn]
    show (if 0 ≤ b.toInt then _ else _) = _
    rw [if_pos (by omega)]
    by_cases hlarge : (UInt32.size : Int) ≤ b.toInt
    · have ha : 2 ≤ a.toInt.natAbs := by
        by_contra hlt
        exact hr (.inr ⟨rfl, hlarge, by omega⟩)
      have hnot : ¬ FitsWord (a.toInt ^ b.toInt.toNat) :=
        Number.not_fitsWord_pow ha (by have : UInt32.size = 2 ^ 32 := rfl; omega)
      rw [Number.exact_of_not_fits hnot]
      exact if_pos (by omega)
    · exact Number.power_eq (by omega)

/-- An operator answers with an overflow where it refuses the operands. -/
theorem apply_of_refuses (h : op.Refuses a b) :
    Number.apply op (.int a) (.int b) = .error .overflow := by
  rcases h with ⟨rfl, rfl, rfl⟩ | ⟨rfl, hb, -⟩
  · rfl
  · show (if 0 ≤ b.toInt then _ else _) = _
    rw [if_pos (by omega)]
    exact if_pos (by omega)

/-- The only operands without an exact result are those of a division by zero. -/
theorem result?_eq_none_iff (hop : op ≠ div) (hpow : op = pow → 0 ≤ b.toInt) :
    op.result? a.toInt b.toInt = none ↔ (op = floorDiv ∨ op = mod) ∧ b = 0 := by
  cases op with
  | add | sub | mul => simp [result?]
  | div => exact absurd rfl hop
  | floorDiv | mod => simp [result?, toInt_eq_zero_iff]
  | pow => simpa [result?] using hpow rfl

/-- Division by zero has no result. -/
theorem apply_of_zero (h : op = floorDiv ∨ op = mod) :
    ∃ err, Number.apply op (.int a) (.int 0) = .error err := by
  rcases h with rfl | rfl
  · exact ⟨_, rfl⟩
  · exact ⟨_, rfl⟩

/-- No step of the operator wraps around: the quotient and the remainder of the machine and their
corrections are words with the values that they stand for. -/
def StepsExact : BinaryOp → Int64 → Int64 → Prop
  | floorDiv, a, b =>
    (a / b).toInt = a.toInt.tdiv b.toInt ∧ (a % b).toInt = a.toInt.tmod b.toInt ∧
      (a % b ≠ 0 → (a / b - 1).toInt = (a / b).toInt - 1)
  | mod, a, b =>
    (a % b).toInt = a.toInt.tmod b.toInt ∧
      (¬ ((a % b).toInt < 0 ↔ b.toInt < 0) → (a % b + b).toInt = (a % b).toInt + b.toInt)
  | _, _, _ => True

theorem stepsExact_of_apply {v : Number} (h : Number.apply op (.int a) (.int b) = .ok v) :
    op.StepsExact a b := by
  cases op with
  | add | sub | mul | div | pow => trivial
  | floorDiv =>
    change Number.floorQuotient a b = .ok v at h
    rw [Number.floorQuotient] at h
    split at h
    next => cases h
    next hb =>
      split at h
      next => cases h
      next hleast => exact ⟨toInt_div hleast, Int64.toInt_mod a b, toInt_div_sub_one hb⟩
  | mod => exact ⟨Int64.toInt_mod a b, toInt_mod_add⟩

/-- What an operator gives is its exact result. -/
theorem exists_result_of_apply (hop : op ≠ div) (hpow : op = pow → 0 ≤ b.toInt) {v : Number}
    (h : Number.apply op (.int a) (.int b) = .ok v) :
    ∃ w : Int64, v = .int w ∧ op.result? a.toInt b.toInt = some w.toInt := by
  have hrefuses : ¬ op.Refuses a b := fun hr => by
    rw [apply_of_refuses hr] at h
    cases h
  cases hresult : op.result? a.toInt b.toInt with
  | none =>
    obtain ⟨hdivision, rfl⟩ := (result?_eq_none_iff hop hpow).1 hresult
    obtain ⟨err, herr⟩ := apply_of_zero (a := a) hdivision
    rw [herr] at h
    cases h
  | some n =>
    rw [apply_of_result hresult hrefuses] at h
    obtain ⟨w, rfl, hw⟩ := Number.eq_int_of_exact h
    exact ⟨w, rfl, congrArg some hw.symm⟩

end BinaryOp

/-- An operator on two integers, except `/` and powers with a negative exponent, fails exactly if it
divides by zero, if its exact result does not fit in a word, or if it refuses the operands.
Otherwise it gives the exact result. -/
theorem integer_operators_exact {op : BinaryOp} {a b : Int64} (hop : op ≠ .div)
    (hpow : op = .pow → 0 ≤ b.toInt) :
    ((∃ err, Number.apply op (.int a) (.int b) = .error err) ↔
      ((op = .floorDiv ∨ op = .mod) ∧ b = 0) ∨
        (∃ n, op.result? a.toInt b.toInt = some n ∧ ¬ FitsWord n) ∨ op.Refuses a b) ∧
    ∀ v, Number.apply op (.int a) (.int b) = .ok v →
      ∃ w : Int64, v = .int w ∧ op.result? a.toInt b.toInt = some w.toInt := by
  refine ⟨?_, fun v hv => BinaryOp.exists_result_of_apply hop hpow hv⟩
  by_cases hrefuses : op.Refuses a b
  · rw [BinaryOp.apply_of_refuses hrefuses]
    exact iff_of_true ⟨_, rfl⟩ (.inr (.inr hrefuses))
  have hnone := BinaryOp.result?_eq_none_iff (a := a) hop hpow
  cases hresult : op.result? a.toInt b.toInt with
  | none =>
    obtain ⟨hdivision, rfl⟩ := hnone.1 hresult
    exact iff_of_true (BinaryOp.apply_of_zero hdivision) (.inl ⟨hdivision, rfl⟩)
  | some n =>
    have hnotzero : ¬ ((op = .floorDiv ∨ op = .mod) ∧ b = 0) := by
      rw [← hnone, hresult]
      simp
    rw [BinaryOp.apply_of_result hresult hrefuses, Number.exists_error_of_exact_iff]
    simp [hnotzero, hrefuses]

/-- The least word is a power of minus two, and it has no quotient by minus one. -/
theorem integer_operators_exact_leastWord :
    (∃ w : Int64, Number.apply .pow (.int (-2)) (.int 63) = .ok (.int w) ∧ w.toInt = (-2) ^ 63) ∧
      ∃ err, Number.apply .floorDiv (.int Int64.minValue) (.int (-1)) = .error err := by
  have hpower : Number.apply .pow (.int (-2)) (.int 63) = .ok (.int Int64.minValue) := rfl
  have hquotient : BinaryOp.floorDiv.result? Int64.minValue.toInt (-1) = some (2 ^ 63) := by decide
  have hlarge : ¬ FitsWord (2 ^ 63) := by
    rw [fitsWord_iff]
    decide
  constructor
  · obtain ⟨w, hw, hresult⟩ := (integer_operators_exact (by decide) (by decide)).2 _ hpower
    refine ⟨w, hpower.trans (congrArg Except.ok hw), ?_⟩
    exact (Option.some.inj hresult).symm
  · have hfails := (integer_operators_exact (a := Int64.minValue) (b := -1)
      (show BinaryOp.floorDiv ≠ .div by decide) (by decide)).1
    exact hfails.2 (.inr (.inl ⟨_, hquotient, hlarge⟩))

/-- The least word has the remainder zero by minus one, and one has itself as its power for every
exponent; both are refused. -/
theorem representable_results_refused :
    (Number.apply .mod (.int Int64.minValue) (.int (-1)) = .error .overflow ∧
      BinaryOp.mod.result? Int64.minValue.toInt (-1) = some 0 ∧ FitsWord 0) ∧
    (Number.apply .pow (.int 1) (.int 4294967296) = .error .overflow ∧
      BinaryOp.pow.result? 1 4294967296 = some 1 ∧ FitsWord 1) := by
  refine ⟨⟨rfl, by decide, by unfold FitsWord; decide⟩, rfl, ?_, by unfold FitsWord; decide⟩
  rw [BinaryOp.result?, if_neg (by decide), one_pow]

end StackLogic.Horn
