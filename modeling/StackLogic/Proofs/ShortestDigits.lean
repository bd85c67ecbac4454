import StackLogic.Decimal.Layout
import StackLogic.Proofs.Legible
import Mathlib.Algebra.Order.Field.Power
import Mathlib.Algebra.Order.Ring.Rat
import Mathlib.Tactic.FieldSimp
import Mathlib.Tactic.Linarith
import Mathlib.Tactic.NormNum
import Mathlib.Tactic.Positivity
import Mathlib.Tactic.Ring

/-!
# Different numbers are shown differently

The reals that are read back as a double form its basin (`Basin.Has`). The search for the shortest
digits ends with a decimal of the basin (`shortest_has`): at the last grid that is tried, ten to that
power is smaller than a quarter of the last binary place. Basins of different doubles have no real in
common (`eq_of_has`): neighbouring ones touch in a midpoint at most, and of two neighbours only one
has an even last place. The text of a number with a point tells its decimal, so that two doubles with
the same text are the same (`pointed_injective`).
-/

namespace StackLogic.Decimal

/-! ## Doubles as integers -/

/-- The significand and the exponent are those of a finite double. -/
structure Canonical (m : Nat) (q : Int) : Prop where
  lt : m < 2 * Binary64.leadingBit
  lowest : -1074 ≤ q
  highest : q ≤ 971
  /-- Only with the smallest exponent the leading bit may be missing. -/
  leading : Binary64.leadingBit ≤ m ∨ q = -1074

variable {m m' : Nat} {q q' k : Int} {negative negative' : Bool} {d n : Nat} {v : ℚ}

/-- The fields of a finite double. -/
theorem fields_of_ofBits {bits : Nat} (h : Binary64.ofBits bits = .finite negative m q) :
    (bits / (2048 * Binary64.leadingBit) % 2 == 1) = negative ∧
    ((bits / Binary64.leadingBit % 2048 = 0 ∧ m = bits % Binary64.leadingBit ∧ q = -1074) ∨
      (0 < bits / Binary64.leadingBit % 2048 ∧ bits / Binary64.leadingBit % 2048 < 2047 ∧
        m = Binary64.leadingBit + bits % Binary64.leadingBit ∧
        q = (bits / Binary64.leadingBit % 2048 : Nat) - 1075)) := by
  have hexponent : bits / Binary64.leadingBit % 2048 < 2048 := Nat.mod_lt _ (by decide)
  simp only [Binary64.ofBits] at h
  split at h
  · split at h <;> cases h
  next hfinite =>
    split at h
    next hzero =>
      cases h
      exact ⟨rfl, Or.inl ⟨hzero, rfl, rfl⟩⟩
    next hnormal =>
      cases h
      exact ⟨rfl, Or.inr ⟨by omega, by omega, rfl, rfl⟩⟩

/-- The fields of a word are those of a finite double. -/
theorem canonical_of_ofBits {bits : Nat} (h : Binary64.ofBits bits = .finite negative m q) :
    Canonical m q := by
  have hfraction : bits % Binary64.leadingBit < Binary64.leadingBit := Nat.mod_lt _ (by decide)
  rcases (fields_of_ofBits h).2 with ⟨-, hm, hq⟩ | ⟨hpos, hlt, hm, hq⟩
  · exact ⟨by omega, by omega, by omega, Or.inr hq⟩
  · exact ⟨by omega, by omega, by omega, Or.inl (by omega)⟩

/-- The sign, the significand and the exponent make up all bits. -/
theorem eq_of_ofBits {a b : Nat} (ha : a < 2 ^ 64) (hb : b < 2 ^ 64)
    (h : Binary64.ofBits a = .finite negative m q) (h' : Binary64.ofBits b = .finite negative m q) :
    a = b := by
  obtain ⟨hsign, hfields⟩ := fields_of_ofBits h
  obtain ⟨hsign', hfields'⟩ := fields_of_ofBits h'
  have hbit : ∀ i < 2, ∀ j < 2, (i == 1) = (j == 1) → i = j := by decide
  have hsame := hbit _ (Nat.mod_lt _ (by decide)) _ (Nat.mod_lt _ (by decide))
    (hsign.trans hsign'.symm)
  simp only [Binary64.leadingBit] at hfields hfields' hsame
  omega

theorem eq_of_ofFloat {x y : Float} (h : Binary64.ofFloat x = .finite negative m q)
    (h' : Binary64.ofFloat y = .finite negative m q) : x = y := by
  have hbits : x.toBits = y.toBits :=
    UInt64.toNat_inj.1 (eq_of_ofBits x.toBits.toNat_lt y.toBits.toNat_lt h h')
  obtain ⟨⟨bits, hvalid⟩⟩ := x
  obtain ⟨⟨bits', hvalid'⟩⟩ := y
  cases (hbits : bits = bits')
  rfl

/-! ## Basins -/

/-- The real is read back as the double of the basin. -/
def Basin.Has (b : Basin) (v : ℚ) : Prop :=
  (b.low * 2 ^ b.exponent ≤ v ∧ v ≤ b.high * 2 ^ b.exponent) ∧
    (b.closed = false → b.low * 2 ^ b.exponent < v ∧ v < b.high * 2 ^ b.exponent)

theorem zpow_eq_div {a : ℚ} (ha : a ≠ 0) (k : Int) : a ^ k = a ^ k.toNat / a ^ (-k).toNat := by
  rw [eq_div_iff (pow_ne_zero _ ha), ← zpow_natCast, ← zpow_natCast, ← zpow_add₀ ha]
  congr 1
  omega

theorem Ratio.den_pos (n : Nat) (q k : Int) : 0 < (Ratio.scaled n q k).den :=
  Nat.mul_pos (Nat.pow_pos (by decide)) (Nat.pow_pos (by decide))

/-- A scaled ratio is the number divided by the power of ten. -/
theorem Ratio.num_div_den (n : Nat) (q k : Int) :
    ((Ratio.scaled n q k).num : ℚ) / (Ratio.scaled n q k).den = n * 2 ^ q / 10 ^ k := by
  rw [zpow_eq_div two_ne_zero q, zpow_eq_div (by norm_num : (10 : ℚ) ≠ 0) k]
  simp only [Ratio.scaled, Nat.pow_eq, Nat.cast_mul, Nat.cast_pow, Nat.cast_ofNat]
  field_simp

theorem Ratio.num_le_iff :
    (Ratio.scaled n q k).num ≤ d * (Ratio.scaled n q k).den ↔ (n : ℚ) * 2 ^ q ≤ d * 10 ^ k := by
  have hden : (0 : ℚ) < (Ratio.scaled n q k).den := Nat.cast_pos.2 (den_pos n q k)
  rw [← div_le_iff₀ (by positivity), ← num_div_den, div_le_iff₀ hden]
  norm_cast

theorem Ratio.le_num_iff :
    d * (Ratio.scaled n q k).den ≤ (Ratio.scaled n q k).num ↔ (d : ℚ) * 10 ^ k ≤ n * 2 ^ q := by
  have hden : (0 : ℚ) < (Ratio.scaled n q k).den := Nat.cast_pos.2 (den_pos n q k)
  rw [← le_div_iff₀ (by positivity), ← num_div_den, le_div_iff₀ hden]
  norm_cast

/-- The comparison of integers decides whether a decimal is in the basin. -/
theorem Basin.contains_iff {b : Basin} : b.contains d k = true ↔ b.Has (d * 10 ^ k) := by
  unfold contains Has
  cases b.closed with
  | true => simp [Ratio.num_le_iff, Ratio.le_num_iff]
  | false =>
    simp only [Bool.false_eq_true, if_false, Bool.and_eq_true, decide_eq_true_eq, true_implies]
    rw [← not_le, ← not_le, Ratio.le_num_iff, Ratio.num_le_iff, not_le, not_le]
    exact ⟨fun h => ⟨⟨h.1.le, h.2.le⟩, h⟩, fun h => h.2⟩

/-- A decimal that is found on a grid is in the basin. -/
theorem Basin.has_of_onGrid {b : Basin} (h : b.onGrid k = some d) : b.Has (d * 10 ^ k) := by
  rw [← contains_iff]
  unfold onGrid at h
  dsimp only at h
  split at h
  next hbelow habove =>
    split at h
    · cases h
      exact hbelow
    · cases h
      exact habove
  next hbelow _ =>
    cases h
    exact hbelow
  next _ habove =>
    cases h
    exact habove
  next => cases h

/-- If one of the grids has a hit, the search ends with a decimal of the basin. -/
theorem Basin.has_search {b : Basin} {tries j : Nat} (hj : j < tries)
    (h : (b.onGrid (k - j)).isSome = true) :
    b.Has ((b.search tries k).1 * 10 ^ (b.search tries k).2) := by
  induction tries generalizing k j with
  | zero => exact absurd hj (Nat.not_lt_zero _)
  | succ tries ih =>
    unfold search
    cases hgrid : b.onGrid k with
    | some d => exact has_of_onGrid hgrid
    | none =>
      cases j with
      | zero =>
        rw [Nat.cast_zero, sub_zero, hgrid] at h
        cases h
      | succ j =>
        refine ih (Nat.lt_of_succ_lt_succ hj) ?_
        rw [show k - 1 - (j : Int) = k - ((j + 1 : Nat) : Int) by push_cast; ring]
        exact h

theorem Ratio.div_den_le :
    (((Ratio.scaled n q k).num / (Ratio.scaled n q k).den : Nat) : ℚ) * 10 ^ k ≤ n * 2 ^ q :=
  Ratio.le_num_iff.1 (Nat.div_mul_le_self _ _)

theorem Ratio.lt_div_den_add_one :
    (n : ℚ) * 2 ^ q < ((Ratio.scaled n q k).num / (Ratio.scaled n q k).den + 1 : Nat) * 10 ^ k := by
  rw [← not_le, ← Ratio.le_num_iff, Nat.not_le, Nat.mul_comm]
  exact Nat.lt_mul_div_succ _ (den_pos n q k)

/-- What is less than a quarter of the last binary place below the double is in its basin. -/
theorem has_of_below (hm : m ≠ 0) (hlow : ((4 * m : Nat) : ℚ) * 2 ^ (q - 2) < v + 2 ^ (q - 2))
    (hhigh : v ≤ (4 * m : Nat) * 2 ^ (q - 2)) : (Basin.of m q).Has v := by
  have hquarter : (0 : ℚ) < 2 ^ (q - 2) := by positivity
  have hmidpoint : (Basin.of m q).low + 1 ≤ 4 * m := by
    rw [Basin.of]
    dsimp only
    split <;> omega
  have hcast : (((Basin.of m q).low + 1 : Nat) : ℚ) * 2 ^ (q - 2) ≤ (4 * m : Nat) * 2 ^ (q - 2) :=
    mul_le_mul_of_nonneg_right (Nat.cast_le.2 hmidpoint) hquarter.le
  have hstrict : ((Basin.of m q).low : ℚ) * 2 ^ (q - 2) < v ∧
      v < (4 * m + 2 : Nat) * 2 ^ (q - 2) := by
    push_cast at hcast hlow hhigh ⊢
    constructor <;> linarith
  exact ⟨⟨hstrict.1.le, hstrict.2.le⟩, fun _ => hstrict⟩

/-- The double itself is in its basin. -/
theorem has_self (m : Nat) (q : Int) : (Basin.of m q).Has (m * 2 ^ q) := by
  have hquarter : (0 : ℚ) < 2 ^ (q - 2) := by positivity
  have hcenter : (m : ℚ) * 2 ^ q = (4 * m : Nat) * 2 ^ (q - 2) := by
    rw [zpow_sub₀ two_ne_zero]
    push_cast
    ring
  by_cases hm : m = 0
  · subst hm
    refine ⟨⟨?_, ?_⟩, nofun⟩
    · simp [Basin.of]
    · simp only [Basin.of, Nat.cast_zero, zero_mul]
      positivity
  · rw [hcenter]
    exact has_of_below hm (lt_add_of_pos_right _ hquarter) le_rfl

/-- A grid that is finer than a quarter of the last binary place has a hit: the next decimal below
the double. -/
theorem Basin.isSome_onGrid (hm : m ≠ 0) (h : (10 : ℚ) ^ k ≤ 2 ^ (q - 2)) :
    ((Basin.of m q).onGrid k).isSome = true := by
  have hcontains : (Basin.of m q).contains
      ((Ratio.scaled (4 * m) (q - 2) k).num / (Ratio.scaled (4 * m) (q - 2) k).den) k = true := by
    rw [contains_iff]
    refine has_of_below hm ?_ Ratio.div_den_le
    refine (Ratio.lt_div_den_add_one (k := k)).trans_le ?_
    push_cast
    linarith
  unfold onGrid
  dsimp only [Basin.of] at hcontains ⊢
  rw [hcontains]
  split
  · split <;> rfl
  · rfl
  · rfl
  next hfalse _ => cases hfalse

/-- Compare powers by their powers. -/
theorem zpow_le_zpow_of_pow {a b : ℚ} {r : Nat} {i j : Int} (hr : r ≠ 0) (hb : 0 < b)
    (h : a ^ (i * r) ≤ b ^ (j * r)) : a ^ i ≤ b ^ j := by
  rw [zpow_mul, zpow_mul, zpow_natCast, zpow_natCast] at h
  exact le_of_pow_le_pow_left₀ hr (by positivity) h

/-- The last grid of the search is fine enough. One quotient has to bound the logarithm of two from
below and one from above, since the exponent has either sign: `3 / 10` and `10 / 33` do. -/
theorem ten_pow_le (hlow : -1074 ≤ q) (hhigh : q ≤ 971)
    (hk : k ≤ (52 + q) * 30103 / 100000 - 19) : (10 : ℚ) ^ k ≤ 2 ^ (q - 2) := by
  by_cases hq : 2 ≤ q
  · refine zpow_le_zpow_of_pow (r := 10) (by decide) (by norm_num) ?_
    obtain ⟨n, hn⟩ := Int.eq_ofNat_of_zero_le (show 0 ≤ q - 2 by omega)
    calc (10 : ℚ) ^ (k * (10 : Nat)) ≤ 10 ^ (3 * (q - 2)) :=
          zpow_le_zpow_right₀ (by norm_num) (by push_cast; omega)
      _ = (10 ^ 3) ^ n := by rw [zpow_mul, hn]; norm_cast
      _ ≤ (2 ^ 10) ^ n := pow_le_pow_left₀ (by norm_num) (by norm_num) n
      _ = 2 ^ ((q - 2) * (10 : Nat)) := by rw [mul_comm, zpow_mul, hn]; norm_cast
  · refine zpow_le_zpow_of_pow (r := 33) (by decide) (by norm_num) ?_
    obtain ⟨n, hn⟩ := Int.eq_ofNat_of_zero_le (show 0 ≤ 2 - q by omega)
    have hneg : q - 2 = -(n : Int) := by omega
    calc (10 : ℚ) ^ (k * (33 : Nat)) ≤ 10 ^ (10 * (q - 2)) :=
          zpow_le_zpow_right₀ (by norm_num) (by push_cast; omega)
      _ = ((10 ^ 10) ^ n)⁻¹ := by rw [zpow_mul, hneg, zpow_neg]; norm_cast
      _ ≤ ((2 ^ 33) ^ n)⁻¹ :=
          inv_anti₀ (by positivity) (pow_le_pow_left₀ (by norm_num) (by norm_num) n)
      _ = 2 ^ ((q - 2) * (33 : Nat)) := by
          rw [mul_comm, zpow_mul, hneg, zpow_neg]; norm_cast

/-- The search for the shortest digits finds a decimal that is read back as the double. -/
theorem shortest_has (h : Canonical m q) :
    (Basin.of m q).Has ((shortest m q).1 * 10 ^ (shortest m q).2) := by
  unfold shortest
  split
  next hzero =>
    subst hzero
    simpa using has_self 0 q
  next hm =>
    refine Basin.has_search (j := 21) (by decide) (Basin.isSome_onGrid hm ?_)
    have hlog : Nat.log2 m < 53 := by
      rw [Nat.log2_lt hm]
      exact h.lt
    refine ten_pow_le h.lowest h.highest ?_
    have hmono : ((Nat.log2 m : Int) + q) * 30103 / 100000 ≤ (52 + q) * 30103 / 100000 :=
      Int.ediv_le_ediv (by decide) (by omega)
    push_cast
    omega

/-- Two basins with a common real overlap; where they only touch, both are closed. -/
theorem Basin.Has.meet {b b' : Basin} (h : b.Has v) (h' : b'.Has v) :
    (b'.low : ℚ) * 2 ^ b'.exponent ≤ b.high * 2 ^ b.exponent ∧
      ((b.high : ℚ) * 2 ^ b.exponent ≤ b'.low * 2 ^ b'.exponent →
        b.closed = true ∧ b'.closed = true) := by
  refine ⟨h'.1.1.trans h.1.2, fun htouch => ⟨?_, ?_⟩⟩
  · by_contra hopen
    have hlt := (h.2 (Bool.not_eq_true _ ▸ hopen)).2
    exact absurd (hlt.trans_le (htouch.trans h'.1.1)) (lt_irrefl _)
  · by_contra hopen
    have hlt := (h'.2 (Bool.not_eq_true _ ▸ hopen)).1
    exact absurd (hlt.trans_le (h.1.2.trans htouch)) (lt_irrefl _)

theorem even_of_closed (h : (Basin.of m q).closed = true) : m % 2 = 0 := by
  simpa [Basin.of] using h

/-- Of two doubles with the same exponent the basin of the smaller one ends before the other begins,
since only one of two neighbours has an even significand. -/
theorem le_of_has (h : (Basin.of m q).Has v) (h' : (Basin.of m' q).Has v) : m' ≤ m := by
  by_contra hlt
  have hquarter : (0 : ℚ) < 2 ^ (q - 2) := by positivity
  have hlow : (Basin.of m' q).low = 4 * m' - 1 ∨ (Basin.of m' q).low = 4 * m' - 2 := by
    rw [Basin.of]
    dsimp only
    split <;> simp
  obtain ⟨hmeet, hclosed⟩ := h.meet h'
  have hle : (Basin.of m' q).low ≤ 4 * m + 2 :=
    Nat.cast_le.1 (le_of_mul_le_mul_right hmeet hquarter)
  have hge : 4 * m + 2 ≤ (Basin.of m' q).low := by omega
  obtain ⟨heven, heven'⟩ := hclosed (mul_le_mul_of_nonneg_right (Nat.cast_le.2 hge) hquarter.le)
  have hm := even_of_closed heven
  have hm' := even_of_closed heven'
  omega

/-- A basin with a larger exponent begins after the basin of every smaller double: the largest of
these has an odd significand. -/
theorem not_lt_of_has (hcanonical : Canonical m q) (hcanonical' : Canonical m' q')
    (h : (Basin.of m q).Has v) (h' : (Basin.of m' q').Has v) : ¬ q < q' := by
  intro hlt
  have hquarter : (0 : ℚ) < 2 ^ (q - 2) := by positivity
  have hm := hcanonical.lt
  have hlowest := hcanonical.lowest
  have hm' : Binary64.leadingBit ≤ m' := by
    rcases hcanonical'.leading with hleading | hq'
    · exact hleading
    · omega
  have hlow : 4 * Binary64.leadingBit - 1 ≤ (Basin.of m' q').low := by
    rw [Basin.of]
    dsimp only
    split <;> omega
  have hdouble : 2 * 2 ^ (q - 2) ≤ (2 : ℚ) ^ (q' - 2) := by
    rw [← zpow_one_add₀ two_ne_zero]
    exact zpow_le_zpow_right₀ (by norm_num) (by omega)
  have hscaled : ((2 * (Basin.of m' q').low : Nat) : ℚ) * 2 ^ (q - 2) ≤
      (Basin.of m' q').low * 2 ^ (q' - 2) := by
    have := mul_le_mul_of_nonneg_left hdouble (Nat.cast_nonneg (Basin.of m' q').low)
    push_cast
    linarith
  obtain ⟨hmeet, hclosed⟩ := h.meet h'
  have hle : 2 * (Basin.of m' q').low ≤ 4 * m + 2 :=
    Nat.cast_le.1 (le_of_mul_le_mul_right (hscaled.trans hmeet) hquarter)
  have hge : 4 * m + 2 ≤ 2 * (Basin.of m' q').low := by omega
  have heven := even_of_closed
    (hclosed ((mul_le_mul_of_nonneg_right (Nat.cast_le.2 hge) hquarter.le).trans hscaled)).1
  simp only [Binary64.leadingBit] at hm hlow
  omega

/-- The basins of different doubles have no real in common. -/
theorem eq_of_has (hcanonical : Canonical m q) (hcanonical' : Canonical m' q')
    (h : (Basin.of m q).Has v) (h' : (Basin.of m' q').Has v) : m = m' ∧ q = q' := by
  have hle := not_lt_of_has hcanonical hcanonical' h h'
  have hge := not_lt_of_has hcanonical' hcanonical h' h
  obtain rfl : q = q' := by omega
  exact ⟨Nat.le_antisymm (le_of_has h' h) (le_of_has h h'), rfl⟩

/-! ## Texts -/

/-- The decimal that digits with a point among them stand for. -/
def decimal (cs : List Char) : ℚ :=
  ofDigits (cs.filter (· != '.')) / 10 ^ ((cs.dropWhile (· != '.')).length - 1)

variable {whole places : List Char}

theorem bne_point_of_isDigit {c : Char} (h : c.isDigit = true) : (c != '.') = true := by
  rw [bne_iff_ne]
  rintro rfl
  exact absurd h (by decide)

theorem ofDigits_append_zero : ofDigits (whole ++ ['0']) = 10 * ofDigits whole := by
  simp [ofDigits]

theorem ofDigits_replicate_append (count : Nat) :
    ofDigits (List.replicate count '0' ++ places) = ofDigits places := by
  have hzeros : (List.replicate count '0').foldl
      (fun n c => 10 * n + (c.toNat - '0'.toNat)) 0 = 0 := by
    induction count with
    | zero => rfl
    | succ count ih => exact ih
  rw [ofDigits, List.foldl_append, hzeros, ofDigits]

/-- The text consists of digits and points, and has a digit. -/
structure Digits (cs : List Char) : Prop where
  digit_or_point : ∀ c ∈ cs, c.isDigit = true ∨ c = '.'
  exists_digit : ∃ c ∈ cs, c.isDigit = true

theorem Digits.ne_minus {cs : List Char} (h : Digits cs) : '-' ∉ cs := by
  intro hminus
  rcases h.digit_or_point _ hminus with hc | hc
  · exact absurd hc (by decide)
  · exact absurd hc (by decide)

/-- The text stands for the decimal. -/
structure Denotes (cs : List Char) (v : ℚ) : Prop extends Digits cs where
  value : decimal cs = v

/-- Digits before and behind the point denote the number of all digits, divided by the power of the
places. -/
theorem denotes_append (hne : whole ≠ []) (hwhole : ∀ c ∈ whole, c.isDigit = true)
    (hplaces : ∀ c ∈ places, c.isDigit = true) (hdigits : ofDigits (whole ++ places) = d)
    (hlength : places.length = n) : Denotes (whole ++ '.' :: places) (d / 10 ^ n) := by
  have hfilter : (whole ++ '.' :: places).filter (· != '.') = whole ++ places := by
    rw [List.filter_append, List.filter_cons_of_neg (by decide),
      List.filter_eq_self.2 fun c hc => bne_point_of_isDigit (hwhole c hc),
      List.filter_eq_self.2 fun c hc => bne_point_of_isDigit (hplaces c hc)]
  have hdrop : (whole ++ '.' :: places).dropWhile (· != '.') = '.' :: places := by
    rw [List.dropWhile_append_of_pos fun c hc => bne_point_of_isDigit (hwhole c hc)]
    rfl
  refine ⟨⟨fun c hc => ?_, ?_⟩, ?_⟩
  · rcases List.mem_append.1 hc with hc | hc
    · exact Or.inl (hwhole c hc)
    · rcases List.mem_cons.1 hc with rfl | hc
      · exact Or.inr rfl
      · exact Or.inl (hplaces c hc)
  · obtain ⟨c, hc⟩ := List.exists_mem_of_ne_nil whole hne
    exact ⟨c, List.mem_append_left _ hc, hwhole c hc⟩
  · rw [decimal, hfilter, hdrop, List.length_cons, Nat.add_sub_cancel, hdigits, hlength]

theorem isDigit_of_mem_replicate {count : Nat} {c : Char} (h : c ∈ List.replicate count '0') :
    c.isDigit = true := by
  rw [List.eq_of_mem_replicate h]
  rfl

/-- The digits with a point stand for the number that they were made from. -/
theorem denotes_positional (h : '.' ∈ (positional d k).toList) :
    Denotes (positional d k).toList (d * 10 ^ k) := by
  have hdigits : ∀ c ∈ Nat.toDigits 10 d, c.isDigit = true :=
    fun _ => Horn.isDigit_of_mem_toDigits
  unfold positional at h ⊢
  dsimp only at h ⊢
  split at h
  next =>
    rw [String.toList_ofList, List.mem_append] at h
    rcases h with h | h
    · exact absurd (hdigits _ h) (by decide)
    · exact absurd (isDigit_of_mem_replicate h) (by decide)
  next hk =>
    have hvalue : (d : ℚ) * 10 ^ k = d / 10 ^ (-k).toNat := by
      rw [zpow_eq_div (by norm_num) k, Int.toNat_of_nonpos (by omega), pow_zero, mul_one_div]
    rw [if_neg hk, hvalue]
    split
    next hshort =>
      rw [String.toList_ofList]
      refine denotes_append ?_ (fun c hc => hdigits c (List.mem_of_mem_take hc))
        (fun c hc => hdigits c (List.mem_of_mem_drop hc)) ?_ ?_
      · rw [Ne, List.take_eq_nil_iff, not_or]
        exact ⟨by omega, Nat.toDigits_ne_nil⟩
      · rw [List.take_append_drop, Horn.ofDigits_toDigits]
      · rw [List.length_drop]
        omega
    next hlong =>
      rw [String.toList_ofList]
      show Denotes (['0'] ++ '.' :: _) _
      refine denotes_append (List.cons_ne_nil _ _) (by simp) ?_ ?_ ?_
      · intro c hc
        rcases List.mem_append.1 hc with hc | hc
        · exact isDigit_of_mem_replicate hc
        · exact hdigits c hc
      · exact (ofDigits_replicate_append 1).trans
          ((ofDigits_replicate_append _).trans (Horn.ofDigits_toDigits d))
      · rw [List.length_append, List.length_replicate]
        omega

theorem denotes_toString (n : Nat) : Denotes (toString n ++ ".0").toList n := by
  have htext : (toString n ++ ".0").toList = Nat.toDigits 10 n ++ '.' :: ['0'] := by
    rw [String.toList_append]
    exact congrArg (· ++ ['.', '0']) Nat.toList_repr
  have hvalue : (n : ℚ) = (10 * n : Nat) / 10 ^ 1 := by
    push_cast
    ring
  rw [htext, hvalue]
  refine denotes_append Nat.toDigits_ne_nil (fun _ => Horn.isDigit_of_mem_toDigits) (by simp) ?_ rfl
  rw [ofDigits_append_zero, Horn.ofDigits_toDigits]

/-- A double that is taken for an integer is this integer. -/
theorem integer?_eq (h : Binary64.integer? m q = some n) : (n : ℚ) = m * 2 ^ q := by
  unfold Binary64.integer? at h
  rw [zpow_eq_div two_ne_zero q]
  split at h
  next hq =>
    cases h
    rw [Int.toNat_of_nonpos (show -q ≤ 0 by omega), pow_zero, div_one]
    norm_cast
  next hq =>
    split at h
    next hdivides =>
      cases h
      rw [Int.toNat_of_nonpos (show q ≤ 0 by omega), pow_zero, mul_one_div,
        eq_div_iff (by positivity)]
      exact_mod_cast Nat.div_mul_cancel (Nat.dvd_of_mod_eq_zero hdivides)
    next => cases h

/-- The text of an integral double below `10 ^ 16` and of any other one. -/
theorem pointed_cases (x : Float) :
    pointed x = plain x ∨ ∃ negative m q n, Binary64.ofFloat x = .finite negative m q ∧
      Binary64.integer? m q = some n ∧ pointed x = sign negative ++ (toString n ++ ".0") := by
  unfold pointed
  split
  next negative m q hx =>
    split
    next n hinteger =>
      split
      · exact Or.inr ⟨negative, m, q, n, hx, hinteger, String.append_assoc⟩
      · exact Or.inl rfl
    · exact Or.inl rfl
  · exact Or.inl rfl

/-- A text with a point is that of a finite double: its sign and digits for a real that is read back
as the double. -/
theorem exists_of_pointed {x : Float} (h : '.' ∈ (pointed x).toList) :
    ∃ negative m q cs v, Binary64.ofFloat x = .finite negative m q ∧
      (pointed x).toList = (sign negative).toList ++ cs ∧ Denotes cs v ∧
      (Basin.of m q).Has v := by
  have hsign : ∀ negative, '.' ∉ (sign negative).toList := by decide
  rcases pointed_cases x with hplain | ⟨negative, m, q, n, hx, hinteger, htext⟩
  · rw [hplain, plain] at h ⊢
    cases hx : Binary64.ofFloat x with
    | nan =>
      rw [hx] at h
      exact absurd h (by decide)
    | infinite negative =>
      rw [hx, String.toList_append, List.mem_append] at h
      exact absurd h (not_or.2 ⟨hsign negative, by decide⟩)
    | finite negative m q =>
      rw [hx] at h
      dsimp only at h ⊢
      rw [String.toList_append] at h ⊢
      have hpoint := (List.mem_append.1 h).resolve_left (hsign negative)
      exact ⟨negative, m, q, _, _, rfl, rfl, denotes_positional hpoint,
        shortest_has (canonical_of_ofBits hx)⟩
  · rw [htext, String.toList_append]
    refine ⟨negative, m, q, _, _, hx, rfl, denotes_toString n, ?_⟩
    rw [integer?_eq hinteger]
    exact has_self m q

theorem sign_append_inj {cs cs' : List Char} (hcs : '-' ∉ cs) (hcs' : '-' ∉ cs')
    (h : (sign negative).toList ++ cs = (sign negative').toList ++ cs') :
    negative = negative' ∧ cs = cs' := by
  cases negative <;> cases negative'
  · exact ⟨rfl, h⟩
  · obtain rfl : cs = '-' :: cs' := h
    exact absurd List.mem_cons_self hcs
  · obtain rfl : '-' :: cs = cs' := h
    exact absurd List.mem_cons_self hcs'
  · exact ⟨rfl, List.append_cancel_left h⟩

/-- Two doubles that are shown by the same text with a point are the same. -/
theorem pointed_injective {x y : Float} (hpoint : '.' ∈ (pointed x).toList)
    (h : pointed x = pointed y) : x = y := by
  obtain ⟨negative, m, q, cs, v, hx, htext, hdenotes, hhas⟩ := exists_of_pointed hpoint
  obtain ⟨negative', m', q', cs', v', hy, htext', hdenotes', hhas'⟩ :=
    exists_of_pointed (h ▸ hpoint : '.' ∈ (pointed y).toList)
  rw [h, htext'] at htext
  obtain ⟨rfl, rfl⟩ := sign_append_inj hdenotes'.ne_minus hdenotes.ne_minus htext
  obtain rfl : v = v' := hdenotes.value.symm.trans hdenotes'.value
  obtain ⟨rfl, rfl⟩ := eq_of_has (canonical_of_ofBits hx) (canonical_of_ofBits hy) hhas hhas'
  exact eq_of_ofFloat hx hy

end StackLogic.Decimal
