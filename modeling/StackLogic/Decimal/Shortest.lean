import StackLogic.Decimal.Binary64

/-!
# The shortest digits of a number

Among the decimal numbers that are read back as a given double, the shortest one is written: the
one that is a multiple of the largest power of ten, and of two such the nearer to the double.

The double `m · 2 ^ q` is read back from exactly the reals between the midpoints to its two
neighbours, the midpoints included when `m` is even. All comparisons below are between integers:
the three numbers are scaled to quarters of `2 ^ q`.
-/

namespace StackLogic.Decimal

/-- A positive rational number as a fraction of natural numbers. -/
structure Ratio where
  /-- The numerator. -/
  num : Nat
  /-- The denominator. -/
  den : Nat

/-- The fraction `n · 2 ^ q / 10 ^ k`. -/
def Ratio.scaled (n : Nat) (q k : Int) : Ratio :=
  { num := n * Nat.pow 2 q.toNat * Nat.pow 10 (-k).toNat
    den := Nat.pow 2 (-q).toNat * Nat.pow 10 k.toNat }

/-- The reals that are read back as the double `m · 2 ^ q`, in quarters of `2 ^ q`. -/
structure Basin where
  /-- Four times the double. -/
  center : Nat
  /-- The lower midpoint. -/
  low : Nat
  /-- The upper midpoint. -/
  high : Nat
  /-- Whether the midpoints themselves are read back as the double. -/
  closed : Bool
  /-- The exponent of two of one quarter. -/
  exponent : Int

/-- The basin of `m · 2 ^ q`. Below a power of two the doubles lie twice as dense. -/
def Basin.of (m : Nat) (q : Int) : Basin :=
  { center := 4 * m
    low := if m = Binary64.leadingBit ∧ -1074 < q then 4 * m - 1 else 4 * m - 2
    high := 4 * m + 2
    closed := m % 2 == 0
    exponent := q - 2 }

/-- Whether `d · 10 ^ k` is read back as the double. -/
def Basin.contains (b : Basin) (d : Nat) (k : Int) : Bool :=
  let low := Ratio.scaled b.low b.exponent k
  let high := Ratio.scaled b.high b.exponent k
  if b.closed then low.num ≤ d * low.den && d * high.den ≤ high.num
  else low.num < d * low.den && d * high.den < high.num

/-- The decimal `d · 10 ^ k` of this grid that is read back as the double, if there is one. Only
the two multiples of `10 ^ k` around the double can be; of two the nearer wins, the upper on a
tie. -/
def Basin.onGrid (b : Basin) (k : Int) : Option Nat :=
  let center := Ratio.scaled b.center b.exponent k
  let below := center.num / center.den
  match b.contains below k, b.contains (below + 1) k with
  | true, true =>
    if 2 * (center.num - below * center.den) < center.den then some below else some (below + 1)
  | true, false => some below
  | false, true => some (below + 1)
  | false, false => none

/-- Try the grids `10 ^ k`, `10 ^ (k - 1)`, … until one has a hit. -/
def Basin.search (b : Basin) : Nat → Int → Nat × Int
  | 0, k => (0, k)
  | tries + 1, k =>
    match b.onGrid k with
    | some d => (d, k)
    | none => b.search tries (k - 1)

/-- The shortest decimal `d · 10 ^ k` that is read back as `m · 2 ^ q`, as the pair of `d` and `k`.
The search starts at a power of ten above the number, and seventeen digits always suffice. -/
def shortest (m : Nat) (q : Int) : Nat × Int :=
  if m = 0 then (0, 0)
  else (Basin.of m q).search 22 (((Nat.log2 m : Int) + q) * 30103 / 100000 + 2)

end StackLogic.Decimal
