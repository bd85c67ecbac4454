/-!
# Binary floating-point numbers as integers

A finite double is `± m · 2 ^ q` with a natural number `m < 2 ^ 53` and an integer `q ≥ -1074`.
Everything that has to be exact about a double (its digits, its remainder by another one) is said
about `m` and `q`, so that no rounding stands between the statement and the number.
-/

namespace StackLogic.Decimal

/-- What a double stands for. -/
inductive Binary64 where
  /-- Not a number. -/
  | nan
  /-- An infinity with its sign. -/
  | infinite (negative : Bool)
  /-- The number `m · 2 ^ q` with its sign. -/
  | finite (negative : Bool) (m : Nat) (q : Int)

namespace Binary64

/-- The leading bit of `m`, which is `2 ^ 52`. It is not stored: numbers with the smallest exponent
do not have it, and all others do. -/
def leadingBit : Nat := 4503599627370496

/-- Read the fields of the sixty-four bits: sign, exponent and the bits of `m` below the leading
one. -/
def ofBits (bits : Nat) : Binary64 :=
  let negative := bits / (2048 * leadingBit) % 2 == 1
  let exponent := bits / leadingBit % 2048
  let fraction := bits % leadingBit
  if exponent = 2047 then
    if fraction = 0 then .infinite negative else .nan
  else if exponent = 0 then
    .finite negative fraction (-1074)
  else
    .finite negative (leadingBit + fraction) ((exponent : Int) - 1075)

/-- What the double `x` stands for. -/
def ofFloat (x : Float) : Binary64 :=
  ofBits x.toBits.toNat

/-- The double nearest to `± m · 2 ^ q`; exact when that number is a double. -/
def toFloat (negative : Bool) (m : Nat) (q : Int) : Float :=
  let magnitude :=
    if 0 ≤ q then Float.ofScientific (m * Nat.pow 2 q.toNat) false 0
    else Float.ofScientific (m * Nat.pow 5 (-q).toNat) true (-q).toNat
  if negative then -magnitude else magnitude

/-- Whether `m · 2 ^ q` is an integer, and which. -/
def integer? (m : Nat) (q : Int) : Option Nat :=
  if 0 ≤ q then some (m * Nat.pow 2 q.toNat)
  else if m % Nat.pow 2 (-q).toNat = 0 then some (m / Nat.pow 2 (-q).toNat)
  else none

end Binary64

/-- The remainder of the division of `x` by `y` that truncates toward zero. It is computed exactly
and takes the sign of `x`. -/
def remainder (x y : Float) : Float :=
  match Binary64.ofFloat x, Binary64.ofFloat y with
  | .finite negative m q, .finite _ n r =>
    if n = 0 then 0.0 / 0.0
    else
      let scale := min q r
      let rest := (m * Nat.pow 2 (q - scale).toNat) % (n * Nat.pow 2 (r - scale).toNat)
      Binary64.toFloat negative rest scale
  | .finite .., .infinite _ => x
  | _, _ => 0.0 / 0.0

/-- Drop the part behind the point, keeping the sign. -/
def truncate (x : Float) : Float :=
  if x < 0.0 then x.ceil else x.floor

end StackLogic.Decimal
