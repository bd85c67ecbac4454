/-!
# Reading numbers

An integer is an optional sign and at least one digit, and has to fit in sixty-four bits. A
decimal is an optional sign, digits with an optional point among them, and an optional exponent;
it is rounded to the nearest double. The words `inf`, `infinity` and `nan`, in any letter case,
are read too.
-/

namespace StackLogic.Decimal

/-- The value of a list of digits. -/
def ofDigits (digits : List Char) : Nat :=
  digits.foldl (fun n c => 10 * n + (c.toNat - '0'.toNat)) 0

/-- An optional sign and what follows it. -/
def splitSign : List Char → Bool × List Char
  | '-' :: rest => (true, rest)
  | '+' :: rest => (false, rest)
  | rest => (false, rest)

/-- At least one digit and nothing else. -/
def natural? (cs : List Char) : Option Nat :=
  if !cs.isEmpty && cs.all Char.isDigit then some (ofDigits cs) else none

/-- An optional sign and at least one digit. -/
def integer? (cs : List Char) : Option Int :=
  let (negative, rest) := splitSign cs
  (natural? rest).map fun n => if negative then -(n : Int) else n

/-- The integer as a word of sixty-four bits, if it fits. -/
def fit? (n : Int) : Option Int64 :=
  if Int64.minValue.toInt ≤ n ∧ n ≤ Int64.maxValue.toInt then some (Int64.ofInt n) else none

/-- Read a word of sixty-four bits. -/
def word? (cs : List Char) : Option Int64 :=
  (integer? cs).bind fit?

/-- The double nearest to `d · 10 ^ k`. Beyond the range of the doubles the result no longer
depends on `k`, so it is limited first; `size` is the number of digits of `d`. -/
def nearest (d size : Nat) (k : Int) : Float :=
  if d = 0 then 0.0
  else if 400 < k then 1.0 / 0.0
  else if k + size < -400 then 0.0
  else if 0 ≤ k then Float.ofScientific d false k.toNat
  else Float.ofScientific d true (-k).toNat

/-- The exponent at the end of a decimal: nothing, or `e` and an integer. -/
def exponent? : List Char → Option Int
  | [] => some 0
  | c :: rest => if c = 'e' ∨ c = 'E' then integer? rest else none

/-- An unsigned decimal. -/
def magnitude? (cs : List Char) : Option Float :=
  let whole := cs.takeWhile Char.isDigit
  let behind := cs.dropWhile Char.isDigit
  let (places, tail) :=
    match behind with
    | '.' :: rest => (rest.takeWhile Char.isDigit, rest.dropWhile Char.isDigit)
    | _ => ([], behind)
  let digits := whole ++ places
  if digits.isEmpty then none
  else (exponent? tail).map fun e => nearest (ofDigits digits) digits.length (e - places.length)

/-- The words for values that are no numbers. -/
def special? (cs : List Char) : Option Float :=
  let name := cs.map Char.toLower
  if name = "inf".toList ∨ name = "infinity".toList then some (1.0 / 0.0)
  else if name = "nan".toList then some (0.0 / 0.0)
  else none

/-- Read a double. -/
def float? (cs : List Char) : Option Float :=
  let (negative, rest) := splitSign cs
  ((magnitude? rest).or (special? rest)).map fun x => if negative then -x else x

end StackLogic.Decimal
