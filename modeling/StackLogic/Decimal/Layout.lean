import StackLogic.Decimal.Shortest

/-!
# Decimal text of a number

Numbers are written positionally and never with an exponent. There are two layouts of a double:
`plain` writes the shortest digits and nothing more, while `pointed` keeps one place after the
point for an integral double below `10 ^ 16`, which tells it from an integer.
-/

namespace StackLogic.Decimal

/-- The text of `d · 10 ^ k`. -/
def positional (d : Nat) (k : Int) : String :=
  let digits := Nat.toDigits 10 d
  if 0 ≤ k then String.ofList (digits ++ List.replicate k.toNat '0')
  else
    let places := (-k).toNat
    if places < digits.length then
      let split := digits.length - places
      String.ofList (digits.take split ++ '.' :: digits.drop split)
    else
      String.ofList ('0' :: '.' :: (List.replicate (places - digits.length) '0' ++ digits))

/-- The minus sign of a negative number. -/
def sign (negative : Bool) : String :=
  if negative then "-" else ""

/-- The shortest digits that are read back as `x`, without an exponent. -/
def plain (x : Float) : String :=
  match Binary64.ofFloat x with
  | .nan => "NaN"
  | .infinite negative => sign negative ++ "inf"
  | .finite negative m q =>
    let digits := shortest m q
    sign negative ++ positional digits.1 digits.2

/-- As `plain`, but an integral number below `10 ^ 16` is written with one place. -/
def pointed (x : Float) : String :=
  match Binary64.ofFloat x with
  | .finite negative m q =>
    match Binary64.integer? m q with
    | some n => if n < 10000000000000000 then sign negative ++ toString n ++ ".0" else plain x
    | none => plain x
  | _ => plain x

end StackLogic.Decimal
