import Treewalk.Decimal.Shortest
/-!
# Decimal notations

Positional and scientific layouts of a decimal, and the plain notation that two of the program's
texts share.
-/

namespace Treewalk.Decimal

namespace Digits

def characters (d : Digits) : List Char :=
  Nat.toDigits 10 d.digits

/-- The exponent of the leading digit. -/
def leading (d : Digits) : Int :=
  d.exponent + d.characters.length - 1

/-- Every digit in its place, with no exponent and no point after an integer. -/
def positional (d : Digits) : List Char :=
  let cs := d.characters
  if 0 ≤ d.exponent then
    cs ++ List.replicate d.exponent.toNat '0'
  else
    let places := (-d.exponent).toNat
    if places < cs.length then
      cs.take (cs.length - places) ++ '.' :: cs.drop (cs.length - places)
    else
      '0' :: '.' :: (List.replicate (places - cs.length) '0' ++ cs)

/-- One digit before the point and a signed exponent. -/
def scientific (d : Digits) : List Char :=
  let mantissa := match d.characters with
    | [] => []
    | [c] => [c]
    | c :: rest => c :: '.' :: rest
  let sign := if d.leading < 0 then '-' else '+'
  mantissa ++ 'e' :: sign :: Nat.toDigits 10 d.leading.natAbs

end Digits

/-- A minus in front of a negative number. -/
def signed (negative : Bool) (cs : List Char) : String :=
  String.ofList (if negative then '-' :: cs else cs)

/-- The shortest digits, never with an exponent; an infinity is written as `infinity` says. -/
def plain (infinity : String) (x : Float) : String :=
  match magnitude x with
  | .nan => "NaN"
  | .infinite => signed (isNegative x) infinity.toList
  | .finite m => signed (isNegative x) (shortest .up m).positional

end Treewalk.Decimal
