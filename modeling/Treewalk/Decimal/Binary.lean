/-!
# Binary64 values, exactly

A finite value is `m * 2 ^ q` for naturals `m` and integers `q`. Everything that is written about a
number is computed from this form, in exact arithmetic.
-/

namespace Treewalk.Decimal

/-- A finite non-negative value, `m * 2 ^ q`. -/
structure Binary where
  m : Nat
  q : Int
  /-- The gap to the value below is half the gap to the value above. -/
  narrowBelow : Bool
deriving DecidableEq, Repr

/-- What is left of a number without its sign. -/
inductive Magnitude where
  | nan
  | infinite
  | finite (x : Binary)
deriving DecidableEq, Repr

/-- The magnitude behind a bit pattern: eleven bits of exponent over fifty-two of fraction. -/
def Magnitude.ofBits (bits : UInt64) : Magnitude :=
  let exponent := ((bits >>> 52) &&& 0x7FF).toNat
  let fraction := (bits &&& 0xFFFFFFFFFFFFF).toNat
  if exponent = 0x7FF then
    if fraction = 0 then .infinite else .nan
  else if exponent = 0 then
    .finite ⟨fraction, -1074, false⟩
  else
    .finite ⟨Nat.pow 2 52 + fraction, (exponent : Int) - 1075, fraction = 0 && 1 < exponent⟩

def magnitude (x : Float) : Magnitude :=
  .ofBits x.toBits

/-- The sign bit, which negative zero has too. -/
def isNegative (x : Float) : Bool :=
  x.toBits >>> 63 = 1

/-- Compares `a * 10 ^ i` with `n * 2 ^ j`. -/
def compareScaled (a : Nat) (i : Int) (n : Nat) (j : Int) : Ordering :=
  compare (a * Nat.pow 10 i.toNat * Nat.pow 2 (-j).toNat)
    (n * Nat.pow 2 j.toNat * Nat.pow 10 (-i).toNat)

namespace Binary

/-- The value as a natural, if it has no fractional part. -/
def natural? (x : Binary) : Option Nat :=
  let unit := Nat.pow 2 (-x.q).toNat
  if x.m % unit = 0 then some (x.m / unit * Nat.pow 2 x.q.toNat) else none

/-- The largest natural `n` with `n * 10 ^ g` at most the value. -/
def floorAt (x : Binary) (g : Int) : Nat :=
  (x.m * Nat.pow 2 x.q.toNat * Nat.pow 10 (-g).toNat) /
    (Nat.pow 2 (-x.q).toNat * Nat.pow 10 g.toNat)

/-- An integer at or just above the decimal logarithm: the value is below `10 ^ x.scale`, and it is
the least such power. It is found near `0.30103` times the binary logarithm. -/
def scale (x : Binary) : Int :=
  let estimate := (x.q + x.m.log2) * 30103 / 100000
  let below (k : Int) : Bool := compareScaled 1 k x.m x.q = .gt
  if below estimate then estimate
  else if below (estimate + 1) then estimate + 1
  else estimate + 2

end Binary

end Treewalk.Decimal
