import Treewalk.Decimal.Binary
/-!
# The fewest digits that read back

The decimals that round to a given value form an interval. Of those with the fewest digits the one
nearest to the value is chosen, by trying the two neighbours of the value on each decimal grid in
turn.
-/

namespace Treewalk.Decimal

/-- The decimal `digits * 10 ^ exponent`. -/
structure Digits where
  digits : Nat
  exponent : Int
deriving DecidableEq, Repr

/-- Which of two equally near decimals is taken. -/
inductive Tie where
  | up
  | toEven
deriving DecidableEq, Repr

namespace Binary

/-- Whether `d` lies among the reals that round to the value, to nearest and ties to even. -/
def readsBack (x : Binary) (d : Digits) : Bool :=
  let low := if x.narrowBelow then 4 * x.m - 1 else 4 * x.m - 2
  let closed := x.m % 2 = 0
  let atLow := compareScaled d.digits d.exponent low (x.q - 2)
  let atHigh := compareScaled d.digits d.exponent (4 * x.m + 2) (x.q - 2)
  (atLow = .gt || (closed && atLow = .eq)) && (atHigh = .lt || (closed && atHigh = .eq))

/-- The nearer of the decimals `n * 10 ^ g` and `(n + 1) * 10 ^ g` around the value. -/
def nearer (tie : Tie) (x : Binary) (n : Nat) (g : Int) : Nat :=
  match compareScaled (2 * n + 1) g x.m (x.q + 1) with
  | .lt => n + 1
  | .gt => n
  | .eq =>
    match tie with
    | .up => n + 1
    | .toEven => if n % 2 = 0 then n else n + 1

/-- The best decimal among the multiples of `10 ^ g`, if any reads back. -/
def onGrid? (tie : Tie) (x : Binary) (g : Int) : Option Digits :=
  let n := x.floorAt g
  match x.readsBack ⟨n, g⟩, x.readsBack ⟨n + 1, g⟩ with
  | true, true => some ⟨x.nearer tie n g, g⟩
  | true, false => some ⟨n, g⟩
  | false, true => some ⟨n + 1, g⟩
  | false, false => none

/-- The whole decimal expansion. -/
def exact (x : Binary) : Digits :=
  if 0 ≤ x.q then ⟨x.m * Nat.pow 2 x.q.toNat, 0⟩ else ⟨x.m * Nat.pow 5 (-x.q).toNat, x.q⟩

end Binary

/-- Moves trailing zeros of the digits into the exponent. -/
def Digits.strip (d : Digits) : Digits :=
  if _h : d.digits ≠ 0 ∧ d.digits % 10 = 0 then
    strip ⟨d.digits / 10, d.exponent + 1⟩
  else
    d
termination_by d.digits
decreasing_by omega

/-- The shortest decimal that reads back, nearest to the value among those of its length. -/
def shortest (tie : Tie) (x : Binary) : Digits :=
  if x.m = 0 then
    ⟨0, 0⟩
  else
    let found := (List.range 17).findSome? fun (n : Nat) => x.onGrid? tie (x.scale - (n + 1))
    (found.getD x.exact).strip

end Treewalk.Decimal
