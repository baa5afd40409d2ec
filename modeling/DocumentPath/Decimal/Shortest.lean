import DocumentPath.Binary64
import DocumentPath.Text.Digits

namespace DocumentPath.Decimal

/-- A positive decimal number `digits * 10 ^ exponent`. -/
structure Digits where
  digits : Nat
  exponent : Int
  deriving DecidableEq, Repr

/-- Which of two equally near numbers is taken. -/
inductive Tie
  | even
  | up
  deriving DecidableEq, Repr

/-- `10 ^ k` as a numerator over a denominator. -/
def powerOfTen (k : Int) : Nat × Nat := (Nat.pow 10 k.toNat, Nat.pow 10 (-k).toNat)

/-- The `k` with `10 ^ k ≤ p / q < 10 ^ (k + 1)`, for positive `p` and `q`. -/
def magnitude (p q : Nat) : Int :=
  if q ≤ p then ((Text.decimal (p / q)).length : Int) - 1
  else
    let n := (Text.decimal (q / p)).length
    if q ≤ p * Nat.pow 10 (n - 1) then -((n : Int) - 1) else -(n : Int)

/-- The numbers that round to one double, all four scaled by `4 * 2 ^ -exponent`: the double
itself and the middles towards its two neighbours, which belong to it when its mantissa is even. -/
structure Interval where
  value : Nat
  low : Nat
  high : Nat
  closed : Bool

/-- A power of two has its lower neighbour at half the distance. -/
def interval (d : Binary64.Dyadic) : Interval where
  value := 4 * d.mantissa
  low := 4 * d.mantissa - if d.mantissa = 1 <<< 52 ∧ -1074 < d.exponent then 1 else 2
  high := 4 * d.mantissa + 2
  closed := d.mantissa % 2 == 0

def Interval.contains (i : Interval) (n : Nat) (unit scale : Nat) : Bool :=
  if i.closed then i.low * scale ≤ n * unit && n * unit ≤ i.high * scale
  else i.low * scale < n * unit && n * unit < i.high * scale

/-- The number of `count` digits that is nearest to a double among those that round to it. -/
def nearestOf (tie : Tie) (d : Binary64.Dyadic) (k : Int) (count : Nat) : Option Digits :=
  let exponent := k + 1 - count
  let (up, down) := powerOfTen exponent
  let unit := (4 * up) <<< (-d.exponent).toNat
  let scale := down <<< d.exponent.toNat
  let i := interval d
  let below := i.value * scale / unit
  let rest := i.value * scale % unit
  let upper : Bool := if 2 * rest = unit then tie == .up || below % 2 == 1 else unit < 2 * rest
  let (first, second) := if upper then (below + 1, below) else (below, below + 1)
  if i.contains first unit scale then some ⟨first, exponent⟩
  else if i.contains second unit scale then some ⟨second, exponent⟩
  else none

/-- Drops the zeros at the end of the digits. -/
def Digits.trim (d : Digits) : Digits :=
  if 0 < d.digits ∧ d.digits % 10 = 0 then trim ⟨d.digits / 10, d.exponent + 1⟩ else d
termination_by d.digits
decreasing_by omega

/-- The shortest decimal number that rounds to a positive double, and of those the nearest.
Seventeen digits are always enough. -/
def shortest (tie : Tie) (d : Binary64.Dyadic) : Digits :=
  let k := magnitude (d.mantissa <<< d.exponent.toNat) (1 <<< (-d.exponent).toNat)
  (((List.range 17).findSome? fun n => nearestOf tie d k (n + 1)).getD ⟨0, 0⟩).trim

end DocumentPath.Decimal
