import DocumentPath.Binary64
import DocumentPath.Decimal.Reader

namespace DocumentPath.Decimal

/-- Appends digits to `n` until one has no room in 64 bits. It and all after it are left. -/
def appendDigits (n : Nat) : List Char → Nat × List Char
  | [] => (n, [])
  | c :: cs =>
    let m := 10 * n + (c.toNat - 48)
    if m < 0x10000000000000000 then appendDigits m cs else (n, c :: cs)

/-- The greatest power of ten that a double has room for. -/
def maxPower : Nat := 308

/-- The double nearest to `10 ^ k`. -/
def power (k : Nat) : Float := toFloat 1 k

/-- `x / 10 ^ k` for an `x` below `2 ^ 64`. After two divisions nothing is left to divide. -/
def dividePower (x : Float) (k : Nat) : Float :=
  if k ≤ maxPower then x / power k
  else if k ≤ 2 * maxPower then x / power maxPower / power (k - maxPower)
  else 0.0

/-- A double near `n * 10 ^ exponent`, for an `n` below `2 ^ 64`; there is none for a number that
is too large. -/
def scale? (n : Nat) (exponent : Int) : Option Float :=
  let x := Binary64.ofInt n
  if exponent < 0 then some (dividePower x exponent.natAbs)
  else if n = 0 then some 0.0
  else if exponent ≤ maxPower then
    let y := x * power exponent.toNat
    if y.isFinite then some y else none
  else none

/-- A double near `whole.places * 10 ^ exponent`. The digits that have room in 64 bits are taken as
a whole number, which is then scaled in arithmetic of doubles; every step rounds, so the result can
miss the nearest double by its last bits. A whole digit without room still counts as a power of ten,
a place without room not at all. -/
def estimate? (whole places : List Char) (exponent : Int) : Option Float :=
  let (m, left) := appendDigits 0 whole
  let (n, unused) := appendDigits m places
  scale? n (exponent + left.length - (places.length - unused.length : Nat))

end DocumentPath.Decimal
