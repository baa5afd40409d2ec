import DocumentPath.Word
import DocumentPath.Binary64

namespace DocumentPath.Decimal

/-- The quotient rounded to a whole number, half to even. -/
def roundDiv (p q : Nat) : Nat :=
  if q < 2 * (p % q) ∨ (2 * (p % q) = q ∧ p / q % 2 = 1) then p / q + 1 else p / q

/-- The first of `start, start + 1, …` that holds, with so many tries. -/
def firstFrom (holds : Nat → Bool) (start : Nat) : Nat → Option Nat
  | 0 => none
  | tries + 1 => if holds start then some start else firstFrom holds (start + 1) tries

/-- A decimal number `± coefficient * 10 ^ -scale`. -/
structure Scaled where
  negative : Bool
  coefficient : Nat
  scale : Nat
  deriving DecidableEq, Repr

namespace Scaled

/-- Coefficients have 96 bits. -/
def limit : Nat := 1 <<< 96

def maxScale : Nat := 28

def ofInt (n : Int) (scale : Nat) : Scaled := ⟨n < 0, n.natAbs, scale⟩

def ofWord (n : Int64) : Scaled := ofInt n.toInt 0

/-- The signed coefficient. -/
def units (d : Scaled) : Int := if d.negative then -(d.coefficient : Int) else d.coefficient

/-- Brings `n * 10 ^ -scale` into bounds by dropping as few low digits as needed, rounded once and
half to even. -/
def fit? (n : Int) (scale : Nat) : Option Scaled := do
  let fits drop := scale - drop ≤ maxScale && roundDiv n.natAbs (Nat.pow 10 drop) < limit
  let drop ← firstFrom fits 0 (scale + 1)
  some ⟨n < 0, roundDiv n.natAbs (Nat.pow 10 drop), scale - drop⟩

/-- The number in units of `10 ^ -scale`, for a scale no smaller than its own. -/
def unitsAt (d : Scaled) (scale : Nat) : Int := d.units * Nat.pow 10 (scale - d.scale)

def add? (a b : Scaled) : Option Scaled :=
  let scale := max a.scale b.scale
  fit? (a.unitsAt scale + b.unitsAt scale) scale

def sub? (a b : Scaled) : Option Scaled :=
  let scale := max a.scale b.scale
  fit? (a.unitsAt scale - b.unitsAt scale) scale

def mul? (a b : Scaled) : Option Scaled :=
  if a.coefficient = 0 ∨ b.coefficient = 0 then some ⟨false, 0, 0⟩
  else fit? (a.units * b.units) (a.scale + b.scale)

/-- Drops the zeros after the point. -/
def trim (d : Scaled) : Scaled :=
  if 0 < d.scale ∧ d.coefficient % 10 = 0 then trim ⟨d.negative, d.coefficient / 10, d.scale - 1⟩
  else d
termination_by d.scale
decreasing_by omega

/-- The remainder of a truncated division, with the sign of the dividend; there is none by zero. -/
def rem? (a b : Scaled) : Option Scaled :=
  if b.coefficient = 0 then none
  else
    let scale := max a.scale b.scale
    some (ofInt ((a.unitsAt scale).tmod (b.unitsAt scale)) scale)

/-- The integer that a number is equal to. -/
def whole? (d : Scaled) : Option Int :=
  let unit := Nat.pow 10 d.scale
  if d.coefficient % unit = 0 then some (d.units.tdiv unit) else none

/-- A power by repeated squaring, every product rounded to a double. -/
def squaringPower (result base : Float) (n : Nat) : Float :=
  let result := if n % 2 = 1 then result * base else result
  if n / 2 = 0 then result else squaringPower result (base * base) (n / 2)
termination_by n
decreasing_by omega

/-- The double for a number. Its whole part and its fraction are converted apart, and their sum is
rounded to the places of the number. -/
def toFloat (d : Scaled) : Float :=
  let unit := Nat.pow 10 d.scale
  let whole := Binary64.ofInt (d.coefficient / unit : Nat)
  let fraction := Binary64.ofInt (d.coefficient % unit : Nat) / Binary64.ofInt unit
  if fraction == 0.0 then Binary64.withSign d.negative whole
  else
    let power := squaringPower 1.0 10.0 d.scale
    Binary64.withSign d.negative (Binary64.round ((whole + fraction) * power) / power)

/-- A number on its way from base two to base ten: `coefficient * 10 ^ exponent`, up to the powers
of five that are still to come. -/
structure Draft where
  coefficient : Nat
  exponent : Int
  deriving DecidableEq

/-- Takes up `n` factors `1 / 2`, each as a half or as `5 / 10`; a half that has no room for either
loses its last bit. -/
def Draft.halve : Nat → Draft → Draft
  | 0, d => d
  | n + 1, d =>
    if d.coefficient % 2 = 0 then halve n ⟨d.coefficient / 2, d.exponent + 1⟩
    else if 5 * d.coefficient < limit then halve n ⟨5 * d.coefficient, d.exponent⟩
    else halve n ⟨d.coefficient / 2, d.exponent + 1⟩

/-- Takes up `n` factors `2`, each as a double or as `10 / 5`. -/
def Draft.double? : Nat → Draft → Option Draft
  | 0, d => some d
  | n + 1, d =>
    if d.coefficient < 1 <<< 95 then double? n ⟨2 * d.coefficient, d.exponent - 1⟩
    else if (n : Int) + 1 < 2 * d.exponent then none
    else double? n ⟨d.coefficient / 5, d.exponent⟩

/-- Multiplies by `10 ^ n` where that has room. -/
def shiftUp? : Nat → Nat → Option Nat
  | 0, m => some m
  | n + 1, m => if 10 * m < limit then shiftUp? n (10 * m) else none

/-- Drops one digit, half away from zero. -/
def dropDigit (m : Nat) : Nat := if 5 ≤ m % 10 then m / 10 + 1 else m / 10

/-- Drops `n` digits one after the other; a number that has run out of digits is zero. -/
def shiftDown : Nat → Nat → Nat
  | 0, m => m
  | n + 1, m => if m / 10 = 0 then 0 else shiftDown n (dropDigit m)

/-- Drops digits until 52 bits are enough or no place is left. -/
def narrow (negative : Bool) (m : Nat) : Nat → Scaled
  | 0 => ⟨negative, m, 0⟩
  | scale + 1 =>
    if 1 <<< 52 ≤ m then narrow negative (dropDigit m) scale else ⟨negative, m, scale + 1⟩

def Draft.finish? (negative : Bool) (d : Draft) : Option Scaled :=
  if 0 ≤ d.exponent then (shiftUp? d.exponent.toNat d.coefficient).map fun m => ⟨negative, m, 0⟩
  else
    let scale := d.exponent.natAbs
    let m := shiftDown (scale - maxScale) d.coefficient
    if m = 0 then some ⟨negative, 0, 0⟩ else some (narrow negative m (min scale maxScale)).trim

/-- The decimal number for a finite double, to about sixteen digits. -/
def ofFloat? (x : Float) : Option Scaled := do
  let d ← Binary64.dyadic? x
  let start : Draft := ⟨d.mantissa, d.exponent⟩
  if d.mantissa = 0 then some ⟨false, 0, 0⟩
  else if d.exponent < 0 then (start.halve d.exponent.natAbs).finish? d.negative
  else (← start.double? d.exponent.natAbs).finish? d.negative

end Scaled

end DocumentPath.Decimal
