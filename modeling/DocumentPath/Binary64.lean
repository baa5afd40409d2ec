namespace DocumentPath.Binary64

/-- A finite double as a sign, a mantissa and a power of two: `± mantissa * 2 ^ exponent`. -/
structure Dyadic where
  negative : Bool
  mantissa : Nat
  exponent : Int
  deriving DecidableEq, Repr

/-- The exact value of a double; an infinity or a NaN has none. Zero is `0 * 2 ^ 0`. -/
def dyadic? (x : Float) : Option Dyadic :=
  match x.toModel.unpack with
  | .notANumber | .infinity _ => none
  | .zero sign => some ⟨sign == .negative, 0, 0⟩
  | .finite sign mantissa exponent _ => some ⟨sign == .negative, mantissa, exponent⟩

/-- The double nearest to `mantissa * 2 ^ exponent`, half to even. -/
def ofScaled (mantissa : Int) (exponent : Int) : Float :=
  .ofModel (.pack (.normalize .binary64 mantissa exponent .positive))

/-- The double nearest to an integer, half to even. -/
def ofInt (n : Int) : Float := ofScaled n 0

/-- The double nearest to a 64-bit integer. -/
def ofWord (n : Int64) : Float := ofInt n.toInt

/-- `x` with its sign turned when `negative` holds. -/
def withSign (negative : Bool) (x : Float) : Float := if negative then -x else x

namespace Dyadic

/-- The digits before the binary point. -/
def floor (d : Dyadic) : Nat :=
  if 0 ≤ d.exponent then d.mantissa <<< d.exponent.toNat
  else d.mantissa >>> (-d.exponent).toNat

/-- The digits after the binary point, as a numerator over `2 ^ (-exponent)`. -/
def fraction (d : Dyadic) : Nat :=
  if 0 ≤ d.exponent then 0 else d.mantissa % (1 <<< (-d.exponent).toNat)

/-- The magnitude rounded to a whole number, half away from zero. -/
def round (d : Dyadic) : Nat :=
  if 0 ≤ d.exponent then d.floor
  else if 1 <<< (-d.exponent).toNat ≤ 2 * d.fraction then d.floor + 1 else d.floor

def signed (d : Dyadic) (n : Nat) : Int := if d.negative then -(n : Int) else n

end Dyadic

/-- The integer that a double is equal to. -/
def whole? (x : Float) : Option Int := do
  let d ← dyadic? x
  if d.fraction = 0 then some (d.signed d.floor) else none

/-- Rounds to a whole double, half away from zero. -/
def round (x : Float) : Float :=
  match dyadic? x with
  | some d => withSign d.negative (ofInt d.round)
  | none => x

/-- The remainder of `|a| / |b|` with the sign of `a`; it is always exact. -/
def Dyadic.remainder (a b : Dyadic) : Float :=
  let e := min a.exponent b.exponent
  let m := a.mantissa <<< (a.exponent - e).toNat
  let n := b.mantissa <<< (b.exponent - e).toNat
  withSign a.negative (ofScaled (m % n : Nat) e)

/-- The remainder that a truncated division leaves. A NaN, an infinite `a` and a zero `b`
leave none. -/
def remainder (a b : Float) : Float :=
  match dyadic? a, dyadic? b with
  | some m, some n => if n.mantissa = 0 then 0.0 / 0.0 else m.remainder n
  | some _, none => if b.isNaN then b else a
  | none, _ => 0.0 / 0.0

end DocumentPath.Binary64
