import DocumentPath.Decimal.Quotient
import DocumentPath.Filter.Operator
import DocumentPath.Value.Basic

namespace DocumentPath.Arithmetic

/-- A finite double as a value; an infinity or a NaN is none. -/
def ofFloat (x : Float) : Value := if x.isFinite then .float x else .null

/-- Arithmetic of doubles. Nothing is divided by zero. -/
def floats (op : Operator) (x y : Float) : Value :=
  match op with
  | .add => ofFloat (x + y)
  | .sub => ofFloat (x - y)
  | .mul => ofFloat (x * y)
  | .div => if y == 0.0 then .null else ofFloat (x / y)
  | .mod => if y == 0.0 then .null else ofFloat (Binary64.remainder x y)
  | .pow => ofFloat (x ^ y)
  | _ => .null

/-- `a ^ n` if it has room in 64 bits. An exponent of 64 or more leaves room to `0`, `1` and `-1`
only. -/
def power? (a : Int) (n : Nat) : Option Int64 :=
  if a.natAbs ≤ 1 ∧ 1 ≤ n then Word.ofInt? (if n % 2 = 0 then a * a else a)
  else if n < 64 then Word.ofInt? (Int.pow a n)
  else none

/-- The exact result where it is an integer with room in 64 bits. -/
def integer? (op : Operator) (a b : Int) : Option Int64 :=
  match op with
  | .add => Word.ofInt? (a + b)
  | .sub => Word.ofInt? (a - b)
  | .mul => Word.ofInt? (a * b)
  | .div => if b ≠ 0 ∧ a.tmod b = 0 then Word.ofInt? (a.tdiv b) else none
  | .mod => if b = 0 ∨ (a = -0x8000000000000000 ∧ b = -1) then none else Word.ofInt? (a.tmod b)
  | .pow => if 0 ≤ b ∧ b < 0x100000000 then power? a b.toNat else none
  | _ => none

/-- Arithmetic of integers. What is not exact in 64 bits is computed in doubles. -/
def integers (op : Operator) (m n : Int64) : Value :=
  match integer? op m.toInt n.toInt with
  | some k => .integer k
  | none => floats op (Binary64.ofWord m) (Binary64.ofWord n)

/-- Arithmetic of decimals, where it has a result. -/
def scaled? (op : Operator) (a b : Decimal.Scaled) : Option Decimal.Scaled :=
  match op with
  | .add => a.add? b
  | .sub => a.sub? b
  | .mul => a.mul? b
  | .div => a.div? b
  | .mod => a.rem? b
  | _ => none

/-- A decimal result as a value: a whole number is an integer and has to have room. -/
def ofScaled? (d : Decimal.Scaled) : Option Value :=
  match d.whole? with
  | some n => (Word.ofInt? n).map .integer
  | none => some (.float d.toFloat)

/-- Arithmetic of an integer and a double goes through decimals, so that whole results are integers;
what has no decimal result is computed in doubles. -/
def mixed (op : Operator) (x y : Float) (a b : Option Decimal.Scaled) : Value :=
  ((do ofScaled? (← scaled? op (← a) (← b))) : Option Value).getD (floats op x y)

/-- Arithmetic of two values. Two strings can be added; other operands give `null`. -/
def apply (op : Operator) : Value → Value → Value
  | .string s, .string t => if op = .add then .string (s ++ t) else .null
  | .integer m, .integer n => integers op m n
  | .float x, .float y => floats op x y
  | .integer m, .float y =>
    mixed op (Binary64.ofWord m) y (some (.ofWord m)) (Decimal.Scaled.ofFloat? y)
  | .float x, .integer n =>
    mixed op x (Binary64.ofWord n) (Decimal.Scaled.ofFloat? x) (some (.ofWord n))
  | _, _ => .null

end DocumentPath.Arithmetic
