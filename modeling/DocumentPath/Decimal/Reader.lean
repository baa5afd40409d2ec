import DocumentPath.Text.Digits

namespace DocumentPath.Decimal

/-- The double nearest to `digits * 10 ^ exponent`. -/
def toFloat (digits : Nat) (exponent : Int) : Float :=
  Float.ofScientific digits (exponent < 0) exponent.natAbs

/-- Reads what may follow the mantissa: nothing, or `e` and a signed number. -/
def readExponent? : List Char → Option Int
  | [] => some 0
  | c :: cs => if c = 'e' ∨ c = 'E' then Text.readInt? cs else none

/-- Reads `12`, `12.`, `.5`, `1.5`, each with an optional exponent; a lone point is no number. -/
def readUnsigned? (cs : List Char) : Option Float :=
  let whole := cs.takeWhile Char.isDigit
  let rest := cs.dropWhile Char.isDigit
  let (places, tail) := match rest with
    | '.' :: cs => (cs.takeWhile Char.isDigit, cs.dropWhile Char.isDigit)
    | cs => ([], cs)
  do
    let digits ← Text.readDigits? (whole ++ places)
    let exponent ← readExponent? tail
    some (toFloat digits (exponent - places.length))

/-- Reads a magnitude: a number, or the words `inf`, `infinity` and `nan` in any case. -/
def readMagnitude? (cs : List Char) : Option Float :=
  let word := cs.map Char.toLower
  if word = "inf".toList ∨ word = "infinity".toList then some (1.0 / 0.0)
  else if word = "nan".toList then some (0.0 / 0.0)
  else readUnsigned? cs

/-- Reads decimal text as the nearest double; too large a number gives an infinity. -/
def read? : List Char → Option Float
  | '-' :: cs => (readMagnitude? cs).map fun x => -x
  | '+' :: cs => readMagnitude? cs
  | cs => readMagnitude? cs

end DocumentPath.Decimal
