import DocumentPath.Decimal.Shortest

namespace DocumentPath.Decimal

/-- How the digits of a double are written. -/
structure Layout where
  /-- Which powers of ten of the first digit are written without an exponent. -/
  positional : Int → Bool
  /-- Whether a whole number ends in `.0`. -/
  fraction : Bool
  tie : Tie

/-- Documents write `1.0`, `0.00001` and `1e+16`. -/
def Layout.document : Layout := ⟨fun k => -5 ≤ k && k ≤ 15, true, .even⟩

/-- Running text never has an exponent, and a whole number no point. -/
def Layout.plain : Layout := ⟨fun _ => true, false, .up⟩

/-- Writes digits around a decimal point. -/
def writePositional (fraction : Bool) (digits : List Char) (exponent : Int) : List Char :=
  if 0 ≤ exponent then
    digits ++ List.replicate exponent.toNat '0' ++ if fraction then ['.', '0'] else []
  else
    let places := (-exponent).toNat
    if places < digits.length then
      digits.take (digits.length - places) ++ '.' :: digits.drop (digits.length - places)
    else '0' :: '.' :: List.replicate (places - digits.length) '0' ++ digits

/-- Writes one digit before the point and an exponent that always has a sign. -/
def writeScientific (digits : List Char) (k : Int) : List Char :=
  digits.take 1 ++ (if digits.length ≤ 1 then [] else '.' :: digits.drop 1) ++
    'e' :: (if 0 ≤ k then '+' else '-') :: Text.decimal k.natAbs

def Layout.magnitude (layout : Layout) (d : Binary64.Dyadic) : List Char :=
  if d.mantissa = 0 then writePositional layout.fraction ['0'] 0
  else
    let s := shortest layout.tie d
    let digits := Text.decimal s.digits
    let k := s.exponent + digits.length - 1
    if layout.positional k then writePositional layout.fraction digits s.exponent
    else writeScientific digits k

/-- Text of a double. -/
def Layout.text (layout : Layout) (x : Float) : List Char :=
  match Binary64.dyadic? x with
  | some d => (if d.negative then ['-'] else []) ++ layout.magnitude d
  | none => if x.isNaN then "NaN".toList else if x < 0 then "-inf".toList else "inf".toList

end DocumentPath.Decimal
