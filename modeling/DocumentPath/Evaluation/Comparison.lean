import DocumentPath.Decimal.Reader
import DocumentPath.Text.Blank
import DocumentPath.Value.Equality

namespace DocumentPath.Value

/-- Equality of kind and value, where integers and floats are one kind. -/
def strictEq (a b : Value) : Bool :=
  match a, b with
  | .integer m, .integer n => m == n
  | a, b =>
    match a.toFloat?, b.toFloat? with
    | some x, some y => x == y
    | _, _ => same a b

/-- The number that a number, a boolean or a numeric text stands for. -/
def numeral? : Value → Option Float
  | .integer n => some (Binary64.ofWord n)
  | .float x => some x
  | .boolean b => some (if b then 1.0 else 0.0)
  | .string s => Decimal.read? (Text.trim s.toList)
  | _ => none

/-- Equality where numbers, numeric texts and booleans meet as numbers. -/
def looseEq (a b : Value) : Bool :=
  strictEq a b ||
    match a, b with
    | .string _, .string _ => false
    | a, b =>
      match a.numeral?, b.numeral? with
      | some x, some y => x == y
      | _, _ => false

/-- The order of two doubles; a NaN has no place in it. -/
def compareFloat? (x y : Float) : Option Ordering :=
  if x < y then some .lt else if x == y then some .eq else if x > y then some .gt else none

/-- Numbers are ordered by size and strings by their characters. All else has no order. -/
def compare? (a b : Value) : Option Ordering :=
  match a, b with
  | .integer m, .integer n => some (compare m n)
  | .string s, .string t => some (compare s t)
  | a, b =>
    match a.toFloat?, b.toFloat? with
    | some x, some y => compareFloat? x y
    | _, _ => none

def isBelow (a b : Value) : Bool := (compare? a b).any Ordering.isLT

def isAtMost (a b : Value) : Bool := (compare? a b).any Ordering.isLE

/-- Whether `part` stands somewhere in a text. -/
def hasPart (part : List Char) : List Char → Bool
  | [] => part.isEmpty
  | c :: cs => part.isPrefixOf (c :: cs) || hasPart part cs

/-- A part of a string or an item of an array. -/
def isWithin (needle haystack : Value) : Bool :=
  match haystack, needle with
  | .string h, .string n => hasPart n.toList h.toList
  | .array items, needle => items.any fun item => strictEq item needle
  | _, _ => false

end DocumentPath.Value
