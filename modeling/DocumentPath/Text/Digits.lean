namespace DocumentPath.Text

/-- Decimal text of a natural number, without leading zeros. -/
def decimal (n : Nat) : List Char := Nat.toDigits 10 n

/-- Decimal text of an integer; only negative numbers carry a sign. -/
def signedDecimal : Int → List Char
  | .ofNat n => decimal n
  | .negSucc n => '-' :: decimal (n + 1)

/-- Reads one or more ASCII digits and nothing else. -/
def readDigits? (cs : List Char) : Option Nat :=
  if cs ≠ [] ∧ cs.all Char.isDigit then some (Nat.ofDigitChars 10 cs 0) else none

/-- Reads a position: digits, with an optional plus sign in front. -/
def readIndex? : List Char → Option Nat
  | '+' :: cs => readDigits? cs
  | cs => readDigits? cs

/-- Reads digits with an optional sign in front. -/
def readInt? : List Char → Option Int
  | '-' :: cs => (readDigits? cs).map fun n => -(n : Int)
  | '+' :: cs => (readDigits? cs).map Int.ofNat
  | cs => (readDigits? cs).map Int.ofNat

theorem decimal_ne_nil (n : Nat) : decimal n ≠ [] := Nat.toDigits_ne_nil

theorem isDigit_of_mem_decimal {n : Nat} {c : Char} (h : c ∈ decimal n) : c.isDigit = true :=
  Nat.isDigit_of_mem_toDigits (by decide : 0 < 10) (by decide) h

theorem readDigits?_decimal (n : Nat) : readDigits? (decimal n) = some n := by
  have h : (decimal n).all Char.isDigit = true :=
    List.all_eq_true.mpr fun _ hc => isDigit_of_mem_decimal hc
  simp only [readDigits?, decimal_ne_nil, h, ne_eq, not_false_eq_true, and_self, if_true]
  exact congrArg some (Nat.ofDigitChars_toDigits (by decide) (by decide))

theorem readIndex?_decimal (n : Nat) : readIndex? (decimal n) = some n := by
  rw [readIndex?.eq_2 _ ?_, readDigits?_decimal]
  intro cs h
  have : ('+' : Char).isDigit = true := isDigit_of_mem_decimal (n := n) (by simp [h])
  exact absurd this (by decide)

end DocumentPath.Text
