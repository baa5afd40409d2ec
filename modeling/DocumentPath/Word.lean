import DocumentPath.Text.Digits

namespace DocumentPath.Word

/-- The 64-bit integer equal to `n`, when there is one. -/
def ofInt? (n : Int) : Option Int64 :=
  if -0x8000000000000000 ≤ n ∧ n < 0x8000000000000000 then some (Int64.ofInt n) else none

/-- The 64-bit integer nearest to `n`. -/
def nearest (n : Int) : Int64 :=
  if n < -0x8000000000000000 then Int64.minValue
  else if 0x8000000000000000 ≤ n then Int64.maxValue
  else Int64.ofInt n

/-- Reads a signed decimal text that fits 64 bits. -/
def read? (cs : List Char) : Option Int64 :=
  (Text.readInt? cs).bind ofInt?

/-- Decimal text. -/
def decimal (n : Int64) : List Char := Text.signedDecimal n.toInt

theorem ofInt?_toInt (n : Int64) : ofInt? n.toInt = some n := by
  rw [ofInt?, if_pos ⟨n.le_toInt, n.toInt_lt⟩, Int64.ofInt_toInt]

theorem toInt_of_ofInt? {n : Int} {k : Int64} (h : ofInt? n = some k) : k.toInt = n := by
  unfold ofInt? at h
  split at h
  case isTrue hn =>
    cases h
    exact Int64.toInt_ofInt_of_le hn.1 hn.2
  case isFalse => cases h

theorem ofInt?_eq_some_iff {n : Int} {k : Int64} : ofInt? n = some k ↔ k.toInt = n :=
  ⟨toInt_of_ofInt?, fun h => h ▸ ofInt?_toInt k⟩

theorem ofInt?_eq_none_iff {n : Int} :
    ofInt? n = none ↔ n < -0x8000000000000000 ∨ 0x8000000000000000 ≤ n := by
  unfold ofInt?
  split <;> simp <;> omega

end DocumentPath.Word
