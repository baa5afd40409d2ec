import DocumentPath.Proofs.Evaluation.Counts
import DocumentPath.Proofs.Numbers.Finite

namespace DocumentPath

namespace Arithmetic

/-- `c` is the exact result, in a case that has one. A quotient is exact when nothing remains; the
remainder has the sign of `a`, and that of the least integer by `-1` counts as not computed. -/
def Exact (op : Operator) (a b c : Int) : Prop :=
  match op with
  | .add => c = a + b
  | .sub => c = a - b
  | .mul => c = a * b
  | .div => b ≠ 0 ∧ b * c = a
  | .mod => b ≠ 0 ∧ ¬(a = -0x8000000000000000 ∧ b = -1) ∧ c = a.tmod b
  | .pow => 0 ≤ b ∧ b < 0x100000000 ∧ c = a ^ b.toNat
  | _ => False

/-- A power of `0`, `1` or `-1` depends on the parity of its exponent only. -/
theorem pow_eq_of_natAbs_le {a : Int} (ha : a.natAbs ≤ 1) {n : Nat} (hn : 1 ≤ n) :
    a ^ n = if n % 2 = 0 then a * a else a := by
  obtain rfl | rfl | rfl : a = 0 ∨ a = 1 ∨ a = -1 := by omega
  · rw [zero_pow (by omega)]
    split <;> rfl
  · rw [one_pow]
    split <;> rfl
  · rcases Nat.mod_two_eq_zero_or_one n with even | odd
    · rw [if_pos even, (Nat.even_iff.mpr even).neg_one_pow]
      rfl
    · rw [if_neg (by omega), (Nat.odd_iff.mpr odd).neg_one_pow]

/-- From the exponent 64 on a power of any other number is too large. -/
theorem ofInt?_pow_eq_none {a : Int} (ha : 2 ≤ a.natAbs) {n : Nat} (hn : 64 ≤ n) :
    Word.ofInt? (a ^ n) = none := by
  have large : 2 ^ 64 ≤ (a ^ n).natAbs := by
    rw [Int.natAbs_pow]
    calc 2 ^ 64 ≤ 2 ^ n := Nat.pow_le_pow_right two_pos hn
      _ ≤ a.natAbs ^ n := Nat.pow_le_pow_left ha n
  rw [Word.ofInt?_eq_none_iff]
  omega

/-- The shortcuts for small bases and for large exponents miss no power. -/
theorem power?_eq (a : Int) (n : Nat) : power? a n = Word.ofInt? (a ^ n) := by
  rw [power?]
  split_ifs with small even few
  · rw [pow_eq_of_natAbs_le small.1 small.2, if_pos even]
  · rw [pow_eq_of_natAbs_le small.1 small.2, if_neg even]
  · rfl
  · rw [ofInt?_pow_eq_none (by omega) (by omega)]

theorem integer?_eq_some_iff {op : Operator} {a b : Int} {c : Int64} :
    integer? op a b = some c ↔ Exact op a b c.toInt := by
  cases op with
  | add | sub | mul => exact Word.ofInt?_eq_some_iff
  | div =>
    rw [integer?, Exact, Option.ite_none_right_eq_some, Word.ofInt?_eq_some_iff, and_assoc]
    refine and_congr_right fun hb => ?_
    constructor
    · rintro ⟨even, quotient⟩
      rw [quotient, Int.mul_tdiv_cancel' (Int.dvd_of_tmod_eq_zero even)]
    · rintro rfl
      exact ⟨Int.mul_tmod_right _ _, (Int.mul_tdiv_cancel_left _ hb).symm⟩
  | mod =>
    rw [integer?, Exact, Option.ite_none_left_eq_some, Word.ofInt?_eq_some_iff, not_or, and_assoc]
  | pow =>
    rw [integer?, Exact, Option.ite_none_right_eq_some, power?_eq, Word.ofInt?_eq_some_iff, and_assoc]
  | _ => exact ⟨(fun h => by cases h), False.elim⟩

/-- A remainder is nearer to zero than the divisor, so it has room. -/
theorem exists_remainder {a b : Int64} (hb : b.toInt ≠ 0)
    (h : ¬(a.toInt = -0x8000000000000000 ∧ b.toInt = -1)) :
    ∃ c : Int64, Exact .mod a.toInt b.toInt c.toInt := by
  have near : (a.toInt.tmod b.toInt).natAbs < b.toInt.natAbs := by
    rw [Int.natAbs_tmod]
    exact Nat.mod_lt _ (Int.natAbs_pos.mpr hb)
  have := b.le_toInt
  have := b.toInt_lt
  cases hc : Word.ofInt? (a.toInt.tmod b.toInt) with
  | none =>
    rw [Word.ofInt?_eq_none_iff] at hc
    omega
  | some c => exact ⟨c, hb, h, Word.toInt_of_ofInt? hc⟩

/-- Doubles give a finite double or nothing. -/
theorem floats_cases (op : Operator) (x y : Float) :
    floats op x y = .null ∨ ∃ z, z.isFinite = true ∧ floats op x y = .float z := by
  have finite (z : Float) : ofFloat z = .null ∨ ∃ z', z'.isFinite = true ∧ ofFloat z = .float z' := by
    rw [ofFloat]
    split
    case isTrue h => exact .inr ⟨z, h, rfl⟩
    case isFalse => exact .inl rfl
  cases op with
  | add | sub | mul | pow => exact finite _
  | div | mod =>
    rw [floats]
    split
    · exact .inl rfl
    · exact finite _
  | _ => exact .inl rfl

/-- What integers give is exact, or it is what doubles give. -/
theorem integers_cases (op : Operator) (a b : Int64) :
    (∃ c : Int64, Exact op a.toInt b.toInt c.toInt ∧ integers op a b = .integer c) ∨
      (∀ c : Int64, ¬Exact op a.toInt b.toInt c.toInt) ∧
        integers op a b = floats op (Binary64.ofWord a) (Binary64.ofWord b) := by
  rw [integers]
  split
  case h_1 c h => exact .inl ⟨c, integer?_eq_some_iff.mp h, rfl⟩
  case h_2 h =>
    refine .inr ⟨fun c exact => ?_, rfl⟩
    rw [integer?_eq_some_iff.mpr exact] at h
    cases h

/-- Nothing is divided by a zero of either sign. -/
theorem floats_zero {op : Operator} (h : op = .div ∨ op = .mod) {z : Float}
    (hz : (z == 0.0) = true) (x : Float) : floats op x z = .null := by
  rcases h with rfl | rfl <;> exact if_pos hz

theorem zero_beq : ((-0.0 : Float) == 0.0) = true ∧ ((0.0 : Float) == 0.0) = true := by
  with_unfolding_all exact ⟨rfl, rfl⟩

theorem ofFloat_ne_null {x : Float} (h : x.isFinite = true) : ofFloat x ≠ .null := by
  rw [ofFloat, if_pos h]
  exact Value.noConfusion

/-- Doubles have room for what 64-bit integers have no room for; only powers can be too large for
them. -/
theorem floats_ofWord_ne_null {op : Operator} {a b : Int64} (arithmetic : op.isArithmetic = true)
    (hpow : op ≠ .pow) (nonzero : op = .div ∨ op = .mod → b ≠ 0)
    (inexact : ∀ c : Int64, ¬Exact op a.toInt b.toInt c.toInt) :
    floats op (Binary64.ofWord a) (Binary64.ofWord b) ≠ .null := by
  obtain ⟨sum, difference, product, quotient⟩ := Binary64.isFinite_ofWord a b
  cases op <;> try cases arithmetic
  case add => exact ofFloat_ne_null sum
  case sub => exact ofFloat_ne_null difference
  case mul => exact ofFloat_ne_null product
  case pow => exact absurd rfl hpow
  case div =>
    have hb := nonzero (.inl rfl)
    rw [floats, Binary64.ofWord_ne_zero hb, if_neg Bool.false_ne_true]
    exact ofFloat_ne_null (quotient hb)
  case mod =>
    have hb : b.toInt ≠ 0 := fun zero => nonzero (.inr rfl) (Int64.toInt_inj.mp zero)
    -- every other remainder is exact
    have least : a.toInt = Int64.minValue.toInt ∧ b.toInt = (-1 : Int64).toInt := by
      by_contra other
      obtain ⟨c, exact⟩ := exists_remainder hb other
      exact inexact c exact
    rw [Int64.toInt_inj.mp least.1, Int64.toInt_inj.mp least.2]
    have result : floats .mod (Binary64.ofWord Int64.minValue) (Binary64.ofWord (-1)) =
        .float (-0.0) := by
      with_unfolding_all rfl
    rw [result]
    exact Value.noConfusion

end Arithmetic

namespace Operator

open Arithmetic

/-- Two integers give an integer exactly where the exact result is one with room in 64 bits, and then
they give that. All else is a finite double or `null`. A result is missing only where an integer is
divided by zero or a power is too large for doubles, and a remainder always has room. -/
theorem apply_integers {op : Operator} (h : op.isArithmetic = true) (a b : Int64) :
    (∀ c : Int64, op.apply [.integer a, .integer b] = .integer c ↔
        Exact op a.toInt b.toInt c.toInt) ∧
      ((∀ c : Int64, ¬Exact op a.toInt b.toInt c.toInt) →
        op.apply [.integer a, .integer b] = .null ∨
          ∃ x, x.isFinite = true ∧ op.apply [.integer a, .integer b] = .float x) ∧
      (op ≠ .pow → (op.apply [.integer a, .integer b] = .null ↔ (op = .div ∨ op = .mod) ∧ b = 0)) ∧
      (op = .mod → b ≠ 0 → ¬(a.toInt = -0x8000000000000000 ∧ b.toInt = -1) →
        ∃ c, op.apply [.integer a, .integer b] = .integer c) := by
  have applied : op.apply [.integer a, .integer b] = integers op a b := by
    cases op <;> first | rfl | cases h
  rw [applied]
  rcases integers_cases op a b with ⟨c, exact, result⟩ | ⟨inexact, result⟩
  · rw [result]
    refine ⟨fun c' => ?_, fun inexact => absurd exact (inexact c), fun _ => ?_,
      fun _ _ _ => ⟨c, rfl⟩⟩
    · rw [Value.integer.injEq, ← integer?_eq_some_iff, integer?_eq_some_iff.mpr exact,
        Option.some.injEq]
    · refine iff_of_false Value.noConfusion ?_
      rintro ⟨rfl | rfl, rfl⟩ <;> exact exact.1 rfl
  · rw [result]
    have doubles := floats_cases op (Binary64.ofWord a) (Binary64.ofWord b)
    refine ⟨fun c => iff_of_false (fun integer => ?_) (inexact c), fun _ => doubles,
      fun hpow => ⟨fun null => ?_, ?_⟩, ?_⟩
    · rw [integer] at doubles
      rcases doubles with null | ⟨_, _, float⟩
      · cases null
      · cases float
    · by_contra other
      exact floats_ofWord_ne_null h hpow (fun division hb => other ⟨division, hb⟩) inexact null
    · rintro ⟨division, rfl⟩
      exact floats_zero division zero_beq.2 _
    · rintro rfl hb least
      obtain ⟨c, exact⟩ := exists_remainder (fun zero => hb (Int64.toInt_inj.mp zero)) least
      exact absurd exact (inexact c)

theorem apply_integers_remainder :
    isArithmetic .mod = true ∧ Operator.apply .mod [.integer (-7), .integer 3] = .integer (-1) :=
  ⟨rfl, ((apply_integers rfl (-7) 3).1 (-1)).mpr (show _ ≠ _ ∧ _ by decide)⟩

end Operator

end DocumentPath
