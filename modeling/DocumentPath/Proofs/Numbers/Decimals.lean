import DocumentPath.Decimal.Quotient
import DocumentPath.Proofs.Numbers.Whole

namespace DocumentPath.Decimal

theorem roundDiv_one (n : Nat) : roundDiv n 1 = n := by
  rw [roundDiv, if_neg (by omega), Nat.div_one]

namespace Scaled

theorem units_ofInt (n : Int) (scale : Nat) : (ofInt n scale).units = n := by
  simp only [ofInt, units, decide_eq_true_eq]
  split <;> omega

theorem whole?_ofInt (n : Int) : (ofInt n 0).whole? = some n := by
  have unit : Nat.pow 10 (ofInt n 0).scale = 1 := rfl
  rw [whole?, units_ofInt, unit, if_pos (Nat.mod_one _)]
  exact congrArg some n.tdiv_one

/-- Each half of a number with enough zeros at its end is exact. -/
theorem halve_shiftLeft (m k : Nat) (e : Int) : Draft.halve k ⟨m <<< k, e⟩ = ⟨m, e + k⟩ := by
  induction k generalizing e with
  | zero => rw [Nat.shiftLeft_zero, Draft.halve, Int.natCast_zero, Int.add_zero]
  | succ k ih =>
    rw [Draft.halve, Nat.shiftLeft_succ, if_pos (Nat.mul_mod_right 2 _),
      Nat.mul_div_cancel_left _ two_pos, ih]
    congr 1
    change e + 1 + k = e + (k + 1 : Nat)
    omega

/-- Each double is exact as long as it has room. -/
theorem double?_shiftLeft {m k : Nat} (room : m <<< k < limit) (e : Int) :
    Draft.double? k ⟨m, e⟩ = some ⟨m <<< k, e - k⟩ := by
  induction k generalizing m e with
  | zero => rw [Nat.shiftLeft_zero, Draft.double?, Int.natCast_zero, Int.sub_zero]
  | succ k ih =>
    rw [Nat.shiftLeft_succ_inside] at room ⊢
    have fits : m < 1 <<< 95 := by
      have : 2 * m ≤ (2 * m) <<< k := by
        rw [Nat.shiftLeft_eq]
        exact Nat.le_mul_of_pos_right _ (Nat.two_pow_pos k)
      have : limit = 2 * 1 <<< 95 := rfl
      omega
    rw [Draft.double?, if_pos fits, ih room]
    congr 2
    change e - 1 - k = e - (k + 1 : Nat)
    omega

theorem finish?_whole (negative : Bool) (n : Nat) :
    Draft.finish? negative ⟨n, 0⟩ = some ⟨negative, n, 0⟩ := rfl

/-- A double that stands for a whole number with room in 96 bits becomes that number. -/
theorem ofFloat?_of_value? {x : Float} {n : Int} (h : Binary64.value? x = some (n : ℚ))
    (room : n.natAbs < limit) : ofFloat? x = some (ofInt n 0) := by
  obtain ⟨⟨negative, m, e⟩, hd, same, signed⟩ := Binary64.dyadic?_of_value? h
  have zero := Binary64.eq_zero_iff_of_shift same
  simp only at same zero
  rw [ofFloat?, hd, Option.bind_eq_bind, Option.bind_some]
  by_cases hm : m = 0
  · rw [if_pos hm, Int.natAbs_eq_zero.mp (zero.mp hm)]
    rfl
  · have sign : negative = decide (n < 0) :=
      Binary64.Dyadic.negative_of_signed signed (mt Int.natAbs_eq_zero.mpr (zero.not.mp hm))
    rw [if_neg hm, ofInt, ← sign]
    by_cases he : e < 0
    · obtain ⟨k, rfl⟩ : ∃ k : Nat, e = -k := ⟨e.natAbs, by omega⟩
      rw [show (-(k : Int)).toNat = 0 by omega, show (-(-(k : Int))).toNat = k by omega,
        Nat.shiftLeft_zero] at same
      simp only
      rw [if_pos he, same, Int.natAbs_neg, Int.natAbs_natCast, halve_shiftLeft, Int.add_left_neg,
        finish?_whole]
    · obtain ⟨k, rfl⟩ : ∃ k : Nat, e = k := ⟨e.toNat, by omega⟩
      rw [show (-(k : Int)).toNat = 0 by omega, Int.toNat_natCast, Nat.shiftLeft_zero] at same
      simp only
      rw [if_neg he, Int.natAbs_natCast, double?_shiftLeft (same ▸ room), Int.sub_self,
        Option.bind_eq_bind, Option.bind_some, finish?_whole, same]

theorem fit?_whole (n : Int) : fit? n 0 = if n.natAbs < limit then some (ofInt n 0) else none := by
  have same : roundDiv n.natAbs (Nat.pow 10 0) = n.natAbs := roundDiv_one _
  have scale : decide (0 - 0 ≤ maxScale) = true := rfl
  simp only [fit?, firstFrom, same, scale, Bool.true_and, decide_eq_true_eq]
  split
  · rw [Option.bind_eq_bind, Option.bind_some, same]
    rfl
  · rfl

theorem unitsAt_ofInt (n : Int) : (ofInt n 0).unitsAt 0 = n := by
  rw [unitsAt, units_ofInt]
  exact Int.mul_one n

theorem add?_ofInt (a b : Int) : (ofInt a 0).add? (ofInt b 0) = fit? (a + b) 0 := by
  change fit? ((ofInt a 0).unitsAt 0 + (ofInt b 0).unitsAt 0) 0 = _
  rw [unitsAt_ofInt, unitsAt_ofInt]

theorem sub?_ofInt (a b : Int) : (ofInt a 0).sub? (ofInt b 0) = fit? (a - b) 0 := by
  change fit? ((ofInt a 0).unitsAt 0 - (ofInt b 0).unitsAt 0) 0 = _
  rw [unitsAt_ofInt, unitsAt_ofInt]

theorem mul?_ofInt (a b : Int) : (ofInt a 0).mul? (ofInt b 0) = fit? (a * b) 0 := by
  have product : (ofInt a 0).units * (ofInt b 0).units = a * b := by
    rw [units_ofInt, units_ofInt]
  rw [mul?, product]
  split
  case isTrue zero =>
    have none : a * b = 0 := Int.mul_eq_zero.mpr (zero.imp Int.natAbs_eq_zero.mp Int.natAbs_eq_zero.mp)
    rw [none]
    rfl
  case isFalse => rfl

theorem rem?_ofInt {b : Int} (hb : b ≠ 0) (a : Int) :
    (ofInt a 0).rem? (ofInt b 0) = some (ofInt (a.tmod b) 0) := by
  rw [rem?, if_neg (show (ofInt b 0).coefficient ≠ 0 from mt Int.natAbs_eq_zero.mp hb)]
  change some (ofInt (((ofInt a 0).unitsAt 0).tmod ((ofInt b 0).unitsAt 0)) 0) = _
  rw [unitsAt_ofInt, unitsAt_ofInt]

/-- A quotient that comes out even has no places. -/
theorem div?_ofInt {b : Int} (hb : b ≠ 0) {q : Int} (room : q.natAbs < limit) :
    (ofInt (b * q) 0).div? (ofInt b 0) = some (ofInt q 0) := by
  have divisor : (ofInt b 0).coefficient = b.natAbs := rfl
  have dividend : (ofInt (b * q) 0).coefficient = b.natAbs * q.natAbs := Int.natAbs_mul b q
  have even : b.natAbs * q.natAbs % b.natAbs = 0 := Nat.mul_mod_right _ _
  have quotient : b.natAbs * q.natAbs / b.natAbs = q.natAbs :=
    Nat.mul_div_cancel_left _ (Int.natAbs_pos.mpr hb)
  rw [div?, divisor, dividend, if_neg (mt Int.natAbs_eq_zero.mp hb)]
  split
  case isTrue zero =>
    have none : q = 0 := by
      rcases Nat.mul_eq_zero.mp zero with hb' | hq <;> omega
    rw [none]
    rfl
  case isFalse nonzero =>
    have hq : q ≠ 0 := by
      rintro rfl
      exact nonzero (Nat.mul_zero _)
    have sign : ((ofInt (b * q) 0).negative != (ofInt b 0).negative) = (ofInt q 0).negative := by
      simp only [ofInt, mul_neg_iff]
      grind
    have whole : unrounded? (ofInt q 0).negative q.natAbs 0 = some (ofInt q 0) := by
      have digits : q.natAbs * Nat.pow 10 (-0 : Int).toNat = q.natAbs := Nat.mul_one _
      simp only [unrounded?, digits]
      rw [if_pos room]
      rfl
    rw [sign, divide?.eq_def, if_pos even, quotient]
    exact congrArg (·.bind some) whole

end Scaled

end DocumentPath.Decimal
