import Mathlib
import DocumentPath.Binary64

open Float.Model Float.Model.UnpackedFloat

namespace DocumentPath.Binary64

theorem mod_shift_succ (n k : Nat) :
    n % (1 <<< (k + 1)) = n % (1 <<< k) + (1 <<< k) * (n >>> k % 2) := by
  rw [Nat.shiftRight_eq_div_pow, Nat.one_shiftLeft, Nat.one_shiftLeft, Nat.pow_succ, Nat.mod_mul]

theorem lost_succ (n k : Nat) :
    (n >>> k % 2 != 0 || n % (1 <<< k) != 0) = (n % (1 <<< (k + 1)) != 0) := by
  rw [mod_shift_succ]
  rcases Nat.mod_two_eq_zero_or_one (n >>> k) with bit | bit <;> simp [bit]

/-- Of the bits that a mantissa loses in a shift, the last is kept, and of the others whether one of
them was set. -/
theorem shift_exact (n k : Nat) :
    (⟨n, false, false⟩ : ExtendedMantissa) >>> (k + 1) =
      ⟨n >>> (k + 1), n >>> k % 2 != 0, n % (1 <<< k) != 0⟩ := by
  induction k with
  | zero =>
    change ExtendedMantissa.shiftRightOne ⟨n, false, false⟩ = _
    simp [ExtendedMantissa.shiftRightOne, Nat.shiftRight_succ, Nat.mod_one]
  | succ k ih =>
    change ExtendedMantissa.shiftRightOne ((⟨n, false, false⟩ : ExtendedMantissa) >>> (k + 1)) = _
    rw [ih, ExtendedMantissa.shiftRightOne, lost_succ]
    rfl

/-- A shift that loses zeros only is exact. -/
theorem shift_shiftLeft (m k : Nat) :
    (⟨m <<< k, false, false⟩ : ExtendedMantissa) >>> k = ⟨m, false, false⟩ := by
  cases k with
  | zero => rfl
  | succ k =>
    have last : (m <<< (k + 1)) >>> k % 2 = 0 := by
      rw [Nat.shiftLeft_succ_inside, Nat.shiftLeft_shiftRight]
      omega
    have rest : m <<< (k + 1) % 1 <<< k = 0 := by
      rw [Nat.shiftLeft_eq, Nat.one_shiftLeft, Nat.pow_succ, ← Nat.mul_assoc, Nat.mul_right_comm]
      exact Nat.mul_mod_left _ _
    rw [shift_exact, Nat.shiftLeft_shiftRight, last, rest]
    rfl

theorem roundedMantissa_bounds (em : ExtendedMantissa) :
    em.mantissa ≤ em.roundedMantissa ∧ em.roundedMantissa ≤ em.mantissa + 1 := by
  obtain ⟨m, roundBit, stickyBit⟩ := em
  cases roundBit <;> cases stickyBit <;>
    simp only [ExtendedMantissa.roundedMantissa, ExtendedMantissa.accuracy,
      Accuracy.roundToNearestEven] <;> omega

/-- A normal double is read back as it was packed. -/
theorem unpack_pack {sign : Sign} {m : Nat} {e : Int} (hm : 0 < m) (low : 0x10000000000000 ≤ m)
    (high : m < 0x20000000000000) (he : -1074 ≤ e) (he' : e ≤ 971) :
    UnpackedFloat.unpack .binary64 (UnpackedFloat.pack .binary64 (.finite sign m e hm)) =
      .finite sign m e hm := by
  have bits : m.log2 = 52 := (Nat.log2_eq_iff (by omega)).mpr ⟨low, high⟩
  have biased :
      (e + Format.binary64.exponentBias + Format.binary64.mantissaBitsWithoutImplicit).toNat =
        (e + 1075).toNat := by
    change (e + (1023 : Nat) + (52 : Nat)).toNat = (e + 1075).toNat
    omega
  have field : (BitVec.ofNat 11 (e + 1075).toNat).toNat = (e + 1075).toNat := by
    rw [BitVec.toNat_ofNat]
    exact Nat.mod_eq_of_lt (by omega)
  have ones : BitVec.ofNat 11 (e + 1075).toNat ≠ -1#11 := by
    intro h
    have same := congrArg BitVec.toNat h
    rw [field] at same
    change _ = 2047 at same
    omega
  have zeros : BitVec.ofNat 11 (e + 1075).toNat ≠ 0#11 := by
    intro h
    have same := congrArg BitVec.toNat h
    rw [field] at same
    change _ = 0 at same
    omega
  have mantissa : (1#1 ++ BitVec.ofNat 52 m).toNat = m := by
    rw [BitVec.toNat_append, ← Nat.shiftLeft_add_eq_or_of_lt (BitVec.ofNat 52 m).isLt,
      BitVec.toNat_ofNat]
    change 0x10000000000000 + m % 0x10000000000000 = m
    omega
  rw [UnpackedFloat.pack]
  simp only [bits, biased]
  rw [if_neg (by change ¬ 2048 ≤ _; omega),
    if_pos (show 52 + 1 = Format.binary64.mantissaBits from rfl), UnpackedFloat.unpack]
  simp only [unpackMantissa_packComponents, unpackExponent_packComponents,
    unpackSign_packComponents, Sign.ofBitVec_toBitVec, ones, zeros, if_false, mantissa, field]
  congr 1
  change ((e + 1075).toNat : Int) - ((1023 : Nat) + (52 : Nat)) = e
  omega

/-- A finite double other than zero is normal, or it has the least exponent. -/
theorem bounds_of_unpack {b : BitVec Format.binary64.numBits} {sign : Sign} {m : Nat} {e : Int}
    {hm : 0 < m} (h : UnpackedFloat.unpack .binary64 b = .finite sign m e hm) :
    m < 0x20000000000000 ∧ (0x10000000000000 ≤ m ∨ e = -1074) ∧ -1074 ≤ e := by
  have mantissa : (unpackMantissa b).toNat < 0x10000000000000 := (unpackMantissa b).isLt
  rw [UnpackedFloat.unpack] at h
  split_ifs at h with ones none zeros none
  · obtain ⟨-, rfl, rfl⟩ := UnpackedFloat.finite.inj h
    have field : (unpackExponent b).toNat = 0 := congrArg BitVec.toNat zeros
    have least : ((unpackExponent b).toNat : Int) - ((1023 : Nat) + (52 : Nat)) + 1 = -1074 := by
      omega
    exact ⟨by omega, .inr least, least.ge⟩
  · obtain ⟨-, rfl, rfl⟩ := UnpackedFloat.finite.inj h
    have field : (unpackExponent b).toNat ≠ 0 := fun he =>
      zeros (BitVec.eq_of_toNat_eq he)
    have implicit : (1#1 ++ unpackMantissa b).toNat = 0x10000000000000 + (unpackMantissa b).toNat := by
      rw [BitVec.toNat_append, ← Nat.shiftLeft_add_eq_or_of_lt (unpackMantissa b).isLt]
      rfl
    refine ⟨by omega, .inl (by omega), ?_⟩
    change -1074 ≤ ((unpackExponent b).toNat : Int) - ((1023 : Nat) + (52 : Nat))
    omega

theorem targetExponent_eq (m : Nat) (e : Int) :
    Format.binary64.targetExponent (totalExponent m e) = max ((m.log2 : Int) + 1 + e - 53) (-1074) :=
  rfl

/-- A mantissa of 53 bits is not shifted. -/
theorem shiftToTargetExponent_normal {m : Nat} {e : Int} (low : 0x10000000000000 ≤ m)
    (high : m < 0x20000000000000) (he : -1074 ≤ e) :
    shiftToTargetExponent .binary64 m e .exact = (⟨m, false, false⟩, e) := by
  have bits : m.log2 = 52 := (Nat.log2_eq_iff (by omega)).mpr ⟨low, high⟩
  have target : Format.binary64.targetExponent (totalExponent m e) = e := by
    rw [targetExponent_eq, bits]
    omega
  have still : (e - e).toNat = 0 := by omega
  rw [shiftToTargetExponent, target, shiftToExponent, still]
  exact congrArg (Prod.mk _) (Int.add_zero e)

/-- Rounding can carry into a bit of its own, which is shifted out again. -/
theorem shiftToTargetExponent_carry {e : Int} (he : -1074 ≤ e) :
    shiftToTargetExponent .binary64 0x20000000000000 e .exact =
      (⟨0x10000000000000, false, false⟩, e + 1) := by
  have bits : Nat.log2 0x20000000000000 = 53 := (Nat.log2_eq_iff (by omega)).mpr (by decide)
  have target : Format.binary64.targetExponent (totalExponent 0x20000000000000 e) = e + 1 := by
    rw [targetExponent_eq, bits]
    omega
  have once : (e + 1 - e).toNat = 1 := by omega
  rw [shiftToTargetExponent, target, shiftToExponent, once]
  rfl

/-- A number is rounded at its target exponent and then, because of a carry, shifted once more. -/
theorem roundWithAccuracy_eq {spec : Format} {sign : Sign} {n : Nat} {e e' e'' : Int}
    {accuracy : Accuracy} {shifted carried : ExtendedMantissa}
    (first : shiftToTargetExponent spec n e accuracy = (shifted, e'))
    (second : shiftToTargetExponent spec shifted.roundedMantissa e' .exact = (carried, e''))
    (positive : 0 < carried.mantissa) :
    roundWithAccuracy spec sign n e accuracy = .finite sign carried.mantissa e'' positive := by
  simp only [roundWithAccuracy, first, second]
  exact dif_neg (show ¬ carried.mantissa = 0 by omega)

theorem targetExponent_whole (n : Nat) :
    Format.binary64.targetExponent (totalExponent n 0) = n.log2 - 52 := by
  rw [targetExponent_eq]
  omega

/-- A whole number of up to 53 bits is a double. -/
theorem round_short (sign : Sign) {n : Nat} (hn : 0 < n) (short : n.log2 ≤ 52) :
    ∃ hm, UnpackedFloat.round .binary64 sign n 0 =
        .finite sign (n <<< (52 - n.log2)) (n.log2 - 52) hm ∧
      0x10000000000000 ≤ n <<< (52 - n.log2) ∧ n <<< (52 - n.log2) < 0x20000000000000 := by
  have low : 0x10000000000000 ≤ n <<< (52 - n.log2) :=
    calc 0x10000000000000 = 2 ^ n.log2 * 2 ^ (52 - n.log2) := by
          rw [← Nat.pow_add, Nat.add_sub_cancel' short]
      _ ≤ n * 2 ^ (52 - n.log2) := Nat.mul_le_mul_right _ (Nat.log2_self_le (by omega))
      _ = n <<< (52 - n.log2) := (Nat.shiftLeft_eq _ _).symm
  have high : n <<< (52 - n.log2) < 0x20000000000000 :=
    calc n <<< (52 - n.log2) = n * 2 ^ (52 - n.log2) := Nat.shiftLeft_eq _ _
      _ < 2 ^ (n.log2 + 1) * 2 ^ (52 - n.log2) :=
          Nat.mul_lt_mul_of_pos_right Nat.lt_log2_self (Nat.two_pow_pos _)
      _ = 0x20000000000000 := by
          rw [← Nat.pow_add, Nat.add_right_comm, Nat.add_sub_cancel' short]
  have exponent : (0 : Int) - (52 - n.log2 : Nat) = n.log2 - 52 := by omega
  have amount : (0 - ((n.log2 : Int) - 52)).toNat = 52 - n.log2 := by omega
  have same := shiftToTargetExponent_normal low high (e := n.log2 - 52) (by omega)
  refine ⟨by omega, ?_, low, high⟩
  rw [UnpackedFloat.round, targetExponent_whole, decreaseExponent, amount, exponent]
  exact roundWithAccuracy_eq same same _

/-- A longer one is rounded at the last bit that a double has. -/
theorem round_long (sign : Sign) {n : Nat} (long : 52 < n.log2) :
    ∃ m e, ∃ hm : 0 < m, UnpackedFloat.round .binary64 sign n 0 = .finite sign m e hm ∧
      0x10000000000000 ≤ m ∧ m < 0x20000000000000 ∧ n.log2 - 52 ≤ e ∧ e ≤ n.log2 - 51 ∧
      m <<< e.toNat =
        ((⟨n, false, false⟩ : ExtendedMantissa) >>> (n.log2 - 52)).roundedMantissa <<<
          (n.log2 - 52) := by
  obtain ⟨k, hk⟩ : ∃ k, n.log2 = k + 53 := ⟨n.log2 - 53, by omega⟩
  have lost : n.log2 - 52 = k + 1 := by omega
  have amount : ((n.log2 : Int) - 52 - 0).toNat = k + 1 := by omega
  have none : (0 - ((n.log2 : Int) - 52)).toNat = 0 := by omega
  have kept : ((⟨n, false, false⟩ : ExtendedMantissa) >>> (k + 1)).mantissa = n >>> (k + 1) := by
    rw [shift_exact]
  have low : 0x10000000000000 ≤ n >>> (k + 1) := by
    rw [Nat.shiftRight_eq_div_pow, Nat.le_div_iff_mul_le (Nat.two_pow_pos _)]
    calc 0x10000000000000 * 2 ^ (k + 1) = 2 ^ n.log2 := by
          rw [hk, show k + 53 = 52 + (k + 1) by omega, Nat.pow_add 2 52]
      _ ≤ n := Nat.log2_self_le (by rintro rfl; simp at long)
  have high : n >>> (k + 1) < 0x20000000000000 := by
    rw [Nat.shiftRight_eq_div_pow, Nat.div_lt_iff_lt_mul (Nat.two_pow_pos _)]
    calc n < 2 ^ (n.log2 + 1) := Nat.lt_log2_self
      _ = 0x20000000000000 * 2 ^ (k + 1) := by
          rw [hk, show k + 53 + 1 = 53 + (k + 1) by omega, Nat.pow_add 2 53]
  have started : UnpackedFloat.round .binary64 sign n 0 =
      roundWithAccuracy .binary64 sign n 0 .exact := by
    rw [UnpackedFloat.round, targetExponent_whole, decreaseExponent, none]
    rfl
  have first : shiftToTargetExponent .binary64 n 0 .exact =
      ((⟨n, false, false⟩ : ExtendedMantissa) >>> (k + 1), ((k + 1 : Nat) : Int)) := by
    rw [shiftToTargetExponent, targetExponent_whole, shiftToExponent, amount, Int.zero_add]
    rfl
  have bounds := roundedMantissa_bounds ((⟨n, false, false⟩ : ExtendedMantissa) >>> (k + 1))
  rw [lost]
  rw [kept] at bounds
  generalize (⟨n, false, false⟩ : ExtendedMantissa) >>> (k + 1) = shifted at first bounds
  by_cases carry : shifted.roundedMantissa < 0x20000000000000
  · refine ⟨shifted.roundedMantissa, (k + 1 : Nat), by omega, ?_, by omega, carry, by omega,
      by omega, rfl⟩
    rw [started]
    exact roundWithAccuracy_eq first (shiftToTargetExponent_normal (by omega) carry (by omega)) _
  · have full : shifted.roundedMantissa = 0x20000000000000 := by omega
    refine ⟨0x10000000000000, (k + 1 : Nat) + 1, by omega, ?_, by omega, by omega, by omega,
      by omega, ?_⟩
    · rw [started]
      exact roundWithAccuracy_eq first (full ▸ shiftToTargetExponent_carry (by omega)) _
    · rw [full]
      exact (Nat.shiftLeft_succ_inside _ _)

end DocumentPath.Binary64
