import DocumentPath.Proofs.Numbers.Rounding

open Float.Model Float.Model.UnpackedFloat

namespace DocumentPath.Binary64

/-- Zeros, and numbers whose exponent has room in a double. -/
inductive Fits : UnpackedFloat → Prop
  | zero (sign : Sign) : Fits (.zero sign)
  | finite {sign : Sign} {m : Nat} {e : Int} {hm : 0 < m} (he : e ≤ 971) : Fits (.finite sign m e hm)

theorem isFinite_packComponents {E : Nat} (hE : E < 2047) (sign : Sign)
    (m : BitVec Format.binary64.mantissaBitsWithoutImplicit) :
    (UnpackedFloat.unpack .binary64 (packComponents .binary64 sign (BitVec.ofNat 11 E) m)).isFinite =
      true := by
  have ones : BitVec.ofNat 11 E ≠ -1#11 := by
    intro h
    have same := congrArg BitVec.toNat h
    rw [BitVec.toNat_ofNat, Nat.mod_eq_of_lt (by omega)] at same
    change _ = 2047 at same
    omega
  rw [UnpackedFloat.unpack]
  simp only [unpackExponent_packComponents, ones, if_false]
  split_ifs <;> rfl

theorem isFinite_pack {u : UnpackedFloat} (h : Fits u) :
    (UnpackedFloat.unpack .binary64 (UnpackedFloat.pack .binary64 u)).isFinite = true := by
  cases h with
  | zero sign =>
    rw [UnpackedFloat.pack, unpack_packedZero]
    rfl
  | @finite sign m e hm he =>
    have room : (e + (1023 : Nat) + (52 : Nat)).toNat < 2047 := by omega
    have small : ¬2 ^ Format.binary64.exponentBits ≤ (e + Format.binary64.exponentBias +
        Format.binary64.mantissaBitsWithoutImplicit).toNat + 1 := by
      change ¬2048 ≤ (e + (1023 : Nat) + (52 : Nat)).toNat + 1
      omega
    simp only [UnpackedFloat.pack]
    rw [if_neg small]
    split_ifs
    · exact isFinite_packComponents room sign _
    · exact isFinite_packComponents (by decide) sign _

theorem mantissa_shift_le (em : ExtendedMantissa) (k : Nat) : (em >>> k).mantissa ≤ em.mantissa := by
  induction k with
  | zero => exact Nat.le_refl _
  | succ k ih => exact (Nat.div_le_self _ 2).trans ih

theorem log2_lt_of_lt {m k : Nat} (hk : 0 < k) (h : m < 2 ^ k) : m.log2 < k := by
  by_cases hm : m = 0
  · rw [hm]
    exact hk
  · exact (Nat.log2_lt hm).mpr h

theorem shiftToTargetExponent_bounds (m : Nat) (e : Int) (accuracy : Accuracy) :
    (shiftToTargetExponent .binary64 m e accuracy).1.mantissa ≤ m ∧
      (shiftToTargetExponent .binary64 m e accuracy).2 =
        max e (max ((m.log2 : Int) + 1 + e - 53) (-1074)) := by
  rw [shiftToTargetExponent, targetExponent_eq, shiftToExponent]
  constructor
  · refine (mantissa_shift_le _ _).trans_eq ?_
    cases accuracy with
    | exact => rfl
    | inexact order => cases order <;> rfl
  · change e + ((max ((m.log2 : Int) + 1 + e - 53) (-1074) - e).toNat : Int) = _
    omega

/-- Rounding makes an exponent larger by the length of the mantissa at most. -/
theorem fits_roundWithAccuracy {m : Nat} {e : Int} (hm : m < 2 ^ 200) (he : e ≤ 100) (sign : Sign)
    (accuracy : Accuracy) : Fits (roundWithAccuracy .binary64 sign m e accuracy) := by
  have first := shiftToTargetExponent_bounds m e accuracy
  simp only [roundWithAccuracy]
  generalize shiftToTargetExponent .binary64 m e accuracy = shifted at first ⊢
  obtain ⟨em, e₁⟩ := shifted
  have second := (shiftToTargetExponent_bounds em.roundedMantissa e₁ .exact).2
  generalize shiftToTargetExponent .binary64 em.roundedMantissa e₁ .exact = carried at second ⊢
  obtain ⟨em', e₂⟩ := carried
  have rounded : em.roundedMantissa < 2 ^ 201 := by
    have := (roundedMantissa_bounds em).2
    have : em.mantissa ≤ m := first.1
    omega
  have := log2_lt_of_lt (by decide) hm
  have := log2_lt_of_lt (by decide) rounded
  simp only at first second ⊢
  split_ifs
  · exact .zero sign
  · exact .finite (by omega)

theorem shiftLeft_lt {m j k n : Nat} (hm : m < 2 ^ j) (hk : k ≤ n) : m <<< k < 2 ^ (j + n) := by
  rw [Nat.shiftLeft_eq, Nat.pow_add]
  calc m * 2 ^ k < 2 ^ j * 2 ^ k := Nat.mul_lt_mul_of_pos_right hm (Nat.two_pow_pos k)
    _ ≤ 2 ^ j * 2 ^ n := Nat.mul_le_mul_left _ (Nat.pow_le_pow_right two_pos hk)

theorem fits_round {m : Nat} {e : Int} (hm : m < 2 ^ 140) (he : e ≤ 100) (sign : Sign) :
    Fits (UnpackedFloat.round .binary64 sign m e) := by
  rw [UnpackedFloat.round, targetExponent_eq, decreaseExponent]
  refine fits_roundWithAccuracy ((shiftLeft_lt (n := 52) hm ?_).trans (by decide)) ?_ sign .exact
  · omega
  · omega

theorem fits_normalize {m e : Int} (hm : m.natAbs < 2 ^ 140) (he : e ≤ 100) :
    Fits (UnpackedFloat.normalize .binary64 m e .positive) := by
  rw [UnpackedFloat.normalize]
  split
  · exact fits_round (by omega) he _
  · exact .zero _
  · exact fits_round (by omega) he _

/-- Zeros, and numbers of a size that 64-bit integers have. -/
inductive IsModest : UnpackedFloat → Prop
  | zero (sign : Sign) : IsModest (.zero sign)
  | finite {sign : Sign} {m : Nat} {e : Int} {hm : 0 < m} (room : m < 2 ^ 53) (low : -52 ≤ e)
      (high : e ≤ 12) : IsModest (.finite sign m e hm)

theorem unpack_pack_round {n : Nat} (hn : 0 < n) (room : n < 2 ^ 64) (sign : Sign) :
    ∃ m e hm, UnpackedFloat.unpack .binary64 (UnpackedFloat.pack .binary64
        (UnpackedFloat.round .binary64 sign n 0)) = .finite sign m e hm ∧
      m < 2 ^ 53 ∧ -52 ≤ e ∧ e ≤ 12 := by
  have := log2_lt_of_lt (by decide) room
  by_cases short : n.log2 ≤ 52
  · obtain ⟨hm, round, low, high⟩ := round_short sign hn short
    rw [round]
    exact ⟨_, _, hm, unpack_pack hm low high (by omega) (by omega), high, by omega, by omega⟩
  · obtain ⟨m, e, hm, round, low, high, elow, ehigh, _⟩ := round_long sign (Nat.lt_of_not_le short)
    rw [round]
    exact ⟨m, e, hm, unpack_pack hm low high (by omega) (by omega), high, by omega, by omega⟩

/-- An integer other than zero is no zero as a double either. -/
theorem unpack_ofWord {n : Int64} (hn : n ≠ 0) :
    ∃ sign m e hm, (ofWord n).toModel.unpack = .finite sign m e hm ∧
      m < 2 ^ 53 ∧ -52 ≤ e ∧ e ≤ 12 := by
  have := n.le_toInt
  have := n.toInt_lt
  have nonzero : n.toInt ≠ 0 := fun zero => hn (Int64.toInt_inj.mp zero)
  have unpacked : (ofWord n).toModel.unpack = UnpackedFloat.unpack .binary64
      (UnpackedFloat.pack .binary64 (UnpackedFloat.normalize .binary64 n.toInt 0 .positive)) := rfl
  rw [unpacked, UnpackedFloat.normalize]
  rcases Int.lt_or_gt_of_ne nonzero with negative | positive
  · rw [Int.compare_eq_lt.mpr negative]
    exact ⟨_, unpack_pack_round (by omega) (by omega) .negative⟩
  · rw [Int.compare_eq_gt.mpr positive]
    exact ⟨_, unpack_pack_round (by omega) (by omega) .positive⟩

theorem isModest_ofWord (n : Int64) : IsModest (ofWord n).toModel.unpack := by
  by_cases hn : n = 0
  · subst hn
    exact .zero .positive
  · obtain ⟨sign, m, e, hm, unpacked, room, low, high⟩ := unpack_ofWord hn
    rw [unpacked]
    exact .finite room low high

variable {u v : UnpackedFloat}

theorem IsModest.fits (h : IsModest u) : Fits u := by
  cases h with
  | zero sign => exact .zero sign
  | finite _ _ high => exact .finite (high.trans (by decide))

theorem IsModest.neg (h : IsModest u) : IsModest u.neg := by
  cases h with
  | zero sign => exact .zero _
  | finite room low high => exact .finite room low high

/-- A mantissa that is brought to a lesser exponent. -/
theorem natAbs_apply_shift {m : Nat} {e e' : Int} (room : m < 2 ^ 53) (high : e ≤ 12)
    (low : -52 ≤ e') (sign : Sign) :
    (sign.apply (m <<< (e - e').toNat : Nat)).natAbs < 2 ^ 117 := by
  have shifted : m <<< (e - e').toNat < 2 ^ (53 + 64) := shiftLeft_lt room (by omega)
  cases sign with
  | positive => exact shifted
  | negative => exact (Int.natAbs_neg _).trans_lt shifted

theorem fits_add (hu : IsModest u) (hv : IsModest v) : Fits (UnpackedFloat.add .binary64 u v) := by
  cases hu with
  | zero sign =>
    cases hv with
    | zero sign' =>
      rw [UnpackedFloat.add]
      split <;> exact .zero _
    | finite room low high => exact (IsModest.finite room low high).fits
  | @finite sign m e _ room low high =>
    cases hv with
    | zero => exact (IsModest.finite room low high).fits
    | @finite sign' m' e' _ room' low' high' =>
      have least : -52 ≤ min e e' := by omega
      have := natAbs_apply_shift room high least sign
      have := natAbs_apply_shift room' high' least sign'
      exact fits_normalize (by omega) (by omega)

theorem sub_eq_add_neg (u v : UnpackedFloat) :
    UnpackedFloat.sub .binary64 u v = UnpackedFloat.add .binary64 u v.neg := by
  cases u with
  | finite sign m e =>
    cases v with
    | finite sign' m' e' =>
      cases sign' with
      | positive => rfl
      | negative =>
        exact congrArg (UnpackedFloat.normalize .binary64 · (min e e') .positive) (Int.sub_neg _ _)
    | _ => rfl
  | _ => cases v <;> rfl

theorem fits_mul (hu : IsModest u) (hv : IsModest v) : Fits (UnpackedFloat.mul .binary64 u v) := by
  cases hu with
  | zero sign => cases hv <;> exact .zero _
  | @finite sign m e _ room low high =>
    cases hv with
    | zero => exact .zero _
    | @finite sign' m' e' _ room' low' high' =>
      have product : m * m' < 2 ^ 53 * 2 ^ 53 := Nat.mul_lt_mul'' room room'
      exact fits_roundWithAccuracy (by omega) (by omega) _ _

/-- The dividend is shifted until the quotient has 53 bits. -/
theorem fits_div (hu : IsModest u) (hv : IsModest v) (nonzero : ∀ sign, v ≠ .zero sign) :
    Fits (UnpackedFloat.div .binary64 u v) := by
  cases hv with
  | zero sign => exact absurd rfl (nonzero sign)
  | @finite sign' m' e' _ room' low' high' =>
    cases hu with
    | zero => exact .zero _
    | @finite sign m e _ room low high =>
      have := log2_lt_of_lt (by decide) room'
      have target : Format.binary64.targetExponent (totalExponent m e - totalExponent m' e') =
          max ((m.log2 : Int) + 1 + e - (m'.log2 + 1 + e') - 53) (-1074) := rfl
      rw [UnpackedFloat.div, divCore]
      simp only [target]
      refine fits_roundWithAccuracy ((Nat.div_le_self _ _).trans_lt
        ((shiftLeft_lt (n := 105) room ?_).trans (by decide))) ?_ _ _
      · omega
      · omega

/-- Doubles of 64-bit integers are added, subtracted, multiplied and divided without an overflow. -/
theorem isFinite_ofWord (a b : Int64) :
    (ofWord a + ofWord b).isFinite = true ∧ (ofWord a - ofWord b).isFinite = true ∧
      (ofWord a * ofWord b).isFinite = true ∧
      (b ≠ 0 → (ofWord a / ofWord b).isFinite = true) := by
  have ha := isModest_ofWord a
  have hb := isModest_ofWord b
  refine ⟨isFinite_pack (fits_add ha hb), ?_, isFinite_pack (fits_mul ha hb), fun nonzero =>
    isFinite_pack (fits_div ha hb fun sign zero => ?_)⟩
  · have sum := isFinite_pack (fits_add ha hb.neg)
    rw [← sub_eq_add_neg] at sum
    exact sum
  · obtain ⟨_, _, _, _, unpacked, _⟩ := unpack_ofWord nonzero
    rw [zero] at unpacked
    cases unpacked

theorem ofWord_ne_zero {n : Int64} (hn : n ≠ 0) : (ofWord n == 0.0) = false := by
  have same : (ofWord n == 0.0) = (ofWord n).toModel.unpack.beq (.zero .positive) := rfl
  obtain ⟨sign, _, _, _, unpacked, _⟩ := unpack_ofWord hn
  rw [same, unpacked]
  cases sign <;> rfl

end DocumentPath.Binary64
