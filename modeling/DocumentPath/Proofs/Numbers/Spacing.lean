import DocumentPath.Proofs.Numbers.Rounding

open Float.Model Float.Model.UnpackedFloat

namespace DocumentPath.Binary64

/-- The multiple of 2048 that is nearest to `n`, half to even. -/
def spaced (n : Nat) : Nat :=
  if n % 2048 < 1024 ∨ n % 2048 = 1024 ∧ n / 2048 % 2 = 0 then 2048 * (n / 2048)
  else 2048 * (n / 2048 + 1)

theorem spaced_eq_iff (n : Nat) : spaced n = n ↔ n % 2048 = 0 := by
  rw [spaced]
  split <;> omega

theorem roundedMantissa_shift (n : Nat) :
    2048 * ((⟨n, false, false⟩ : ExtendedMantissa) >>> 11).roundedMantissa = spaced n := by
  have half : n >>> 10 = n / 1024 := Nat.shiftRight_eq_div_pow n 10
  have unit : n >>> 11 = n / 2048 := Nat.shiftRight_eq_div_pow n 11
  rw [shift_exact n 10, half, unit]
  change 2048 * Accuracy.roundToNearestEven (n / 2048) (ExtendedMantissa.accuracy
    ⟨n / 2048, n / 1024 % 2 != 0, n % 1024 != 0⟩) = _
  rw [spaced]
  cases last : n / 1024 % 2 != 0 <;> cases rest : n % 1024 != 0 <;>
    simp only [bne_eq_false_iff_eq, bne_iff_ne] at last rest
  · rw [if_pos (by omega)]
    rfl
  · rw [if_pos (by omega)]
    rfl
  · change 2048 * (n / 2048 + n / 2048 % 2) = _
    split <;> omega
  · rw [if_neg (by omega)]
    rfl

/-- From `2 ^ 63` on the doubles below `2 ^ 64` are the multiples of 2048. -/
theorem round_spaced {n : Nat} (low : 0x8000000000000000 ≤ n) (high : n < 0x10000000000000000) :
    ∃ m e, ∃ hm : 0 < m, UnpackedFloat.round .binary64 .positive n 0 = .finite .positive m e hm ∧
      0x10000000000000 ≤ m ∧ m < 0x20000000000000 ∧ 0 ≤ e ∧ e ≤ 12 ∧
      m <<< e.toNat = spaced n := by
  have bits : n.log2 = 63 := (Nat.log2_eq_iff (by omega)).mpr ⟨low, high⟩
  obtain ⟨m, e, hm, round, mlow, mhigh, elow, ehigh, value⟩ :=
    round_long .positive (show 52 < n.log2 by omega)
  rw [bits] at elow ehigh value
  refine ⟨m, e, hm, round, mlow, mhigh, by omega, by omega, ?_⟩
  rw [value, ← roundedMantissa_shift, Nat.shiftLeft_eq]
  exact Nat.mul_comm _ 2048

/-- A whole number from `2 ^ 63` on becomes the nearest multiple of 2048. -/
theorem dyadic?_ofInt {n : Nat} (low : 0x8000000000000000 ≤ n) (high : n < 0x10000000000000000) :
    ∃ m e, dyadic? (ofInt n) = some ⟨false, m, e⟩ ∧ 0 ≤ e ∧ m <<< e.toNat = spaced n := by
  obtain ⟨m, e, hm, round, mlow, mhigh, elow, ehigh, value⟩ := round_spaced low high
  have normal : UnpackedFloat.normalize .binary64 n 0 .positive = .finite .positive m e hm := by
    have positive : compare (n : Int) 0 = .gt := Int.compare_eq_gt.mpr (by omega)
    rw [← round, UnpackedFloat.normalize, positive]
    rfl
  have unpacked : (ofInt n).toModel.unpack = .finite .positive m e hm := by
    change UnpackedFloat.unpack .binary64 (UnpackedFloat.pack .binary64 _) = _
    rw [normal, unpack_pack hm mlow mhigh (by omega) (by omega)]
  refine ⟨m, e, ?_, elow, value⟩
  rw [dyadic?, unpacked]
  rfl

theorem isFinite_of_dyadic? {x : Float} {d : Dyadic} (h : dyadic? x = some d) :
    x.isFinite = true := by
  rw [dyadic?] at h
  change UnpackedFloat.isFinite x.toModel.unpack = true
  split at h
  case h_1 => cases h
  case h_2 => cases h
  case h_3 zero => rw [zero]; rfl
  case h_4 finite => rw [finite]; rfl

end DocumentPath.Binary64
