import DocumentPath.Proofs.Numbers.Rounding

open Float.Model Float.Model.UnpackedFloat

namespace DocumentPath.Binary64

/-- The exact value of a double, as a fraction. -/
def Dyadic.value (d : Dyadic) : Rat :=
  mkRat (d.signed (d.mantissa <<< d.exponent.toNat)) (1 <<< (-d.exponent).toNat)

/-- The number that a double stands for; an infinity or a NaN stands for none. -/
def value? (x : Float) : Option Rat := (dyadic? x).map Dyadic.value

theorem Dyadic.natAbs_signed (d : Dyadic) (k : Nat) : (d.signed k).natAbs = k := by
  rw [signed]
  split <;> simp

theorem Dyadic.eq_mul_of_signed {d : Dyadic} {k unit : Nat} {n : Int} (hu : 0 < unit)
    (h : d.signed k = n * unit) : k = n.natAbs * unit ∧ d.signed n.natAbs = n := by
  have size := congrArg Int.natAbs h
  rw [natAbs_signed, Int.natAbs_mul, Int.natAbs_natCast] at size
  refine ⟨size, ?_⟩
  rw [signed] at h ⊢
  split at h
  case isTrue negative =>
    have : n ≤ 0 := by nlinarith
    rw [if_pos negative]
    omega
  case isFalse positive =>
    have : 0 ≤ n := by nlinarith
    rw [if_neg positive]
    omega

/-- A whole number has the digits of its mantissa, apart from zeros behind the binary point, and the
sign. -/
theorem shift_of_value {d : Dyadic} {n : Int} (h : d.value = n) :
    d.mantissa <<< d.exponent.toNat = n.natAbs <<< (-d.exponent).toNat ∧
      d.signed n.natAbs = n := by
  have positive : 0 < 1 <<< (-d.exponent).toNat := by
    rw [Nat.one_shiftLeft]
    exact Nat.two_pow_pos _
  rw [Nat.shiftLeft_eq n.natAbs, ← Nat.one_shiftLeft]
  rw [Dyadic.value] at h
  generalize 1 <<< (-d.exponent).toNat = unit at positive h ⊢
  rw [Rat.mkRat_eq_div, div_eq_iff (by exact_mod_cast positive.ne')] at h
  exact Dyadic.eq_mul_of_signed positive (by exact_mod_cast h)

/-- The sign of a number other than zero is its own. -/
theorem Dyadic.negative_of_signed {d : Dyadic} {n : Int} (h : d.signed n.natAbs = n) (hn : n ≠ 0) :
    d.negative = decide (n < 0) := by
  rw [Dyadic.signed] at h
  split at h
  case isTrue negative =>
    rw [negative, eq_comm, decide_eq_true_eq]
    omega
  case isFalse positive =>
    rw [Bool.eq_false_iff.mpr positive, eq_comm, decide_eq_false_iff_not]
    omega

theorem eq_zero_iff_of_shift {m n j k : Nat} (same : m <<< j = n <<< k) : m = 0 ↔ n = 0 := by
  rw [← Nat.shiftLeft_eq_zero_iff (n := j), same, Nat.shiftLeft_eq_zero_iff]

theorem log2_shiftLeft {n : Nat} (hn : n ≠ 0) (k : Nat) : (n <<< k).log2 = n.log2 + k := by
  induction k with
  | zero => rfl
  | succ k ih =>
    rw [Nat.shiftLeft_succ, Nat.log2_two_mul (mt Nat.shiftLeft_eq_zero_iff.mp hn), ih,
      Nat.add_assoc]

/-- A number of 53 bits or fewer zeros than places behind is rounded to itself. -/
theorem round_exact (sign : Sign) {n m : Nat} {e : Int} (low : 0x10000000000000 ≤ m)
    (high : m < 0x20000000000000) (same : m <<< e.toNat = n <<< (-e).toNat) :
    ∃ hm, UnpackedFloat.round .binary64 sign n 0 = .finite sign m e hm := by
  have bits : m.log2 = 52 := (Nat.log2_eq_iff (by omega)).mpr ⟨low, high⟩
  have hn : n ≠ 0 := (eq_zero_iff_of_shift same).not.mp (by omega)
  have exponent : e = n.log2 - 52 := by
    have logs := congrArg Nat.log2 same
    rw [log2_shiftLeft (by omega), log2_shiftLeft hn] at logs
    omega
  by_cases short : n.log2 ≤ 52
  · obtain ⟨hm, round, _, _⟩ := round_short sign (Nat.pos_of_ne_zero hn) short
    have mantissa : m = n <<< (52 - n.log2) := by
      rw [show e.toNat = 0 by omega, show (-e).toNat = 52 - n.log2 by omega] at same
      exact same
    subst mantissa exponent
    exact ⟨hm, round⟩
  · obtain ⟨m', e', hm, round, low', high', elow, ehigh, value⟩ :=
      round_long sign (show 52 < n.log2 by omega)
    obtain ⟨k, hk⟩ : ∃ k, n.log2 = k + 52 := ⟨n.log2 - 52, by omega⟩
    have places : n.log2 - 52 = k := by omega
    rw [show e.toNat = k by omega, show (-e).toNat = 0 by omega, Nat.shiftLeft_zero] at same
    subst same
    rw [places, shift_shiftLeft] at value
    have value : m' <<< e'.toNat = m <<< k := value
    have carry : e' = e := by
      have bits' : m'.log2 = 52 := (Nat.log2_eq_iff (by omega)).mpr ⟨low', high'⟩
      have logs := congrArg Nat.log2 value
      rw [log2_shiftLeft (by omega), log2_shiftLeft (by omega)] at logs
      omega
    have mantissa : m' = m := by
      rw [carry, show e.toNat = k by omega, Nat.shiftLeft_eq, Nat.shiftLeft_eq] at value
      exact Nat.mul_right_cancel (Nat.two_pow_pos k) value
    subst mantissa carry
    exact ⟨hm, round⟩

theorem dyadic?_of_value? {x : Float} {n : Int} (h : value? x = some (n : ℚ)) :
    ∃ d, dyadic? x = some d ∧
      d.mantissa <<< d.exponent.toNat = n.natAbs <<< (-d.exponent).toNat ∧
      d.signed n.natAbs = n := by
  obtain ⟨d, hd, value⟩ := Option.map_eq_some_iff.mp h
  exact ⟨d, hd, shift_of_value value⟩

/-- A double that stands for a whole number other than zero is the one that is nearest to it. -/
theorem eq_ofInt_of_value? {x : Float} {n : Int} (h : value? x = some (n : ℚ)) (hn : n ≠ 0) :
    x = ofInt n := by
  obtain ⟨d, hd, same, signed⟩ := dyadic?_of_value? h
  rw [dyadic?] at hd
  split at hd
  case h_1 => cases hd
  case h_2 => cases hd
  case h_3 =>
    cases hd
    exact absurd (Int.natAbs_eq_zero.mp ((eq_zero_iff_of_shift same).mp rfl)) hn
  case h_4 sign m e hm unpacked =>
    cases hd
    obtain ⟨high, low, -⟩ := bounds_of_unpack unpacked
    have same : m <<< e.toNat = n.natAbs <<< (-e).toNat := same
    have low : 0x10000000000000 ≤ m := by
      refine low.resolve_right fun least => ?_
      subst least
      have logs := congrArg Nat.log2 same
      rw [log2_shiftLeft (by omega), log2_shiftLeft (by omega)] at logs
      have : m.log2 < 53 := (Nat.log2_lt (by omega)).mpr high
      omega
    obtain ⟨_, round⟩ := round_exact sign low high same
    have normal : UnpackedFloat.normalize .binary64 n 0 .positive = x.toModel.unpack := by
      rw [unpacked, ← round, UnpackedFloat.normalize]
      cases sign with
      | positive =>
        have positive : (n.natAbs : Int) = n := signed
        rw [Int.compare_eq_gt.mpr (show 0 < n by omega), show n.toNat = n.natAbs by omega]
      | negative =>
        have negative : -(n.natAbs : Int) = n := signed
        rw [Int.compare_eq_lt.mpr (show n < 0 by omega), show (-n).toNat = n.natAbs by omega]
    rw [ofInt, ofScaled, normal]
    exact (Float.ofBits_toBits x).symm

theorem zero_of_value? {x : Float} (h : value? x = some ((0 : Int) : ℚ)) : x = 0.0 ∨ x = -0.0 := by
  obtain ⟨d, hd, same, signed⟩ := dyadic?_of_value? h
  rw [dyadic?] at hd
  split at hd
  case h_1 => cases hd
  case h_2 => cases hd
  case h_3 sign unpacked =>
    have packed : x = .ofModel (.pack (.zero sign)) := by
      rw [← unpacked]
      exact (Float.ofBits_toBits x).symm
    cases sign with
    | positive => exact .inl packed
    | negative => exact .inr packed
  case h_4 sign m e hm unpacked =>
    cases hd
    exact absurd ((eq_zero_iff_of_shift same).mpr rfl) hm.ne'

end DocumentPath.Binary64
