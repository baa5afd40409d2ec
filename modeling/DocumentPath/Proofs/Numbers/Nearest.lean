import DocumentPath.Proofs.Numbers.Finite
import DocumentPath.Proofs.Numbers.Order

open Float.Model Float.Model.UnpackedFloat

namespace DocumentPath.Binary64

/-- A shifted mantissa is rounded down where at most a half is lost, and up where at least a half
is. -/
theorem roundedMantissa_cases (n k : Nat) :
    ∃ r, ((⟨n, false, false⟩ : ExtendedMantissa) >>> (k + 1)).roundedMantissa = r ∧
      (r = n >>> (k + 1) ∧ 2 * (n % 1 <<< (k + 1)) ≤ 1 <<< (k + 1) ∨
        r = n >>> (k + 1) + 1 ∧ 1 <<< (k + 1) ≤ 2 * (n % 1 <<< (k + 1))) := by
  have low : n % 1 <<< k < 1 <<< k := Nat.mod_lt _ (by simp [Nat.one_shiftLeft])
  have unit : 1 <<< (k + 1) = 2 * 1 <<< k := Nat.shiftLeft_succ 1 k
  refine ⟨_, rfl, ?_⟩
  rw [shift_exact, mod_shift_succ, unit]
  rcases Nat.mod_two_eq_zero_or_one (n >>> k) with last | last
  · left
    rw [last]
    refine ⟨?_, by omega⟩
    cases n % 1 <<< k != 0 <;> rfl
  · rw [last]
    cases rest : n % 1 <<< k != 0 with
    | true =>
      right
      exact ⟨rfl, by omega⟩
    | false =>
      rw [bne_eq_false_iff_eq] at rest
      change n >>> (k + 1) + n >>> (k + 1) % 2 = _ ∧ _ ∨ n >>> (k + 1) + n >>> (k + 1) % 2 = _ ∧ _
      omega

/-- Whatever lies on the grid or below its point in front of `n` is no nearer to `n` than the
nearest point. -/
theorem nearest_on_grid {n unit r q : ℚ} {front : ℤ} (behind : front * unit ≤ n)
    (ahead : n ≤ (front + 1) * unit)
    (hr : r = front * unit ∧ 2 * (n - front * unit) ≤ unit ∨
      r = (front + 1) * unit ∧ unit ≤ 2 * (n - front * unit))
    (hunit : 0 < unit) (hq : q ≤ front * unit ∨ ∃ m : ℤ, q = m * unit) : |r - n| ≤ |q - n| := by
  have distance : |r - n| ≤ n - front * unit ∧ |r - n| ≤ (front + 1) * unit - n := by
    rcases hr with ⟨rfl, half⟩ | ⟨rfl, half⟩
    · rw [abs_of_nonpos (by linarith)]
      constructor <;> linarith
    · rw [abs_of_nonneg (by linarith)]
      constructor <;> linarith
  have low (h : q ≤ front * unit) : |r - n| ≤ |q - n| := by
    rw [abs_of_nonpos (by linarith : q - n ≤ 0)]
    linarith [distance.1]
  rcases hq with h | ⟨m, rfl⟩
  · exact low h
  · rcases lt_or_ge front m with above | below
    · have next : (front + 1) * unit ≤ m * unit :=
        mul_le_mul_of_nonneg_right (by exact_mod_cast above) hunit.le
      rw [abs_of_nonneg (by linarith : 0 ≤ m * unit - n)]
      linarith [distance.2]
    · exact low (mul_le_mul_of_nonneg_right (by exact_mod_cast below) hunit.le)

/-- A fraction with 53 bits, as doubles have. -/
def HasRoom (q : ℚ) : Prop := ∃ m e, m < 0x20000000000000 ∧ (q = scale m e ∨ q = -scale m e)

theorem hasRoom_of_value? {x : Float} {q : ℚ} (h : value? x = some q) : HasRoom q := by
  cases hu : x.toModel.unpack with
  | notANumber =>
    rw [value?, dyadic?, hu] at h
    cases h
  | infinity sign =>
    rw [value?, dyadic?, hu] at h
    cases h
  | zero sign =>
    rw [value?_zero hu] at h
    cases h
    exact ⟨0, 0, by decide, .inl (by simp [scale])⟩
  | finite sign m e hm =>
    rw [value?_finite hu] at h
    refine ⟨m, e, (bounds_of_unpack hu).1, ?_⟩
    cases sign with
    | positive =>
      cases h
      exact .inl rfl
    | negative =>
      cases h
      exact .inr rfl

theorem HasRoom.neg {q : ℚ} (h : HasRoom q) : HasRoom (-q) := by
  obtain ⟨m, e, room, rfl | rfl⟩ := h
  · exact ⟨m, e, room, .inr rfl⟩
  · exact ⟨m, e, room, .inl (neg_neg _)⟩

/-- From `2 ^ (k + 52)` on there is room for multiples of `2 ^ k` only. -/
theorem HasRoom.on_grid {q : ℚ} (h : HasRoom q) (k : Nat) :
    q ≤ 0x10000000000000 * 2 ^ k ∨ ∃ m : ℤ, q = m * 2 ^ k := by
  obtain ⟨m, e, room, rfl | rfl⟩ := h
  · rcases lt_or_ge e k with below | above
    · left
      have mantissa : (m : ℚ) ≤ 0x20000000000000 := by exact_mod_cast room.le
      have exponent : (2 : ℚ) ^ e ≤ 2 ^ ((k : ℤ) - 1) := zpow_le_zpow_right₀ one_le_two (by omega)
      calc scale m e ≤ 0x20000000000000 * 2 ^ ((k : ℤ) - 1) :=
            mul_le_mul mantissa exponent (zpow_pos two_pos e).le (by norm_num)
        _ = 0x10000000000000 * 2 ^ k := by
            rw [zpow_sub_one₀ two_ne_zero, zpow_natCast]
            ring
    · right
      obtain ⟨j, rfl⟩ : ∃ j : Nat, e = k + j := ⟨(e - k).toNat, by omega⟩
      refine ⟨(m <<< j : Nat), ?_⟩
      rw [← scale_shiftLeft, scale, zpow_natCast]
      rfl
  · left
    have : 0 ≤ scale m e := mul_nonneg (Nat.cast_nonneg m) (zpow_pos two_pos e).le
    have : (0 : ℚ) ≤ 0x10000000000000 * 2 ^ k := by positivity
    linarith

/-- A whole number that is rounded at its last bit with room becomes the nearest one with room. -/
theorem roundedMantissa_nearest {n k : Nat} (long : 2 ^ (k + 53) ≤ n) {q : ℚ} (hq : HasRoom q) :
    |(((⟨n, false, false⟩ : ExtendedMantissa) >>> (k + 1)).roundedMantissa : ℚ) * 2 ^ (k + 1) - n| ≤
      |q - n| := by
  obtain ⟨r, hr, cases⟩ := roundedMantissa_cases n k
  have parts := Nat.div_add_mod n (2 ^ (k + 1))
  have lost := Nat.mod_lt n (Nat.two_pow_pos (k + 1))
  have bits : 0x10000000000000 ≤ n / 2 ^ (k + 1) := by
    rw [Nat.le_div_iff_mul_le (Nat.two_pow_pos _)]
    calc 0x10000000000000 * 2 ^ (k + 1) = 2 ^ (k + 53) := by
          rw [show k + 53 = 52 + (k + 1) by omega, Nat.pow_add 2 52]
      _ ≤ n := long
  rw [hr]
  rw [Nat.one_shiftLeft, Nat.shiftRight_eq_div_pow] at cases
  generalize n / 2 ^ (k + 1) = front at parts bits cases
  generalize n % 2 ^ (k + 1) = rest at parts lost cases
  have whole : (n : ℚ) = front * 2 ^ (k + 1) + rest := by
    rw [← parts]
    push_cast
    ring
  have unit : (0 : ℚ) < 2 ^ (k + 1) := by positivity
  have less : (rest : ℚ) ≤ 2 ^ (k + 1) := by exact_mod_cast lost.le
  have more : (0 : ℚ) ≤ rest := Nat.cast_nonneg rest
  refine @nearest_on_grid n (2 ^ (k + 1)) _ q front ?_ ?_ ?_ unit ?_
  · push_cast
    linarith
  · push_cast
    linarith
  · rcases cases with ⟨rfl, half⟩ | ⟨rfl, half⟩
    · left
      have half : (2 : ℚ) * rest ≤ 2 ^ (k + 1) := by exact_mod_cast half
      push_cast
      exact ⟨rfl, by linarith⟩
    · right
      have half : (2 : ℚ) ^ (k + 1) ≤ 2 * rest := by exact_mod_cast half
      push_cast
      exact ⟨rfl, by linarith⟩
  · refine (hq.on_grid (k + 1)).imp_left fun below => below.trans ?_
    exact mul_le_mul_of_nonneg_right (by exact_mod_cast bits) unit.le

/-- A whole number is stored as the nearest one that has room. -/
theorem unpack_round_nearest {n : Nat} (hn : 0 < n) (room : n < 2 ^ 64) (sign : Sign) :
    ∃ m e, ∃ hm : 0 < m, UnpackedFloat.unpack .binary64 (UnpackedFloat.pack .binary64
        (UnpackedFloat.round .binary64 sign n 0)) = .finite sign m e hm ∧
      ∀ q, HasRoom q → |scale m e - n| ≤ |q - n| := by
  have bits := log2_lt_of_lt (by decide) room
  by_cases short : n.log2 ≤ 52
  · obtain ⟨hm, round, low, high⟩ := round_short sign hn short
    have same : scale (n <<< (52 - n.log2)) (n.log2 - 52) = n := by
      rw [scale_shiftLeft, show (n.log2 : ℤ) - 52 + (52 - n.log2 : Nat) = (0 : Nat) by omega,
        scale_natCast, Nat.shiftLeft_zero]
    refine ⟨_, _, hm, by rw [round, unpack_pack hm low high (by omega) (by omega)], fun q _ => ?_⟩
    rw [same, sub_self, abs_zero]
    exact abs_nonneg _
  · obtain ⟨k, hk⟩ : ∃ k, n.log2 = k + 53 := ⟨n.log2 - 53, by omega⟩
    obtain ⟨m, e, hm, round, low, high, elow, ehigh, value⟩ :=
      round_long sign (Nat.lt_of_not_le short)
    refine ⟨m, e, hm, by rw [round, unpack_pack hm low high (by omega) (by omega)], fun q hq => ?_⟩
    have long : 2 ^ (k + 53) ≤ n := hk ▸ Nat.log2_self_le (by omega)
    rw [show n.log2 - 52 = k + 1 by omega] at value
    obtain ⟨j, rfl⟩ := Int.eq_ofNat_of_zero_le (show 0 ≤ e by omega)
    have natural : m <<< j = _ <<< (k + 1) := value
    have scaled := roundedMantissa_nearest long hq
    rw [scale_natCast, natural, Nat.shiftLeft_eq]
    push_cast
    exact scaled

/-- The number that an integer has as a double is the nearest of all that doubles stand for. -/
theorem exists_nearest (n : Int64) :
    ∃ r, value? (ofWord n) = some r ∧ ∀ q, HasRoom q → |r - n.toInt| ≤ |q - n.toInt| := by
  have low := n.le_toInt
  have high := n.toInt_lt
  have stored : (ofWord n).toModel.unpack = UnpackedFloat.unpack .binary64
      (UnpackedFloat.pack .binary64 (UnpackedFloat.normalize .binary64 n.toInt 0 .positive)) := rfl
  rw [UnpackedFloat.normalize] at stored
  rcases lt_trichotomy n.toInt 0 with negative | zero | positive
  · rw [Int.compare_eq_lt.mpr negative] at stored
    obtain ⟨m, e, hm, unpacked, nearest⟩ :=
      unpack_round_nearest (n := (-n.toInt).toNat) (by omega) (by omega) .negative
    have size : (((-n.toInt).toNat : ℕ) : ℚ) = -n.toInt := by
      have natural : ((-n.toInt).toNat : ℤ) = -n.toInt := by omega
      exact_mod_cast natural
    refine ⟨_, value?_finite (stored.trans unpacked), fun q hq => ?_⟩
    have mirrored := nearest (-q) hq.neg
    rw [size] at mirrored
    have flip (p : ℚ) : |-p - n.toInt| = |p - -n.toInt| := by
      rw [← abs_neg]
      ring_nf
    change |-scale m e - n.toInt| ≤ _
    rw [flip]
    have flipped := flip (-q)
    rw [neg_neg] at flipped
    rwa [flipped]
  · refine ⟨0, ?_, fun q _ => ?_⟩
    · rw [show n = 0 from Int64.toInt_inj.mp zero]
      with_unfolding_all rfl
    · rw [zero]
      simp
  · rw [Int.compare_eq_gt.mpr positive] at stored
    obtain ⟨m, e, hm, unpacked, nearest⟩ :=
      unpack_round_nearest (n := n.toInt.toNat) (by omega) (by omega) .positive
    have size : ((n.toInt.toNat : ℕ) : ℚ) = n.toInt := by
      have natural : (n.toInt.toNat : ℤ) = n.toInt := by omega
      exact_mod_cast natural
    refine ⟨_, value?_finite (stored.trans unpacked), fun q hq => ?_⟩
    have here := nearest q hq
    rwa [size] at here

/-- The number that an integer has as a double. -/
def nearest (n : Int64) : ℚ := (value? (ofWord n)).getD 0

theorem value?_ofWord (n : Int64) : value? (ofWord n) = some (nearest n) := by
  obtain ⟨r, hr, _⟩ := exists_nearest n
  rw [nearest, hr]
  rfl

section Nearest

variable {n : Int64} {q : ℚ}

theorem abs_nearest_sub_le (n : Int64) (hq : HasRoom q) :
    |nearest n - n.toInt| ≤ |q - n.toInt| := by
  obtain ⟨r, hr, least⟩ := exists_nearest n
  obtain rfl : nearest n = r := Option.some_inj.mp ((value?_ofWord n).symm.trans hr)
  exact least q hq

theorem hasRoom_nearest (n : Int64) : HasRoom (nearest n) := hasRoom_of_value? (value?_ofWord n)

/-- An integer with room is not rounded. -/
theorem nearest_eq_self (h : HasRoom n.toInt) : nearest n = n.toInt := by
  have least := abs_nearest_sub_le n h
  rw [sub_self, abs_zero] at least
  exact sub_eq_zero.mp (abs_nonpos_iff.mp least)

theorem hasRoom_of_natAbs_le (h : n.toInt.natAbs ≤ 0x20000000000000) : HasRoom n.toInt := by
  have sign : (n.toInt : ℚ) = n.toInt.natAbs ∨ (n.toInt : ℚ) = -n.toInt.natAbs := by
    refine (Int.natAbs_eq n.toInt).imp (fun h => ?_) fun h => ?_
    · exact (congrArg (Int.cast : ℤ → ℚ) h).trans (Int.cast_natCast _)
    · refine (congrArg (Int.cast : ℤ → ℚ) h).trans ?_
      rw [Int.cast_neg, Int.cast_natCast]
  by_cases bits : n.toInt.natAbs < 0x20000000000000
  · exact ⟨n.toInt.natAbs, 0, bits, by simpa [scale] using sign⟩
  · obtain largest : n.toInt.natAbs = 0x20000000000000 := by omega
    refine ⟨1, 53, by decide, ?_⟩
    rw [largest] at sign
    have power : scale 1 53 = 0x20000000000000 := by norm_num [scale]
    rw [power]
    exact_mod_cast sign

/-- No number with room lies between an integer and the nearest one. -/
theorem nearest_le_of_lt (hq : HasRoom q) (h : n.toInt < q) : nearest n ≤ q := by
  by_contra above
  rw [not_le] at above
  have least := abs_nearest_sub_le n hq
  rw [abs_of_pos (by linarith), abs_of_pos (by linarith)] at least
  linarith

theorem le_nearest_of_lt (hq : HasRoom q) (h : q < n.toInt) : q ≤ nearest n := by
  by_contra below
  rw [not_le] at below
  have least := abs_nearest_sub_le n hq
  rw [abs_of_neg (by linarith), abs_of_neg (by linarith)] at least
  linarith

theorem nearest_mono {m n : Int64} (h : m.toInt ≤ n.toInt) : nearest m ≤ nearest n := by
  rcases h.eq_or_lt with same | less
  · rw [Int64.toInt_inj.mp same]
  have less : (m.toInt : ℚ) < n.toInt := by exact_mod_cast less
  by_contra crossed
  rw [not_le] at crossed
  -- each of the two would be nearer to the double of the other
  have least := abs_nearest_sub_le m (hasRoom_nearest n)
  have least' := abs_nearest_sub_le n (hasRoom_nearest m)
  have squares := sq_le_sq.mpr least
  have squares' := sq_le_sq.mpr least'
  nlinarith

/-- Against a double, an integer is compared as what it is, unless it is rounded to that double. -/
theorem compare_nearest (n : Int64) (hq : HasRoom q) :
    compare (nearest n) q = if nearest n = q then .eq else compare (n.toInt : ℚ) q := by
  split
  case isTrue same => rw [same, compare_eq_iff_eq.mpr rfl]
  case isFalse apart =>
    rcases lt_trichotomy (n.toInt : ℚ) q with below | same | above
    · have := (nearest_le_of_lt hq below).lt_of_ne apart
      rw [compare_lt_iff_lt.mpr below, compare_lt_iff_lt.mpr this]
    · exact absurd ((nearest_eq_self (same ▸ hq)).trans same) apart
    · have := (le_nearest_of_lt hq above).lt_of_ne (Ne.symm apart)
      rw [compare_gt_iff_gt.mpr above, compare_gt_iff_gt.mpr this]

end Nearest

end DocumentPath.Binary64
