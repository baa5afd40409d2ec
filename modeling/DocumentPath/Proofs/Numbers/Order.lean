import DocumentPath.Evaluation.Comparison
import DocumentPath.Proofs.Numbers.Whole

open Float.Model Float.Model.UnpackedFloat

namespace DocumentPath.Binary64

/-- The magnitude of a mantissa and a power of two. -/
def scale (m : Nat) (e : Int) : ℚ := m * (2 : ℚ) ^ e

section Magnitudes

variable {m m' : Nat} {e e' : Int}

theorem scale_pos (hm : 0 < m) (e : Int) : 0 < scale m e :=
  mul_pos (by exact_mod_cast hm) (zpow_pos two_pos e)

theorem scale_lt_scale (h : m < m') (e : Int) : scale m e < scale m' e :=
  mul_lt_mul_of_pos_right (by exact_mod_cast h) (zpow_pos two_pos e)

theorem scale_natCast (m k : Nat) : scale m k = (m <<< k : Nat) := by
  rw [scale, Nat.shiftLeft_eq, zpow_natCast]
  push_cast
  rfl

theorem scale_shiftLeft (m k : Nat) (e : Int) : scale (m <<< k) e = scale m (e + k) := by
  rw [scale, scale, Nat.shiftLeft_eq, zpow_add₀ two_ne_zero, zpow_natCast]
  push_cast
  ring

/-- A mantissa is stored with 53 bits, or with fewer at the least exponent. -/
structure IsStored (m : Nat) (e : Int) : Prop where
  room : m < 0x20000000000000
  low : 0x10000000000000 ≤ m ∨ e = -1074
  least : -1074 ≤ e

/-- The greater exponent makes the greater number, whatever the mantissas. -/
theorem IsStored.scale_lt (h : IsStored m e) (h' : IsStored m' e') (he : e < e') :
    scale m e < scale m' e' := by
  have bits : 0x10000000000000 ≤ m' := h'.low.resolve_right (by have := h.least; omega)
  obtain ⟨k, rfl⟩ : ∃ k : Nat, e' = e + (k + 1 : Nat) := ⟨(e' - e - 1).toNat, by omega⟩
  rw [← scale_shiftLeft]
  refine scale_lt_scale ?_ e
  calc m < 0x10000000000000 * 2 := h.room
    _ ≤ m' * 2 ^ (k + 1) := Nat.mul_le_mul bits (Nat.le_self_pow (by omega) 2)
    _ = m' <<< (k + 1) := (Nat.shiftLeft_eq _ _).symm

/-- Comparing the exponents first and the mantissas next compares the numbers. -/
theorem IsStored.compare_eq (h : IsStored m e) (h' : IsStored m' e') :
    (compare e e').then (compare m m') = compare (scale m e) (scale m' e') := by
  rcases lt_trichotomy e e' with he | rfl | he
  · rw [compare_lt_iff_lt.mpr he, compare_lt_iff_lt.mpr (h.scale_lt h' he)]
    rfl
  · rw [compare_eq_iff_eq.mpr rfl, Ordering.then]
    rcases lt_trichotomy m m' with hm | rfl | hm
    · rw [compare_lt_iff_lt.mpr hm, compare_lt_iff_lt.mpr (scale_lt_scale hm e)]
    · rw [compare_eq_iff_eq.mpr rfl, compare_eq_iff_eq.mpr rfl]
    · rw [compare_gt_iff_gt.mpr hm, compare_gt_iff_gt.mpr (scale_lt_scale hm e)]
  · rw [compare_gt_iff_gt.mpr he, compare_gt_iff_gt.mpr (h'.scale_lt h he)]
    rfl

end Magnitudes

theorem Dyadic.value_eq (d : Dyadic) :
    d.value = if d.negative then -scale d.mantissa d.exponent
      else scale d.mantissa d.exponent := by
  have magnitude : mkRat (d.mantissa <<< d.exponent.toNat : Nat) (1 <<< (-d.exponent).toNat) =
      scale d.mantissa d.exponent := by
    rw [Rat.mkRat_eq_div, Nat.shiftLeft_eq, Nat.one_shiftLeft, scale]
    rcases le_total 0 d.exponent with positive | negative
    · obtain ⟨k, hk⟩ := Int.eq_ofNat_of_zero_le positive
      simp [hk]
    · obtain ⟨k, hk⟩ := Int.exists_eq_neg_ofNat negative
      simp [hk, div_eq_mul_inv]
  rw [value, signed]
  split
  · rw [← magnitude, Rat.neg_mkRat]
  · exact magnitude

section Comparing

/-- The numbers that doubles stand for, with the infinities at both ends. -/
abbrev Extended : Type := WithBotTop ℚ

/-- The number that a double stands for; a NaN stands for none. -/
def extended? (x : Float) : Option Extended :=
  match x.toModel.unpack with
  | .notANumber => none
  | .infinity .positive => some ⊤
  | .infinity .negative => some ⊥
  | .zero _ | .finite .. => (value? x).map fun q => (q : Extended)

/-- How a double is made up, and the number that it stands for. -/
inductive Denotes : UnpackedFloat → Extended → Prop
  | top : Denotes (.infinity .positive) ⊤
  | bot : Denotes (.infinity .negative) ⊥
  | zero (sign : Sign) : Denotes (.zero sign) (0 : ℚ)
  | positive {m : Nat} {e : Int} (hm : 0 < m) : IsStored m e →
    Denotes (.finite .positive m e hm) (scale m e)
  | negative {m : Nat} {e : Int} (hm : 0 < m) : IsStored m e →
    Denotes (.finite .negative m e hm) (-scale m e : ℚ)

theorem value?_zero {x : Float} {sign : Sign} (h : x.toModel.unpack = .zero sign) :
    value? x = some 0 := by
  rw [value?, dyadic?, h]
  simp [Dyadic.value_eq, scale]

theorem value?_finite {x : Float} {sign : Sign} {m : Nat} {e : Int} {hm : 0 < m}
    (h : x.toModel.unpack = .finite sign m e hm) :
    value? x = some (if sign == .negative then -scale m e else scale m e) := by
  rw [value?, dyadic?, h]
  simp [Dyadic.value_eq]

theorem denotes_of_extended? {x : Float} {p : Extended} (h : extended? x = some p) :
    Denotes x.toModel.unpack p := by
  have stored {sign : Sign} {m : Nat} {e : Int} {hm : 0 < m}
      (h : x.toModel.unpack = .finite sign m e hm) : IsStored m e :=
    have bounds := bounds_of_unpack h
    ⟨bounds.1, bounds.2.1, bounds.2.2⟩
  rw [extended?] at h
  cases hu : x.toModel.unpack with
  | notANumber =>
    rw [hu] at h
    cases h
  | infinity sign =>
    rw [hu] at h
    cases sign with
    | positive =>
      cases h
      exact .top
    | negative =>
      cases h
      exact .bot
  | zero sign =>
    rw [hu, value?_zero hu] at h
    cases h
    exact .zero sign
  | finite sign m e hm =>
    rw [hu, value?_finite hu] at h
    cases sign with
    | positive =>
      cases h
      exact .positive hm (stored hu)
    | negative =>
      cases h
      exact .negative hm (stored hu)

theorem extended?_of_value? {x : Float} {q : ℚ} (h : value? x = some q) :
    extended? x = some (q : Extended) := by
  cases hu : x.toModel.unpack with
  | notANumber =>
    rw [value?, dyadic?, hu] at h
    cases h
  | infinity sign =>
    rw [value?, dyadic?, hu] at h
    cases h
  | zero sign =>
    rw [extended?, hu, h]
    rfl
  | finite sign m e hm =>
    rw [extended?, hu, h]
    rfl

theorem value?_of_extended? {x : Float} {q : ℚ} (h : extended? x = some (q : Extended)) :
    value? x = some q := by
  rw [extended?] at h
  cases hu : x.toModel.unpack with
  | notANumber =>
    rw [hu] at h
    cases h
  | infinity sign =>
    rw [hu] at h
    cases sign <;> cases h
  | zero sign =>
    rw [hu, value?_zero hu] at h
    cases h
    exact value?_zero hu
  | finite sign m e hm =>
    rw [hu, value?_finite hu] at h
    cases h
    exact value?_finite hu

theorem compare_coe (p q : ℚ) :
    compare (p : Extended) (q : Extended) = compare p q := by
  rcases lt_trichotomy p q with h | rfl | h
  · rw [compare_lt_iff_lt.mpr h, compare_lt_iff_lt.mpr (WithBotTop.coe_lt_coe.mpr h)]
  · rw [compare_eq_iff_eq.mpr rfl, compare_eq_iff_eq.mpr rfl]
  · rw [compare_gt_iff_gt.mpr h, compare_gt_iff_gt.mpr (WithBotTop.coe_lt_coe.mpr h)]

theorem compare_neg (p q : ℚ) : compare (-p) (-q) = (compare p q).swap := by
  rcases lt_trichotomy p q with h | rfl | h
  · rw [compare_lt_iff_lt.mpr h, compare_gt_iff_gt.mpr (neg_lt_neg h)]
    rfl
  · rw [compare_eq_iff_eq.mpr rfl, compare_eq_iff_eq.mpr rfl]
    rfl
  · rw [compare_gt_iff_gt.mpr h, compare_lt_iff_lt.mpr (neg_lt_neg h)]
    rfl

theorem compare_top (q : ℚ) :
    compare (⊤ : Extended) (q : Extended) = .gt ∧ compare (q : Extended) ⊤ = .lt :=
  have below : (q : Extended) < ⊤ := WithBot.coe_lt_coe.mpr (WithTop.coe_lt_top q)
  ⟨compare_gt_iff_gt.mpr below, compare_lt_iff_lt.mpr below⟩

theorem compare_bot (q : ℚ) :
    compare (⊥ : Extended) (q : Extended) = .lt ∧ compare (q : Extended) ⊥ = .gt :=
  have above : (⊥ : Extended) < (q : Extended) := WithBot.bot_lt_coe _
  ⟨compare_lt_iff_lt.mpr above, compare_gt_iff_gt.mpr above⟩

/-- Doubles are compared as the numbers that they stand for. -/
theorem Denotes.compare_eq {u v : UnpackedFloat} {p q : Extended} (hu : Denotes u p)
    (hv : Denotes v q) : u.compare v = some (compare p q) := by
  have sign {m : Nat} (hm : 0 < m) (e : Int) : -scale m e < 0 ∧ 0 < scale m e :=
    ⟨neg_lt_zero.mpr (scale_pos hm e), scale_pos hm e⟩
  cases hu with
  | top =>
    cases hv with
    | top => rw [compare_eq_iff_eq.mpr rfl]; rfl
    | bot => rw [compare_gt_iff_gt.mpr bot_lt_top]; rfl
    | _ => rw [(compare_top _).1]; rfl
  | bot =>
    cases hv with
    | top => rw [compare_lt_iff_lt.mpr bot_lt_top]; rfl
    | bot => rw [compare_eq_iff_eq.mpr rfl]; rfl
    | _ => rw [(compare_bot _).1]; rfl
  | zero =>
    cases hv with
    | top => rw [(compare_top 0).2]; rfl
    | bot => rw [(compare_bot 0).2]; rfl
    | zero => rw [compare_eq_iff_eq.mpr rfl]; rfl
    | positive hm => rw [compare_coe, compare_lt_iff_lt.mpr (sign hm _).2]; rfl
    | negative hm => rw [compare_coe, compare_gt_iff_gt.mpr (sign hm _).1]; rfl
  | positive hm stored =>
    cases hv with
    | top => rw [(compare_top _).2]; rfl
    | bot => rw [(compare_bot _).2]; rfl
    | zero => rw [compare_coe, compare_gt_iff_gt.mpr (sign hm _).2]; rfl
    | positive hm' stored' =>
      rw [compare_coe, ← stored.compare_eq stored']
      rfl
    | negative hm' =>
      rw [compare_coe, compare_gt_iff_gt.mpr ((sign hm' _).1.trans (sign hm _).2)]
      rfl
  | negative hm stored =>
    cases hv with
    | top => rw [(compare_top _).2]; rfl
    | bot => rw [(compare_bot _).2]; rfl
    | zero => rw [compare_coe, compare_lt_iff_lt.mpr (sign hm _).1]; rfl
    | positive hm' =>
      rw [compare_coe, compare_lt_iff_lt.mpr ((sign hm _).1.trans (sign hm' _).2)]
      rfl
    | negative hm' stored' =>
      rw [compare_coe, compare_neg, ← stored.compare_eq stored']
      rfl

theorem compare_of_extended? {x y : Float} {p q : Extended} (hx : extended? x = some p)
    (hy : extended? y = some q) : x.toModel.unpack.compare y.toModel.unpack = some (compare p q) :=
  (denotes_of_extended? hx).compare_eq (denotes_of_extended? hy)

theorem lt_iff_compare (x y : Float) :
    x < y ↔ x.toModel.unpack.compare y.toModel.unpack = some .lt := by
  have unfolded : (x < y) = (decide (x.toModel < y.toModel) = true) := rfl
  rw [unfolded, decide_eq_true_iff]
  exact beq_iff_eq

theorem beq_iff_compare (x y : Float) :
    (x == y) = true ↔ x.toModel.unpack.compare y.toModel.unpack = some .eq := by
  have unfolded : (x == y) = (x.toModel.unpack.compare y.toModel.unpack == some .eq) := rfl
  rw [unfolded, beq_iff_eq]

theorem beq_of_extended? {x y : Float} {p q : Extended} (hx : extended? x = some p)
    (hy : extended? y = some q) : (x == y) = (compare p q == .eq) := by
  rw [Bool.eq_iff_iff, beq_iff_compare, compare_of_extended? hx hy, Option.some_inj, beq_iff_eq]

/-- The order of two doubles is that of the numbers that they stand for. -/
theorem compareFloat?_of_extended? {x y : Float} {p q : Extended} (hx : extended? x = some p)
    (hy : extended? y = some q) : Value.compareFloat? x y = some (compare p q) := by
  have below := compare_of_extended? hx hy
  have above := compare_of_extended? hy hx
  rw [Value.compareFloat?]
  simp only [gt_iff_lt, lt_iff_compare, beq_iff_compare, below, above, Option.some_inj]
  rcases lt_trichotomy p q with h | rfl | h
  · rw [if_pos (compare_lt_iff_lt.mpr h), compare_lt_iff_lt.mpr h]
  · rw [compare_eq_iff_eq.mpr rfl, if_neg (by decide), if_pos rfl]
  · rw [compare_gt_iff_gt.mpr h, if_neg (by decide), if_neg (by decide),
      if_pos (compare_lt_iff_lt.mpr h)]

theorem eq_notANumber_of_extended? {x : Float} (h : extended? x = none) :
    x.toModel.unpack = .notANumber := by
  cases hu : x.toModel.unpack with
  | notANumber => rfl
  | infinity sign =>
    rw [extended?, hu] at h
    cases sign <;> cases h
  | zero sign =>
    rw [extended?, hu, value?_zero hu] at h
    cases h
  | finite sign m e hm =>
    rw [extended?, hu, value?_finite hu] at h
    cases h

theorem compare_of_nan {x y : Float} (h : extended? x = none ∨ extended? y = none) :
    x.toModel.unpack.compare y.toModel.unpack = none := by
  rcases h with h | h
  · rw [eq_notANumber_of_extended? h]
    rfl
  · rw [eq_notANumber_of_extended? h]
    cases x.toModel.unpack <;> rfl

/-- A NaN has no place in the order, and it is equal to nothing. -/
theorem compareFloat?_of_nan {x y : Float} (h : extended? x = none ∨ extended? y = none) :
    (x == y) = false ∧ Value.compareFloat? x y = none := by
  have here := compare_of_nan h
  have there := compare_of_nan h.symm
  constructor
  · rw [Bool.eq_false_iff, ne_eq, beq_iff_compare, here]
    exact Option.not_mem_none _
  · rw [Value.compareFloat?]
    simp only [gt_iff_lt, lt_iff_compare, beq_iff_compare, here, there, reduceCtorEq, if_false]

end Comparing

end DocumentPath.Binary64
