import DocumentPath.Proofs.Evaluation.Integers
import DocumentPath.Proofs.Numbers.Decimals

namespace DocumentPath

namespace Arithmetic

/-- Where a whole decimal result is the result that integers have. A quotient has to come out even,
and the remainder of the least integer by `-1` is left to doubles. -/
def Agrees (op : Operator) (a b : Int) : Prop :=
  match op with
  | .add | .sub | .mul => True
  | .div => b = 0 ∨ b ∣ a
  | .mod => ¬(a = -0x8000000000000000 ∧ b = -1)
  | _ => False

open Decimal (Scaled)

theorem ofScaled?_ofInt (n : Int) :
    ofScaled? (.ofInt n 0) = (Word.ofInt? n).map Value.integer := by
  rw [ofScaled?, Scaled.whole?_ofInt]

/-- What has no room in 96 bits has none in 64. -/
theorem ofScaled?_fit? (n : Int) :
    (Scaled.fit? n 0).bind ofScaled? = (Word.ofInt? n).map Value.integer := by
  have limit : Scaled.limit = 0x1000000000000000000000000 := rfl
  rw [Scaled.fit?_whole]
  split
  · exact ofScaled?_ofInt n
  · rw [Word.ofInt?_eq_none_iff.mpr (by omega)]
    rfl

theorem natAbs_lt_limit (n : Int64) : n.toInt.natAbs < Scaled.limit := by
  have limit : Scaled.limit = 0x1000000000000000000000000 := rfl
  have := n.le_toInt
  have := n.toInt_lt
  omega

/-- Decimals compute with integers as integers do. -/
theorem scaled?_ofWord {op : Operator} {a b : Int64} (h : Agrees op a.toInt b.toInt) :
    (scaled? op (.ofWord a) (.ofWord b)).bind ofScaled? =
      (integer? op a.toInt b.toInt).map Value.integer := by
  cases op <;> try exact h.elim
  case add =>
    rw [scaled?, Scaled.ofWord, Scaled.ofWord, Scaled.add?_ofInt]
    exact ofScaled?_fit? _
  case sub =>
    rw [scaled?, Scaled.ofWord, Scaled.ofWord, Scaled.sub?_ofInt]
    exact ofScaled?_fit? _
  case mul =>
    rw [scaled?, Scaled.ofWord, Scaled.ofWord, Scaled.mul?_ofInt]
    exact ofScaled?_fit? _
  case div =>
    rw [scaled?, Scaled.ofWord, Scaled.ofWord, integer?]
    by_cases hb : b.toInt = 0
    · rw [hb, if_neg (by simp)]
      rfl
    · obtain ⟨q, hq⟩ := h.resolve_left hb
      have room : q.natAbs < Scaled.limit := by
        have := natAbs_lt_limit a
        rw [hq, Int.natAbs_mul] at this
        exact (Nat.le_mul_of_pos_left _ (Int.natAbs_pos.mpr hb)).trans_lt this
      rw [hq, Scaled.div?_ofInt hb room, Option.bind_some, ofScaled?_ofInt,
        if_pos ⟨hb, Int.mul_tmod_right _ _⟩, Int.mul_tdiv_cancel_left _ hb]
  case mod =>
    rw [scaled?, Scaled.ofWord, Scaled.ofWord, integer?]
    by_cases hb : b.toInt = 0
    · rw [hb, if_pos (.inl rfl)]
      rfl
    · rw [Scaled.rem?_ofInt hb, Option.bind_some, ofScaled?_ofInt, if_neg (not_or.mpr ⟨hb, h⟩)]

theorem mixed_eq {op : Operator} {a b : Int64} (h : Agrees op a.toInt b.toInt) (x y : Float) :
    mixed op x y (some (.ofWord a)) (some (.ofWord b)) =
      ((integer? op a.toInt b.toInt).map Value.integer).getD (floats op x y) := by
  rw [← scaled?_ofWord h]
  rfl

theorem integers_eq (op : Operator) (a b : Int64) :
    integers op a b =
      ((integer? op a.toInt b.toInt).map Value.integer).getD
        (floats op (Binary64.ofWord a) (Binary64.ofWord b)) := by
  rw [integers]
  split <;> rename_i h <;> rw [h] <;> rfl

theorem eq_zero_of_toInt {n : Int64} (h : n.toInt = 0) : n = 0 := Int64.toInt_inj.mp h

/-- The sign of a zero on the right does not matter where doubles are needed. -/
theorem floats_zero_right {op : Operator} {a : Int64} (h : Agrees op a.toInt 0)
    (none : integer? op a.toInt 0 = none) (x : Float) : floats op x (-0.0) = floats op x 0.0 := by
  have division : op = .div ∨ op = .mod := by
    have := a.le_toInt
    have := a.toInt_lt
    cases op <;> try exact h.elim
    case div => exact .inl rfl
    case mod => exact .inr rfl
    all_goals
      simp only [integer?, Word.ofInt?_eq_none_iff] at none
      omega
  rw [floats_zero division zero_beq.1, floats_zero division zero_beq.2]

/-- The sign of a zero on the left does not matter where doubles are needed. -/
theorem floats_zero_left {op : Operator} {b : Int64} (h : Agrees op 0 b.toInt)
    (none : integer? op 0 b.toInt = none) :
    floats op (-0.0) (Binary64.ofWord b) = floats op 0.0 (Binary64.ofWord b) := by
  have := b.le_toInt
  have := b.toInt_lt
  have by_zero (division : op = .div ∨ op = .mod) (hb : b.toInt = 0) :
      floats op (-0.0) (Binary64.ofWord b) = floats op 0.0 (Binary64.ofWord b) := by
    rw [eq_zero_of_toInt hb]
    exact (floats_zero division zero_beq.2 _).trans (floats_zero division zero_beq.2 _).symm
  cases op <;> try exact h.elim
  case sub =>
    have least : b.toInt = Int64.minValue.toInt := by
      simp only [integer?, Word.ofInt?_eq_none_iff] at none
      change b.toInt = -0x8000000000000000
      omega
    rw [Int64.toInt_inj.mp least]
    with_unfolding_all rfl
  case div =>
    refine by_zero (.inl rfl) (by_contra fun hb => ?_)
    rw [integer?, if_pos ⟨hb, Int.zero_tmod _⟩, Int.zero_tdiv] at none
    cases none
  case mod =>
    refine by_zero (.inr rfl) (by_contra fun hb => ?_)
    rw [integer?, if_neg (not_or.mpr ⟨hb, h⟩), Int.zero_tmod] at none
    cases none
  all_goals
    simp only [integer?, Word.ofInt?_eq_none_iff] at none
    omega

/-- A double that stands for a 64-bit integer is the nearest one to it or the negative zero. -/
theorem eq_ofWord_or {x : Float} {k : Int64} (hx : Binary64.value? x = some (k.toInt : ℚ)) :
    x = Binary64.ofWord k ∨ k.toInt = 0 ∧ x = -0.0 := by
  by_cases hk : k.toInt = 0
  · rw [hk] at hx
    rw [eq_zero_of_toInt hk]
    exact (Binary64.zero_of_value? hx).imp id fun negative => ⟨rfl, negative⟩
  · exact .inl (Binary64.eq_ofInt_of_value? hx hk)

theorem ofFloat?_whole {x : Float} {k : Int64} (hx : Binary64.value? x = some (k.toInt : ℚ)) :
    Scaled.ofFloat? x = some (.ofWord k) :=
  Scaled.ofFloat?_of_value? hx (natAbs_lt_limit k)

theorem getD_map_congr {result : Option Int64} {v w : Value} (h : result = none → v = w) :
    (result.map Value.integer).getD v = (result.map Value.integer).getD w := by
  cases result with
  | none => exact h rfl
  | some n => rfl

theorem apply_integer_float {op : Operator} {a k : Int64} {x : Float}
    (hx : Binary64.value? x = some (k.toInt : ℚ)) (h : Agrees op a.toInt k.toInt) :
    apply op (.integer a) (.float x) = apply op (.integer a) (.integer k) := by
  rw [apply, apply, ofFloat?_whole hx, mixed_eq h, integers_eq]
  refine getD_map_congr fun none => ?_
  rcases eq_ofWord_or hx with rfl | ⟨hk, rfl⟩
  · rfl
  · rw [hk] at h none
    rw [floats_zero_right h none, eq_zero_of_toInt hk]
    rfl

theorem apply_float_integer {op : Operator} {a k : Int64} {x : Float}
    (hx : Binary64.value? x = some (k.toInt : ℚ)) (h : Agrees op k.toInt a.toInt) :
    apply op (.float x) (.integer a) = apply op (.integer k) (.integer a) := by
  rw [apply, apply, ofFloat?_whole hx, mixed_eq h, integers_eq]
  refine getD_map_congr fun none => ?_
  rcases eq_ofWord_or hx with rfl | ⟨hk, rfl⟩
  · rfl
  · rw [hk] at h none
    rw [floats_zero_left h none, eq_zero_of_toInt hk]
    rfl

end Arithmetic

namespace Operator

/-- A whole double next to an integer acts like the integer that it stands for. -/
theorem apply_whole (op : Operator) (a k : Int64) (x : Float)
    (hx : Binary64.value? x = some (k.toInt : ℚ)) :
    (Arithmetic.Agrees op a.toInt k.toInt →
        op.apply [.integer a, .float x] = op.apply [.integer a, .integer k]) ∧
      (Arithmetic.Agrees op k.toInt a.toInt →
        op.apply [.float x, .integer a] = op.apply [.integer k, .integer a]) := by
  have binary {a b : Value} (h : ∃ m n, Arithmetic.Agrees op m n) :
      op.apply [a, b] = Arithmetic.apply op a b := by
    obtain ⟨m, n, h⟩ := h
    cases op <;> first | exact h.elim | rfl
  constructor
  · intro h
    rw [binary ⟨_, _, h⟩, binary ⟨_, _, h⟩]
    exact Arithmetic.apply_integer_float hx h
  · intro h
    rw [binary ⟨_, _, h⟩, binary ⟨_, _, h⟩]
    exact Arithmetic.apply_float_integer hx h

theorem apply_whole_three :
    Binary64.value? 3.0 = some ((3 : Int64).toInt : ℚ) ∧
      Arithmetic.Agrees .mod (7 : Int64).toInt (3 : Int64).toInt ∧
      Arithmetic.Agrees .mod (3 : Int64).toInt (7 : Int64).toInt ∧
      mod.apply [.integer 7, .float 3.0] = .integer 1 ∧
      mod.apply [.float 3.0, .integer 7] = .integer 3 := by
  have value : Binary64.value? 3.0 = some ((3 : Int64).toInt : ℚ) := by with_unfolding_all rfl
  have right : Arithmetic.Agrees .mod (7 : Int64).toInt (3 : Int64).toInt :=
    show ¬((7 : Int64).toInt = _ ∧ _) by decide
  have left : Arithmetic.Agrees .mod (3 : Int64).toInt (7 : Int64).toInt :=
    show ¬((3 : Int64).toInt = _ ∧ _) by decide
  have whole := apply_whole .mod 7 3 3.0 value
  exact ⟨value, right, left, (whole.1 right).trans rfl, (whole.2 left).trans rfl⟩

end Operator

end DocumentPath
