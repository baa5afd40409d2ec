import DocumentPath.Evaluation.Application
import DocumentPath.Proofs.Numbers.Nearest

namespace DocumentPath

namespace Value

open Binary64

/-- The comparisons of two operands answer as `order` says. -/
structure ComparesAs (a b : Value) (order : Ordering) : Prop where
  strictEq : Operator.strictEq.apply [a, b] = .boolean (order == .eq)
  strictNe : Operator.strictNe.apply [a, b] = .boolean (order != .eq)
  lt : Operator.lt.apply [a, b] = .boolean order.isLT
  le : Operator.le.apply [a, b] = .boolean order.isLE
  gt : Operator.gt.apply [a, b] = .boolean order.isGT
  ge : Operator.ge.apply [a, b] = .boolean order.isGE

/-- The number that a number becomes as a double. -/
def double? (v : Value) : Option Extended := v.toFloat?.bind extended?

variable {a b c : Value} {p q : Extended}

theorem compare_toInt (m n : Int64) : compare m n = compare m.toInt n.toInt := by
  change compareOfLessAndEq m n = _
  rcases lt_trichotomy m.toInt n.toInt with h | h | h
  · rw [compare_lt_iff_lt.mpr h, compareOfLessAndEq, if_pos (Int64.lt_iff_toInt_lt.mpr h)]
  · rw [compare_eq_iff_eq.mpr h, Int64.toInt_inj.mp h, compareOfLessAndEq,
      if_neg (fun h => (Int64.lt_iff_toInt_lt.mp h).false), if_pos rfl]
  · rw [compare_gt_iff_gt.mpr h, compareOfLessAndEq,
      if_neg (fun h' => (Int64.lt_iff_toInt_lt.mp h').asymm h),
      if_neg (fun h' => h.ne (congrArg Int64.toInt h'.symm))]

theorem double?_integer (n : Int64) : double? (.integer n) = some (nearest n : Extended) :=
  extended?_of_value? (value?_ofWord n)

theorem double?_float {x : Float} {q : ℚ} (h : value? x = some q) :
    double? (.float x) = some (q : Extended) :=
  extended?_of_value? h

/-- Two integers are compared as they are. -/
theorem compare_integers (m n : Int64) :
    compare? (.integer m) (.integer n) = some (compare m.toInt n.toInt) ∧
      strictEq (.integer m) (.integer n) = (compare m.toInt n.toInt == .eq) := by
  constructor
  · exact congrArg some (compare_toInt m n)
  · rw [Bool.eq_iff_iff, beq_iff_eq, compare_eq_iff_eq, Int64.toInt_inj]
    exact beq_iff_eq

/-- As soon as one of two numbers is a double, both are compared as doubles. -/
theorem compare_doubles (ha : a.double? = some p) (hb : b.double? = some q)
    (mixed : ¬(a.kind = .integer ∧ b.kind = .integer)) :
    compare? a b = some (compare p q) ∧ strictEq a b = (compare p q == .eq) := by
  cases a <;> try cases ha
  case integer m =>
    cases b <;> try cases hb
    case integer => exact absurd ⟨rfl, rfl⟩ mixed
    case float x => exact ⟨compareFloat?_of_extended? ha hb, beq_of_extended? ha hb⟩
  case float x =>
    cases b <;> try cases hb
    case integer n => exact ⟨compareFloat?_of_extended? ha hb, beq_of_extended? ha hb⟩
    case float y => exact ⟨compareFloat?_of_extended? ha hb, beq_of_extended? ha hb⟩

theorem comparesAs_of_compare? {order : Ordering}
    (here : compare? a b = some order ∧ strictEq a b = (order == .eq))
    (there : compare? b a = some order.swap) : ComparesAs a b order := by
  obtain ⟨compared, equal⟩ := here
  constructor
  case strictEq => exact congrArg Value.boolean equal
  case strictNe => exact congrArg (fun answer => Value.boolean !answer) equal
  case lt => exact congrArg (fun order? => Value.boolean (order?.any Ordering.isLT)) compared
  case le => exact congrArg (fun order? => Value.boolean (order?.any Ordering.isLE)) compared
  case gt =>
    refine (congrArg (fun order? => Value.boolean (order?.any Ordering.isLT)) there).trans ?_
    cases order <;> rfl
  case ge =>
    refine (congrArg (fun order? => Value.boolean (order?.any Ordering.isLE)) there).trans ?_
    cases order <;> rfl

theorem comparesAs_doubles (ha : a.double? = some p) (hb : b.double? = some q)
    (mixed : ¬(a.kind = .integer ∧ b.kind = .integer)) : ComparesAs a b (compare p q) := by
  have there := (compare_doubles hb ha (fun h => mixed h.symm)).1
  rw [Std.OrientedOrd.eq_swap] at there
  exact comparesAs_of_compare? (compare_doubles ha hb mixed) there

/-- Only one order fits what the comparisons answer. -/
theorem ComparesAs.unique {order order' : Ordering} (h : ComparesAs a b order)
    (h' : ComparesAs a b order') : order = order' := by
  have equal := Value.boolean.inj (h.strictEq.symm.trans h'.strictEq)
  have below := Value.boolean.inj (h.lt.symm.trans h'.lt)
  cases order <;> cases order' <;> trivial

/-- An integer and a double are compared as the numbers that they are, unless the integer is rounded
to the double: then they are equal. -/
theorem comparesAs_mixed (n : Int64) {x : Float} {q : ℚ} (hx : value? x = some q) :
    ComparesAs (.integer n) (.float x)
        (if nearest n = q then .eq else compare (n.toInt : ℚ) q) ∧
      ComparesAs (.float x) (.integer n)
        (if nearest n = q then .eq else compare q (n.toInt : ℚ)) := by
  have here := comparesAs_doubles (double?_integer n) (double?_float hx) (fun h => by cases h.2)
  have there := comparesAs_doubles (double?_float hx) (double?_integer n) (fun h => by cases h.1)
  have rounded := compare_nearest n (hasRoom_of_value? hx)
  constructor
  · rwa [compare_coe, rounded] at here
  · rw [compare_coe, Std.OrientedOrd.eq_swap, rounded] at there
    rw [Std.OrientedOrd.eq_swap (a := q)]
    split at there
    case isTrue same => rwa [if_pos same]
    case isFalse apart => rwa [if_neg apart]

/-- The comparisons are exact unless the integer is rounded to the double. -/
theorem comparesAs_exact_iff (n : Int64) {x : Float} {q : ℚ} (hx : value? x = some q) :
    ComparesAs (.integer n) (.float x) (compare (n.toInt : ℚ) q) ↔
      (nearest n = q → (n.toInt : ℚ) = q) := by
  have rounded := (comparesAs_mixed n hx).1
  constructor
  · intro h same
    rw [if_pos same] at rounded
    exact compare_eq_iff_eq.mp (h.unique rounded)
  · intro h
    split at rounded
    case isTrue same => rwa [compare_eq_iff_eq.mpr (h same)]
    case isFalse => exact rounded

section Transitivity

theorem isAtMost_integers (m n : Int64) :
    isAtMost (.integer m) (.integer n) = true ↔ m.toInt ≤ n.toInt := by
  rw [isAtMost, (compare_integers m n).1, Option.any_some, Ordering.isLE_iff_ne_gt]
  exact compare_le_iff_le

theorem isAtMost_doubles (ha : a.double? = some p) (hb : b.double? = some q)
    (mixed : ¬(a.kind = .integer ∧ b.kind = .integer)) : isAtMost a b = true ↔ p ≤ q := by
  rw [isAtMost, (compare_doubles ha hb mixed).1, Option.any_some, Ordering.isLE_iff_ne_gt]
  exact compare_le_iff_le

/-- A NaN is in no order, and it is equal to nothing. -/
theorem compare_nan (ha : a.isNumber = true) (hb : b.isNumber = true)
    (h : a.double? = none ∨ b.double? = none) :
    compare? a b = none ∧ strictEq a b = false := by
  cases a <;> try cases ha
  case integer m =>
    cases b <;> try cases hb
    case integer n => simp [double?_integer] at h
    case float x => exact (compareFloat?_of_nan h).symm
  case float x =>
    cases b <;> try cases hb
    case integer n => exact (compareFloat?_of_nan h).symm
    case float y => exact (compareFloat?_of_nan h).symm

theorem exists_integer (h : a.kind = .integer) : ∃ n, a = .integer n := by
  cases a <;> try cases h
  case integer n => exact ⟨n, rfl⟩

/-- Two values are integers, or one of them is no double, or they meet as doubles. -/
theorem numbers_cases (a b : Value) :
    (∃ m n, a = .integer m ∧ b = .integer n) ∨ (a.double? = none ∨ b.double? = none) ∨
      ∃ p q, a.double? = some p ∧ b.double? = some q ∧
        ¬(a.kind = .integer ∧ b.kind = .integer) := by
  by_cases mixed : a.kind = .integer ∧ b.kind = .integer
  · obtain ⟨m, hm⟩ := exists_integer mixed.1
    obtain ⟨n, hn⟩ := exists_integer mixed.2
    exact .inl ⟨m, n, hm, hn⟩
  · cases hp : a.double? with
    | none => exact .inr (.inl (.inl rfl))
    | some p =>
      cases hq : b.double? with
      | none => exact .inr (.inl (.inr rfl))
      | some q => exact .inr (.inr ⟨p, q, rfl, rfl, mixed⟩)

/-- Numbers in order are in order as doubles. -/
theorem exists_double?_of_isAtMost (ha : a.isNumber = true) (hb : b.isNumber = true)
    (h : isAtMost a b = true) : ∃ p q, a.double? = some p ∧ b.double? = some q ∧ p ≤ q := by
  rcases numbers_cases a b with ⟨m, n, rfl, rfl⟩ | nan | ⟨p, q, hp, hq, mixed⟩
  · refine ⟨_, _, double?_integer m, double?_integer n, ?_⟩
    exact WithBotTop.coe_le_coe.mpr (nearest_mono ((isAtMost_integers m n).mp h))
  · rw [isAtMost, (compare_nan ha hb nan).1] at h
    cases h
  · exact ⟨p, q, hp, hq, (isAtMost_doubles hp hq mixed).mp h⟩

/-- Numbers are equal where each is at most the other. -/
theorem strictEq_iff_isAtMost (ha : a.isNumber = true) (hb : b.isNumber = true) :
    strictEq a b = true ↔ isAtMost a b = true ∧ isAtMost b a = true := by
  rcases numbers_cases a b with ⟨m, n, rfl, rfl⟩ | nan | ⟨p, q, hp, hq, mixed⟩
  · rw [isAtMost_integers, isAtMost_integers, (compare_integers m n).2, beq_iff_eq,
      compare_eq_iff_eq, le_antisymm_iff]
  · rw [isAtMost, (compare_nan ha hb nan).1, (compare_nan ha hb nan).2]
    simp
  · rw [isAtMost_doubles hp hq mixed, isAtMost_doubles hq hp (fun h => mixed h.symm),
      (compare_doubles hp hq mixed).2, beq_iff_eq, compare_eq_iff_eq, le_antisymm_iff]

/-- Two integers become one double, and this double stands between them. -/
structure Meet (a b c : Value) (m n : Int64) : Prop where
  left : a = .integer m
  right : c = .integer n
  middle : ∃ x, b = .float x ∧ value? x = some (nearest m)
  rounded : nearest m = nearest n

theorem Meet.symm {m n : Int64} (h : Meet a b c m n) : Meet c b a n m := by
  obtain ⟨rfl, rfl, ⟨x, rfl, hx⟩, rounded⟩ := h
  exact ⟨rfl, rfl, ⟨x, rfl, rounded ▸ hx⟩, rounded.symm⟩

theorem Meet.isAtMost {m n : Int64} (h : Meet a b c m n) :
    isAtMost a b = true ∧ isAtMost b c = true := by
  obtain ⟨rfl, rfl, ⟨x, rfl, hx⟩, rounded⟩ := h
  have here := double?_float hx
  constructor
  · exact (isAtMost_doubles (double?_integer m) here (fun h => by cases h.2)).mpr le_rfl
  · exact (isAtMost_doubles here (double?_integer n) (fun h => by cases h.1)).mpr
      (by rw [rounded])

/-- Numbers of which one is at most the next are in order, unless they are integers that meet. -/
theorem exists_meet (ha : a.isNumber = true) (hb : b.isNumber = true) (hc : c.isNumber = true)
    (hab : isAtMost a b = true) (hbc : isAtMost b c = true) (hac : ¬isAtMost a c = true) :
    ∃ m n, Meet a b c m n ∧ n.toInt < m.toInt := by
  obtain ⟨p, q, hp, hq, hpq⟩ := exists_double?_of_isAtMost ha hb hab
  obtain ⟨q', r, hq', hr, hqr⟩ := exists_double?_of_isAtMost hb hc hbc
  obtain rfl : q = q' := Option.some_inj.mp (hq.symm.trans hq')
  rcases numbers_cases a c with ⟨m, n, rfl, rfl⟩ | nan | ⟨p', r', hp', hr', mixed⟩
  case inl =>
    rw [isAtMost_integers, not_le] at hac
    obtain rfl := Option.some_inj.mp ((double?_integer m).symm.trans hp)
    obtain rfl := Option.some_inj.mp ((double?_integer n).symm.trans hr)
    have squeezed : (nearest n : Extended) ≤ nearest m :=
      WithBotTop.coe_le_coe.mpr (nearest_mono hac.le)
    refine ⟨m, n, ⟨rfl, rfl, ?_, ?_⟩, hac⟩
    · cases b with
      | integer k =>
        rw [isAtMost_integers] at hab hbc
        omega
      | float x =>
        rw [le_antisymm (hqr.trans squeezed) hpq] at hq
        exact ⟨x, rfl, value?_of_extended? hq⟩
      | _ => cases hb
    · exact WithBotTop.coe_injective (le_antisymm (hpq.trans hqr) squeezed)
  case inr.inl => simp [hp, hr] at nan
  case inr.inr =>
    obtain rfl := Option.some_inj.mp (hp.symm.trans hp')
    obtain rfl := Option.some_inj.mp (hr.symm.trans hr')
    exact absurd ((isAtMost_doubles hp hr mixed).mpr (hpq.trans hqr)) hac

/-- Numbers that are equal to one number are equal, unless they are integers that meet. -/
theorem exists_meet_of_strictEq (ha : a.isNumber = true) (hb : b.isNumber = true)
    (hc : c.isNumber = true) (hab : strictEq a b = true) (hbc : strictEq b c = true)
    (hac : ¬strictEq a c = true) : ∃ m n, Meet a b c m n ∧ m.toInt ≠ n.toInt := by
  rw [strictEq_iff_isAtMost ha hb] at hab
  rw [strictEq_iff_isAtMost hb hc] at hbc
  rw [strictEq_iff_isAtMost ha hc, not_and_or] at hac
  rcases hac with up | down
  · obtain ⟨m, n, meet, less⟩ := exists_meet ha hb hc hab.1 hbc.1 up
    exact ⟨m, n, meet, less.ne'⟩
  · obtain ⟨n, m, meet, less⟩ := exists_meet hc hb ha hbc.2 hab.2 down
    exact ⟨m, n, meet.symm, less.ne⟩

/-- Where "at most" is not transitive, two integers meet in the wrong order. -/
theorem isAtMost_not_trans_iff (ha : a.isNumber = true) (hb : b.isNumber = true)
    (hc : c.isNumber = true) :
    (isAtMost a b = true ∧ isAtMost b c = true ∧ isAtMost a c = false) ↔
      ∃ m n, Meet a b c m n ∧ n.toInt < m.toInt := by
  constructor
  · rintro ⟨hab, hbc, hac⟩
    exact exists_meet ha hb hc hab hbc (Bool.eq_false_iff.mp hac)
  · rintro ⟨m, n, meet, less⟩
    obtain ⟨rfl, rfl⟩ := And.intro meet.left meet.right
    refine ⟨meet.isAtMost.1, meet.isAtMost.2, ?_⟩
    rw [Bool.eq_false_iff, ne_eq, isAtMost_integers]
    omega

/-- Where strict equality is not transitive, two integers meet. -/
theorem strictEq_not_trans_iff (ha : a.isNumber = true) (hb : b.isNumber = true)
    (hc : c.isNumber = true) :
    (strictEq a b = true ∧ strictEq b c = true ∧ strictEq a c = false) ↔
      ∃ m n, Meet a b c m n ∧ m.toInt ≠ n.toInt := by
  constructor
  · rintro ⟨hab, hbc, hac⟩
    exact exists_meet_of_strictEq ha hb hc hab hbc (Bool.eq_false_iff.mp hac)
  · rintro ⟨m, n, meet, apart⟩
    obtain ⟨rfl, rfl⟩ := And.intro meet.left meet.right
    refine ⟨(strictEq_iff_isAtMost ha hb).mpr ⟨meet.isAtMost.1, meet.symm.isAtMost.2⟩,
      (strictEq_iff_isAtMost hb hc).mpr ⟨meet.isAtMost.2, meet.symm.isAtMost.1⟩, ?_⟩
    rw [(compare_integers m n).2, beq_eq_false_iff_ne, ne_eq, compare_eq_iff_eq]
    exact apart

end Transitivity

/-- An integer and a finite double are compared as the numbers that they are, in both orders, unless
the integer is rounded to the double: then they are equal. Rounding goes to the nearest double, and
up to `2 ^ 53` it changes nothing. Among all numbers strict equality and "at most" are transitive
but for two integers that are rounded to the double between them. -/
theorem comparisons_of_numbers (n : Int64) {x : Float} {q : ℚ} (hx : value? x = some q)
    {a b c : Value} (ha : a.isNumber = true) (hb : b.isNumber = true) (hc : c.isNumber = true) :
    (ComparesAs (.integer n) (.float x) (if nearest n = q then .eq else compare (n.toInt : ℚ) q) ∧
      ComparesAs (.float x) (.integer n) (if nearest n = q then .eq else compare q (n.toInt : ℚ)) ∧
      (ComparesAs (.integer n) (.float x) (compare (n.toInt : ℚ) q) ↔
        (nearest n = q → (n.toInt : ℚ) = q))) ∧
    ((∃ y, value? y = some (nearest n)) ∧
      (∀ y r, value? y = some r → |nearest n - n.toInt| ≤ |r - n.toInt|) ∧
      (n.toInt.natAbs ≤ 0x20000000000000 → nearest n = n.toInt)) ∧
    ((isAtMost a b = true ∧ isAtMost b c = true ∧ isAtMost a c = false) ↔
      ∃ k m, Meet a b c k m ∧ m.toInt < k.toInt) ∧
    ((strictEq a b = true ∧ strictEq b c = true ∧ strictEq a c = false) ↔
      ∃ k m, Meet a b c k m ∧ k.toInt ≠ m.toInt) := by
  refine ⟨⟨?_, ?_, ?_⟩, ⟨?_, ?_, ?_⟩, ?_, ?_⟩
  · exact (comparesAs_mixed n hx).1
  · exact (comparesAs_mixed n hx).2
  · exact comparesAs_exact_iff n hx
  · exact ⟨ofWord n, value?_ofWord n⟩
  · intro y r hy
    exact abs_nearest_sub_le n (hasRoom_of_value? hy)
  · intro small
    exact nearest_eq_self (hasRoom_of_natAbs_le small)
  · exact isAtMost_not_trans_iff ha hb hc
  · exact strictEq_not_trans_iff ha hb hc

theorem comparisons_of_numbers_rounded :
    value? 9007199254740992.0 = some 9007199254740992 ∧
      ComparesAs (.integer 9007199254740993) (.float 9007199254740992.0) .eq ∧
      ∃ k m, Meet (.integer 9007199254740993) (.float 9007199254740992.0)
        (.integer 9007199254740992) k m ∧ k.toInt ≠ m.toInt := by
  have value : value? 9007199254740992.0 = some 9007199254740992 := by with_unfolding_all rfl
  have rounded : nearest 9007199254740993 = 9007199254740992 := by with_unfolding_all rfl
  have isInteger (n : Int64) : (Value.integer n).isNumber = true := rfl
  have isFloat (x : Float) : (Value.float x).isNumber = true := rfl
  obtain ⟨⟨equal, -⟩, -, -, apart⟩ := comparisons_of_numbers 9007199254740993 value
    (isInteger 9007199254740993) (isFloat 9007199254740992.0) (isInteger 9007199254740992)
  rw [if_pos rounded] at equal
  exact ⟨value, equal, apart.mp (by with_unfolding_all exact ⟨rfl, rfl, rfl⟩)⟩

/-- An integer equals a double that stands for its neighbour, which is not equal to it. -/
theorem strictEq_rounded_neighbour :
    value? 9007199254740992.0 = some 9007199254740992 ∧
      Operator.strictEq.apply [.integer 9007199254740993, .float 9007199254740992.0] =
        .boolean true ∧
      Operator.strictEq.apply [.float 9007199254740992.0, .integer 9007199254740992] =
        .boolean true ∧
      Operator.strictEq.apply [.integer 9007199254740993, .integer 9007199254740992] =
        .boolean false ∧
      Operator.le.apply [.integer 9007199254740993, .float 9007199254740992.0] = .boolean true ∧
      Operator.le.apply [.float 9007199254740992.0, .integer 9007199254740992] = .boolean true ∧
      Operator.le.apply [.integer 9007199254740993, .integer 9007199254740992] = .boolean false := by
  with_unfolding_all exact ⟨rfl, rfl, rfl, rfl, rfl, rfl, rfl⟩

end Value

end DocumentPath
