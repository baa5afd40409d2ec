import DocumentPath.Decimal.Scaled

namespace DocumentPath.Decimal.Scaled

/-- The greatest number of zeros, up to a bound, that can be appended to a coefficient. -/
def room (q : Nat) : Nat → Nat
  | 0 => 0
  | n + 1 => if q * Nat.pow 10 (n + 1) < limit then n + 1 else room q n

theorem room_le (q n : Nat) : room q n ≤ n := by
  induction n with
  | zero => exact Nat.le_refl 0
  | succ n ih =>
    rw [room]
    split
    · exact Nat.le_refl _
    · exact Nat.le_succ_of_le ih

/-- `q * 10 ^ -scale` without rounding. -/
def unrounded? (negative : Bool) (q : Nat) (scale : Int) : Option Scaled :=
  let m := q * Nat.pow 10 (-scale).toNat
  if m < limit then some ⟨negative, m, scale.toNat⟩ else none

/-- `n / d * 10 ^ -scale`, half to even at its last place, or at the place before if that has no
room. -/
def rounded? (negative : Bool) (n d : Nat) (scale : Int) : Option Scaled :=
  if scale < 0 then none
  else if roundDiv n d < limit then some ⟨negative, roundDiv n d, scale.toNat⟩
  else if 0 < scale then some ⟨negative, roundDiv n (10 * d), scale.toNat - 1⟩
  else none

/-- How many digits are appended at once to a quotient `q` with so many places: as many as have
room, and no more than nine. -/
def groupSize (q : Nat) (scale : Int) : Nat := room q (min 9 (maxScale - scale).toNat)

theorem scale_add_groupSize_le {q : Nat} {scale : Int} (h : 0 < groupSize q scale) :
    scale + groupSize q scale ≤ maxScale := by
  have := room_le q (min 9 (maxScale - scale).toNat)
  simp only [groupSize] at h ⊢
  omega

/-- `n / d * 10 ^ -scale` by long division. Groups of digits are appended until it comes out even,
which is exact, or until no more of them have room, where the quotient is rounded. -/
def divide? (negative : Bool) (n d : Nat) (scale : Int) : Option Scaled :=
  if n % d = 0 then unrounded? negative (n / d) scale
  else
    let group := groupSize (n / d) scale
    let m := n * Nat.pow 10 group
    if 0 < group ∧ m / d < limit then divide? negative m d (scale + group)
    else rounded? negative m d (scale + group)
termination_by (maxScale - scale).toNat
decreasing_by
  rename_i h
  have := scale_add_groupSize_le h.1
  omega

/-- Drops `n` places that hold zeros only. Eight of them are dropped only from a coefficient whose
lowest 32 bits are clear. -/
def dropZeros (d : Scaled) (n : Nat) : Scaled :=
  if n ≤ d.scale ∧ d.coefficient % Nat.pow 10 n = 0 ∧
      (n < 8 ∨ d.coefficient % 0x100000000 = 0) then
    ⟨d.negative, d.coefficient / Nat.pow 10 n, d.scale - n⟩
  else d

/-- The groups in which the zeros at the end of a quotient are dropped. -/
def zeroGroups : List Nat := [8, 8, 8, 4, 2, 1]

/-- The quotient; there is none by zero. Appended zeros are dropped again, in groups. -/
def div? (a b : Scaled) : Option Scaled :=
  if b.coefficient = 0 then none
  else if a.coefficient = 0 then some ⟨false, 0, 0⟩
  else do
    let q ← divide? (a.negative != b.negative) a.coefficient b.coefficient (a.scale - b.scale)
    if a.coefficient % b.coefficient = 0 then some q else some (zeroGroups.foldl dropZeros q)

end DocumentPath.Decimal.Scaled
