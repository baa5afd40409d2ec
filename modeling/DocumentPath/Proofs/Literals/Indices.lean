import DocumentPath.Text.Digits

namespace DocumentPath.Text

/-- More digits do not make a number smaller. -/
theorem le_ofDigitChars (cs : List Char) (k : Nat) : k ≤ Nat.ofDigitChars 10 cs k := by
  induction cs generalizing k with
  | nil => exact Nat.le_refl k
  | cons c cs ih =>
    rw [Nat.ofDigitChars_cons]
    exact Nat.le_trans (by omega) (ih _)

theorem readDigits?_eq_some {cs : List Char} {i : Nat} (h : readDigits? cs = some i) :
    cs ≠ [] ∧ (∀ c ∈ cs, c.isDigit = true) ∧ i = Nat.ofDigitChars 10 cs 0 := by
  rw [readDigits?] at h
  split at h
  · rename_i digits
    cases h
    exact ⟨digits.1, List.all_eq_true.mp digits.2, rfl⟩
  · cases h

theorem readIndex?_eq_some {cs : List Char} {i : Nat} (h : readIndex? cs = some i) :
    ∃ ds, (cs = ds ∨ cs = '+' :: ds) ∧ readDigits? ds = some i := by
  unfold readIndex? at h
  split at h
  · exact ⟨_, .inr rfl, h⟩
  · exact ⟨_, .inl rfl, h⟩

theorem readIndex?_of_isDigit {c : Char} {cs : List Char} (h : c.isDigit = true) :
    readIndex? (c :: cs) = readDigits? (c :: cs) := by
  refine readIndex?.eq_2 _ fun ds hd => ?_
  obtain ⟨rfl, _⟩ := List.cons.inj hd
  exact absurd h (by decide)

/-- An index that begins with the number of a literal has only digits behind it, and is not less. -/
theorem readIndex?_decimal_append {k i : Nat} {cs : List Char}
    (h : readIndex? (decimal k ++ cs) = some i) : (∀ c ∈ cs, c.isDigit = true) ∧ k ≤ i := by
  have unsigned : readIndex? (decimal k ++ cs) = readDigits? (decimal k ++ cs) := by
    cases hk : decimal k with
    | nil => exact absurd hk (decimal_ne_nil k)
    | cons c rest => exact readIndex?_of_isDigit (isDigit_of_mem_decimal (n := k) (by simp [hk]))
  rw [unsigned] at h
  obtain ⟨_, digits, rfl⟩ := readDigits?_eq_some h
  refine ⟨fun c hc => digits c (List.mem_append_right _ hc), ?_⟩
  have self : Nat.ofDigitChars 10 (decimal k) 0 = k :=
    ((readDigits?_eq_some (readDigits?_decimal k)).2.2).symm
  rw [Nat.ofDigitChars_append, self]
  exact le_ofDigitChars cs k

theorem eq_zero_of_ofDigitChars {cs : List Char} (digits : ∀ c ∈ cs, c.isDigit = true)
    (h : Nat.ofDigitChars 10 cs 0 = 0) : ∀ c ∈ cs, c = '0' := by
  induction cs with
  | nil => exact List.forall_mem_nil _
  | cons c cs ih =>
    obtain ⟨first, rest⟩ := List.forall_mem_cons.mp digits
    rw [Nat.ofDigitChars_cons] at h
    have least := le_ofDigitChars cs (10 * 0 + (c.toNat - '0'.toNat))
    rw [h] at least
    have zero : c = '0' := by
      have bounds : 48 ≤ c.toNat := of_decide_eq_true (Bool.and_eq_true_iff.mp first).1
      have code : '0'.toNat = 48 := rfl
      exact Char.toNat_inj.mp (by omega)
    subst zero
    exact List.forall_mem_cons.mpr ⟨rfl, ih rest h⟩

/-- More digits behind an index that leave it zero are zeros. -/
theorem eq_zero_of_readIndex?_append {cs ds : List Char} {i : Nat} (h : readIndex? cs = some i)
    (zero : readIndex? (cs ++ ds) = some 0) : ∀ c ∈ ds, c = '0' := by
  obtain ⟨es, parts, digits⟩ := readIndex?_eq_some h
  have nonempty := (readDigits?_eq_some digits).1
  obtain ⟨fs, whole, digits'⟩ := readIndex?_eq_some zero
  obtain ⟨_, isDigit, value⟩ := readDigits?_eq_some digits'
  have inside : ∀ c ∈ ds, c ∈ fs := by
    rcases whole with whole | whole
    · exact fun c hc => whole ▸ List.mem_append_right cs hc
    · cases cs with
      | nil => rcases parts with rfl | parts <;> contradiction
      | cons d cs =>
        obtain ⟨_, rfl⟩ := List.cons.inj whole
        exact fun c hc => List.mem_append_right cs hc
  exact fun c hc => eq_zero_of_ofDigitChars isDigit value.symm c (inside c hc)

end DocumentPath.Text
