import DocumentPath.Filter.Rewriting

namespace DocumentPath.Filter

/-- How many more parentheses a text opens than it closes. -/
def depth (cs : List Char) : Int := (cs.count '(' : Int) - cs.count ')'

theorem depth_append (cs ds : List Char) : depth (cs ++ ds) = depth cs + depth ds := by
  simp only [depth, List.count_append]
  omega

theorem depth_cons (c : Char) (cs : List Char) : depth (c :: cs) = depth [c] + depth cs :=
  depth_append [c] cs

theorem depth_opening (cs : List Char) : depth ('(' :: cs) = 1 + depth cs := depth_append ['('] cs

theorem depth_of_no_parens {cs : List Char} (h : ∀ c ∈ cs, c ≠ '(' ∧ c ≠ ')') : depth cs = 0 := by
  have opening : cs.count '(' = 0 := List.count_eq_zero.mpr fun hc => (h _ hc).1 rfl
  have closing : cs.count ')' = 0 := List.count_eq_zero.mpr fun hc => (h _ hc).2 rfl
  rw [depth, opening, closing]
  rfl

/-- Every closing parenthesis of the text has its opening one before it, and none is left open. -/
structure Nested (cs : List Char) : Prop where
  closed : depth cs = 0
  opened : ∀ u v, cs = u ++ v → 0 ≤ depth u

theorem Nested.append {cs ds : List Char} (h : Nested cs) (h' : Nested ds) : Nested (cs ++ ds) := by
  refine ⟨by rw [depth_append, h.closed, h'.closed]; rfl, ?_⟩
  intro u v he
  rcases List.append_eq_append_iff.mp he with ⟨a, rfl, hd⟩ | ⟨a, hc, _⟩
  · have := h'.opened a v hd
    rw [depth_append, h.closed]
    omega
  · exact h.opened u a hc

theorem nested_of_no_parens {cs : List Char} (h : ∀ c ∈ cs, c ≠ '(' ∧ c ≠ ')') : Nested cs := by
  refine ⟨depth_of_no_parens h, ?_⟩
  rintro u v rfl
  have flat : depth u = 0 := depth_of_no_parens fun c hc => h c (List.mem_append_left v hc)
  omega

theorem nested_nil : Nested [] := nested_of_no_parens (List.forall_mem_nil _)

theorem nested_comma : Nested [','] :=
  nested_of_no_parens (List.forall_mem_singleton.mpr ⟨by decide, by decide⟩)

theorem Nested.parens {cs : List Char} (h : Nested cs) : Nested ('(' :: (cs ++ [')'])) := by
  have closing : depth [')'] = -1 := rfl
  refine ⟨by rw [depth_opening, depth_append, h.closed, closing]; rfl, ?_⟩
  intro u v he
  cases u with
  | nil => exact Int.le_refl 0
  | cons c u =>
    obtain ⟨rfl, tail⟩ := List.cons.inj he
    rw [depth_opening]
    rcases List.append_eq_append_iff.mp tail with ⟨a, rfl, ha⟩ | ⟨a, hc, _⟩
    · have last : -1 ≤ depth a := by
        rcases List.singleton_eq_append_iff.mp ha with ⟨rfl, _⟩ | ⟨rfl, _⟩
        · decide
        · decide
      rw [depth_append, h.closed]
      omega
    · have := h.opened u a hc
      omega

/-- The parentheses of the text are nested, and inside them are only characters of operands. -/
inductive Sealed : List Char → Prop
  | nil : Sealed []
  | operand {w cs : List Char} : Nested w → (∀ c ∈ w, isOperandChar c = true) → Sealed cs →
    Sealed (w ++ cs)
  | char {c : Char} {cs : List Char} : isOperandChar c = false → Sealed cs → Sealed (c :: cs)

theorem not_paren_of_not_isOperandChar {c : Char} (h : isOperandChar c = false) :
    c ≠ '(' ∧ c ≠ ')' := by
  constructor <;> rintro rfl <;> exact absurd h (by decide)

theorem Sealed.nested {cs : List Char} (h : Sealed cs) : Nested cs := by
  induction h with
  | nil => exact nested_nil
  | operand hw _ _ ih => exact hw.append ih
  | @char c cs hc _ ih =>
    have first : Nested [c] :=
      nested_of_no_parens (List.forall_mem_singleton.mpr (not_paren_of_not_isOperandChar hc))
    exact first.append ih

theorem sealed_of_nested {w : List Char} (h : Nested w) (hw : ∀ c ∈ w, isOperandChar c = true) :
    Sealed w := by
  have := Sealed.operand h hw .nil
  rwa [List.append_nil] at this

theorem Sealed.append {cs ds : List Char} (h : Sealed cs) (h' : Sealed ds) : Sealed (cs ++ ds) := by
  induction h with
  | nil => exact h'
  | operand hw chars _ ih =>
    rw [List.append_assoc]
    exact .operand hw chars ih
  | char hc _ ih => exact .char hc ih

/-- A character that belongs to no operand stands outside all parentheses. -/
theorem Sealed.split {a b : List Char} {c : Char} (h : Sealed (a ++ c :: b))
    (hc : isOperandChar c = false) : Sealed a ∧ Sealed b := by
  generalize hd : a ++ c :: b = ds at h
  induction h generalizing a with
  | nil => simp at hd
  | @operand w cs hw chars rest ih =>
    rcases List.append_eq_append_iff.mp hd with ⟨m, rfl, hm⟩ | ⟨m, rfl, hm⟩
    · cases m with
      | nil =>
        obtain ⟨_, right⟩ := ih (a := []) hm
        rw [List.append_nil] at hw chars
        exact ⟨sealed_of_nested hw chars, right⟩
      | cons d m =>
        obtain ⟨rfl, _⟩ := List.cons.inj hm
        rw [chars c (by simp)] at hc
        cases hc
    · obtain ⟨left, right⟩ := ih hm.symm
      exact ⟨.operand hw chars left, right⟩
  | @char d cs hd' rest ih =>
    cases a with
    | nil =>
      obtain ⟨_, rfl⟩ := List.cons.inj hd
      exact ⟨.nil, rest⟩
    | cons x a =>
      obtain ⟨rfl, tail⟩ := List.cons.inj hd
      obtain ⟨left, right⟩ := ih tail
      exact ⟨.char hd' left, right⟩

theorem Sealed.behind {t b : List Char} (h : Sealed (t ++ b))
    (ht : ∀ c ∈ t, isOperandChar c = false) : Sealed b := by
  induction t with
  | nil => exact h
  | cons c t ih =>
    have rest : Sealed (t ++ b) := (Sealed.split (a := []) h (ht c (by simp))).2
    exact ih rest fun d hd => ht d (by simp [hd])

/-- An operator parts a sealed text into sealed texts. -/
theorem Sealed.around {a t b : List Char} (h : Sealed (a ++ (t ++ b))) (hne : t ≠ [])
    (ht : ∀ c ∈ t, isOperandChar c = false) : Sealed a ∧ Sealed b := by
  cases t with
  | nil => exact absurd rfl hne
  | cons c t =>
    obtain ⟨left, right⟩ := h.split (ht c (by simp))
    exact ⟨left, right.behind fun d hd => ht d (by simp [hd])⟩

end DocumentPath.Filter
