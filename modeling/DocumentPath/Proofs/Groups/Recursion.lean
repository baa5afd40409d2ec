import DocumentPath.Proofs.References.Rewriting

namespace DocumentPath.Filter

/-- Behind `k` open parentheses the text never closes more than there are open. -/
def Inside (k : Int) (cs : List Char) : Prop := ∀ u v, cs = u ++ v → 0 ≤ k + depth u

theorem inside_nil {k : Int} : Inside k [] ↔ 0 ≤ k := by
  constructor
  · intro h
    simpa [depth] using h [] [] rfl
  · intro h u v hu
    rw [(List.append_eq_nil_iff.mp hu.symm).1]
    simpa [depth] using h

theorem inside_cons {k : Int} {c : Char} {cs : List Char} :
    Inside k (c :: cs) ↔ 0 ≤ k ∧ Inside (k + depth [c]) cs := by
  constructor
  · intro h
    refine ⟨inside_nil.mp fun u v hu => h u (v ++ c :: cs) ?_, fun u v hu => ?_⟩
    · rw [← List.append_assoc, ← hu, List.nil_append]
    · have longer := h (c :: u) v (by rw [hu]; rfl)
      rw [depth_cons] at longer
      omega
  · intro h u v hu
    cases u with
    | nil => simpa [depth] using h.1
    | cons d u =>
      obtain ⟨rfl, tail⟩ := List.cons.inj hu
      have shorter := h.2 u v tail
      rw [depth_cons]
      omega

theorem nested_iff {cs : List Char} : Nested cs ↔ depth cs = 0 ∧ Inside 0 cs := by
  simp only [Inside, Int.zero_add]
  exact ⟨fun h => ⟨h.closed, h.opened⟩, fun h => ⟨h.1, h.2⟩⟩

theorem depth_char {c : Char} (h1 : c ≠ '(') (h2 : c ≠ ')') : depth [c] = 0 :=
  depth_of_no_parens (List.forall_mem_singleton.mpr ⟨h1, h2⟩)

/-- Behind open parentheses either there is a first one that closes the outermost, or that stays
open. -/
theorem inside_or_closing {k : Int} (hk : 0 ≤ k) (cs : List Char) :
    Inside k cs ∨ ∃ g rest, cs = g ++ ')' :: rest ∧ k + depth g = 0 ∧ Inside k g := by
  induction cs generalizing k with
  | nil => exact .inl (inside_nil.mpr hk)
  | cons c cs ih =>
    by_cases first : 0 ≤ k + depth [c]
    · rcases ih first with inside | ⟨g, rest, rfl, closed, inside⟩
      · exact .inl (inside_cons.mpr ⟨hk, inside⟩)
      · refine .inr ⟨c :: g, rest, rfl, ?_, inside_cons.mpr ⟨hk, inside⟩⟩
        rw [depth_cons]
        omega
    · have closing : c = ')' := by
        by_contra other
        by_cases opening : c = '('
        · subst opening
          have : depth ['('] = 1 := rfl
          omega
        · rw [depth_char opening other] at first
          omega
      subst closing
      have last : depth [')'] = -1 := rfl
      refine .inr ⟨[], cs, rfl, ?_, inside_nil.mpr hk⟩
      have none : depth [] = 0 := rfl
      omega

/-- Behind an open parenthesis a group ends with the first one that closes it, or never. -/
theorem inside_or_group (cs : List Char) :
    Inside 0 cs ∨ ∃ g rest, cs = g ++ ')' :: rest ∧ Nested g := by
  rcases inside_or_closing (Int.le_refl 0) cs with inside | ⟨g, rest, hcs, closed, inside⟩
  · exact .inl inside
  · exact .inr ⟨g, rest, hcs, nested_iff.mpr ⟨by omega, inside⟩⟩

section Stack

variable {outer below : List (Except ExpressionFault (List Char))}
  {current before : Except ExpressionFault (List Char)} {fault : ExpressionFault} {cs : List Char}

/-- A group is put into call form by itself, whatever stands in front of it. -/
theorem rewriteGroups_within {g rest : List Char} (closed : outer.length + depth g = 0)
    (inside : Inside outer.length g) :
    rewriteGroups (outer ++ before :: below) current (g ++ ')' :: rest) =
      rewriteGroups below (do return (← before) ++ (← rewriteGroups outer current g)) rest := by
  induction g generalizing outer current with
  | nil =>
    have none : outer = [] := by
      have : depth [] = 0 := rfl
      exact List.length_eq_zero_iff.mp (by omega)
    subst none
    rw [List.nil_append, List.nil_append, rewriteGroups_cons_closing]
    rfl
  | cons c g ih =>
    obtain ⟨_, inside⟩ := inside_cons.mp inside
    rw [depth_cons] at closed
    rw [List.cons_append]
    by_cases opening : c = '('
    · subst opening
      have one : depth ['('] = 1 := rfl
      rw [one] at closed inside
      rw [rewriteGroups_cons_opening, rewriteGroups_cons_opening]
      apply @ih (current :: outer)
      · rw [List.length_cons]
        omega
      · rw [List.length_cons]
        exact inside
    by_cases closing : c = ')'
    · subst closing
      have one : depth [')'] = -1 := rfl
      rw [one] at closed inside
      cases outer with
      | nil =>
        have := inside [] g rfl
        simp [depth] at this
      | cons kept outer =>
        rw [List.length_cons] at closed inside
        rw [List.cons_append, rewriteGroups_cons_closing, rewriteGroups_cons_closing]
        apply ih
        · omega
        · convert inside using 1
          omega
    · rw [depth_char opening closing] at closed inside
      rw [rewriteGroups_cons_char opening closing, rewriteGroups_cons_char opening closing]
      apply ih
      · omega
      · convert inside using 1
        omega

/-- A fault of the text that stands in front stays there, if the current text keeps its own. -/
theorem getD_error {current' : Except ExpressionFault (List Char)}
    (first : outer.getLast?.getD current = .error fault)
    (keeps : current = .error fault → current' = .error fault) :
    outer.getLast?.getD current' = .error fault := by
  cases last : outer.getLast? with
  | none =>
    rw [last] at first
    exact keeps first
  | some kept =>
    rw [last] at first
    exact first

/-- A fault in front of everything else is the outcome. -/
theorem rewriteGroups_error (first : outer.getLast?.getD current = .error fault) :
    rewriteGroups outer current cs = .error fault := by
  induction cs generalizing outer current with
  | nil =>
    rw [rewriteGroups]
    cases last : outer.getLast? with
    | none =>
      rw [last] at first
      cases first
      rfl
    | some kept =>
      rw [last] at first
      cases first
      rfl
  | cons c cs ih =>
    by_cases opening : c = '('
    · subst opening
      rw [rewriteGroups_cons_opening]
      apply ih
      rw [List.getLast?_cons]
      exact first
    by_cases closing : c = ')'
    · subst closing
      cases outer with
      | nil =>
        rw [rewriteGroups_cons_stray]
        cases first
        rfl
      | cons kept outer =>
        rw [List.getLast?_cons] at first
        rw [rewriteGroups_cons_closing]
        apply ih
        apply getD_error first
        intro failed
        rw [failed]
        rfl
    · rw [rewriteGroups_cons_char opening closing]
      apply ih
      apply getD_error first
      intro failed
      rw [failed]
      rfl

/-- Where the outermost parenthesis is never closed, the outcome is that fault. -/
theorem rewriteGroups_unclosed {front : List Char} (first : outer.getLast? = some (.ok front))
    (inside : Inside (outer.length - 1) cs) :
    rewriteGroups outer current cs = .error .unclosed := by
  induction cs generalizing outer current with
  | nil =>
    rw [rewriteGroups, first]
    rfl
  | cons c cs ih =>
    obtain ⟨_, inside⟩ := inside_cons.mp inside
    by_cases opening : c = '('
    · subst opening
      have one : depth ['('] = 1 := rfl
      rw [one] at inside
      rw [rewriteGroups_cons_opening]
      apply ih
      · rw [List.getLast?_cons, first]
        rfl
      · convert inside using 1
        rw [List.length_cons]
        omega
    by_cases closing : c = ')'
    · subst closing
      have one : depth [')'] = -1 := rfl
      rw [one] at inside
      cases outer with
      | nil => cases first
      | cons kept outer =>
        rw [List.length_cons] at inside
        have room := inside [] cs rfl
        have more : outer ≠ [] := by
          intro none
          simp [none, depth] at room
        rw [rewriteGroups_cons_closing]
        apply ih
        · obtain ⟨deeper, hd⟩ := Option.ne_none_iff_exists'.mp (mt List.getLast?_eq_none_iff.mp more)
          rw [List.getLast?_cons, hd] at first
          rwa [hd]
        · convert inside using 1
          omega
    · rw [depth_char opening closing] at inside
      rw [rewriteGroups_cons_char opening closing]
      apply ih first
      convert inside using 1
      omega

end Stack

variable {front : List Char}

/-- An open parenthesis that nothing closes. -/
theorem rewriteGroups_opening_unclosed {cs : List Char} (inside : Inside 0 cs) :
    rewriteGroups [] (.ok front) ('(' :: cs) = .error .unclosed := by
  rw [rewriteGroups_cons_opening]
  exact rewriteGroups_unclosed rfl inside

/-- A group is put into call form by itself first. Its fault is that of the whole text, or else what
it has become goes on as if it had been written in its place. -/
theorem rewriteGroups_nested {g rest : List Char} (nested : Nested g) :
    rewriteGroups [] (.ok front) ('(' :: (g ++ ')' :: rest)) =
      rewrite g >>= fun w => rewriteGroups [] (.ok (front ++ w)) rest := by
  obtain ⟨closed, inside⟩ := nested_iff.mp nested
  have within : rewriteGroups ([] ++ [.ok front]) (.ok []) (g ++ ')' :: rest) =
      rewriteGroups [] (do return (← .ok front) ++ (← rewriteGroups [] (.ok []) g)) rest :=
    rewriteGroups_within (by simpa using closed) inside
  rw [rewriteGroups_cons_opening]
  refine within.trans ?_
  rw [← rewrite]
  cases rewrite g with
  | error fault => exact rewriteGroups_error rfl
  | ok w => rfl

end DocumentPath.Filter
