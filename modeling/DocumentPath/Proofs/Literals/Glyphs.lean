import DocumentPath.Proofs.Groups.Stages

namespace DocumentPath.Filter

/-- A character, or the place of a literal: of a string that was quoted in the text, or of a number
with a sign. Both kinds are counted for themselves. -/
inductive Glyph
  | char (c : Char)
  | string (i : Nat)
  | number (i : Nat)
  deriving DecidableEq

namespace Glyph

/-- How a glyph is spelled in a table whose strings begin at `s` and whose numbers begin at `n`. -/
def chars (s n : Nat) : Glyph → List Char
  | char c => [c]
  | string i => placeholder (s + i)
  | number i => placeholder (n + i)

theorem chars_ne_nil (s n : Nat) (g : Glyph) : g.chars s n ≠ [] := by
  cases g <;> simp [chars, placeholder]

end Glyph

def spell (s n : Nat) (gs : List Glyph) : List Char := gs.flatMap (Glyph.chars s n)

section Spelling

variable {s n : Nat} {gs : List Glyph}

theorem spell_nil : spell s n [] = [] := rfl

theorem spell_cons (g : Glyph) (gs : List Glyph) : spell s n (g :: gs) = g.chars s n ++ spell s n gs :=
  rfl

theorem spell_char (c : Char) (gs : List Glyph) : spell s n (.char c :: gs) = c :: spell s n gs := rfl

theorem spell_append (gs hs : List Glyph) : spell s n (gs ++ hs) = spell s n gs ++ spell s n hs := by
  simp [spell]

theorem spell_map_char (w : List Char) : spell s n (w.map .char) = w := by
  simp [spell, List.flatMap_map, Glyph.chars]

theorem not_mem_placeholder {c : Char} (sharp : c ≠ '#') (digit : c.isDigit = false) (i : Nat) :
    c ∉ placeholder i := by
  intro h
  rcases List.mem_cons.mp h with h | h
  · exact sharp h
  · have := Text.isDigit_of_mem_decimal h
    rw [digit] at this
    cases this

theorem not_paren_of_mem_placeholder {i : Nat} : ∀ c ∈ placeholder i, c ≠ '(' ∧ c ≠ ')' :=
  fun c hc => ⟨fun he => not_mem_placeholder (by decide) (by decide) i (he ▸ hc),
    fun he => not_mem_placeholder (by decide) (by decide) i (he ▸ hc)⟩

/-- Text without the sign of a literal is spelled by its own characters. -/
theorem exists_of_spell_eq_append {x y : List Char} (sharp : '#' ∉ x)
    (h : spell s n gs = x ++ y) : ∃ hs, gs = x.map .char ++ hs ∧ spell s n hs = y := by
  induction x generalizing gs with
  | nil => exact ⟨gs, rfl, h⟩
  | cons c x ih =>
    rw [List.mem_cons, not_or] at sharp
    cases gs with
    | nil => cases h
    | cons g gs =>
      cases g with
      | char d =>
        obtain ⟨rfl, tail⟩ := List.cons.inj h
        obtain ⟨hs, rfl, hy⟩ := ih sharp.2 tail
        exact ⟨hs, rfl, hy⟩
      | string i => exact absurd (List.cons.inj h).1 sharp.1
      | number i => exact absurd (List.cons.inj h).1 sharp.1

theorem eq_map_char_of_no_sharp (h : '#' ∉ spell s n gs) : gs = (spell s n gs).map .char := by
  obtain ⟨hs, hgs, behind⟩ := exists_of_spell_eq_append (y := []) h (List.append_nil _).symm
  cases hs with
  | nil => rwa [List.append_nil] at hgs
  | cons g hs =>
    rw [spell_cons] at behind
    exact absurd (List.append_eq_nil_iff.mp behind).1 (Glyph.chars_ne_nil s n g)

/-- Text without the sign of a literal does not depend on how the literals are counted. -/
theorem spell_of_no_sharp (h : '#' ∉ spell s n gs) (s' n' : Nat) :
    spell s' n' gs = spell s n gs := by
  have chars := eq_map_char_of_no_sharp h
  generalize spell s n gs = w at chars
  rw [chars, spell_map_char]

theorem exists_of_append_eq_cut {w t x y : List Char} {c : Char} (hw : c ∉ w)
    (h : w ++ t = x ++ c :: y) : ∃ rest, x = w ++ rest ∧ t = rest ++ c :: y := by
  rcases List.append_eq_append_iff.mp h with ⟨m, hx, ht⟩ | ⟨m, rfl, hm⟩
  · exact ⟨m, hx, ht⟩
  · cases m with
    | nil => exact ⟨[], by simp, hm.symm⟩
    | cons d m =>
      obtain ⟨rfl, _⟩ := List.cons.inj hm
      simp at hw

/-- A text can be cut at a character that occurs in no place of a literal. -/
theorem exists_of_spell_eq_cut {x y : List Char} {c : Char} (sharp : c ≠ '#')
    (digit : c.isDigit = false) (h : spell s n gs = x ++ c :: y) :
    ∃ fs hs, gs = fs ++ .char c :: hs ∧ spell s n fs = x ∧ spell s n hs = y := by
  induction gs generalizing x with
  | nil => simp [spell] at h
  | cons g gs ih =>
    by_cases here : g = .char c ∧ x = []
    · obtain ⟨rfl, rfl⟩ := here
      exact ⟨[], gs, rfl, rfl, (List.cons.inj h).2⟩
    · have front : ∃ rest, x = g.chars s n ++ rest ∧ spell s n gs = rest ++ c :: y := by
        cases g with
        | char d =>
          cases x with
          | nil =>
            obtain ⟨rfl, _⟩ := List.cons.inj h
            exact absurd ⟨rfl, rfl⟩ here
          | cons b x =>
            obtain ⟨rfl, tail⟩ := List.cons.inj h
            exact ⟨x, rfl, tail⟩
        | string i => exact exists_of_append_eq_cut (not_mem_placeholder sharp digit _) h
        | number i => exact exists_of_append_eq_cut (not_mem_placeholder sharp digit _) h
      obtain ⟨rest, rfl, tail⟩ := front
      obtain ⟨fs, hs, rfl, rfl, hy⟩ := ih tail
      exact ⟨g :: fs, hs, rfl, rfl, hy⟩

end Spelling

end DocumentPath.Filter
