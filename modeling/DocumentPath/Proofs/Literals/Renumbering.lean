import DocumentPath.Proofs.Groups.Junctions
import DocumentPath.Proofs.Literals.Keeping

namespace DocumentPath.Filter

/-- The parentheses of a text, from left to right. -/
def parens (cs : List Char) : List Char := cs.filter fun c => c = '(' ∨ c = ')'

theorem depth_parens (cs : List Char) : depth (parens cs) = depth cs := by
  have opening : (parens cs).count '(' = cs.count '(' := List.count_filter (by decide)
  have closing : (parens cs).count ')' = cs.count ')' := List.count_filter (by decide)
  rw [depth, depth, opening, closing]

theorem nested_parens_iff {cs : List Char} : Nested (parens cs) ↔ Nested cs := by
  constructor
  · intro h
    refine ⟨(depth_parens cs).symm.trans h.closed, ?_⟩
    rintro u v rfl
    rw [← depth_parens]
    exact h.opened (parens u) (parens v) (List.filter_append ..)
  · intro h
    refine ⟨(depth_parens cs).trans h.closed, ?_⟩
    intro u v he
    obtain ⟨before, behind, rfl, rfl, rfl⟩ := List.filter_eq_append_iff.mp he
    exact (depth_parens before).symm ▸ h.opened before behind rfl

namespace Glyph

def isParen (g : Glyph) : Bool := g.isChar fun c => c = '(' ∨ c = ')'

/-- Whether the glyph is the place of a literal. -/
def isLiteral : Glyph → Bool
  | char _ => false
  | string _ | number _ => true

theorem not_paren_of_mem_chars {s n : Nat} {g : Glyph} (h : g.isParen = false) :
    ∀ c ∈ g.chars s n, c ≠ '(' ∧ c ≠ ')' := by
  cases g with
  | char c =>
    have other : ¬(c = '(' ∨ c = ')') := of_decide_eq_false h
    exact List.forall_mem_singleton.mpr (not_or.mp other)
  | string i => exact not_paren_of_mem_placeholder
  | number i => exact not_paren_of_mem_placeholder

end Glyph

/-- The glyphs of a text without its parentheses. -/
def bareGlyphs (gs : List Glyph) : List Glyph := gs.filter fun g => !g.isParen

section Renumbering

variable {s n : Nat}

theorem bare_spell (s n : Nat) (gs : List Glyph) :
    bare (spell s n gs) = spell s n (bareGlyphs gs) := by
  induction gs with
  | nil => rfl
  | cons g gs ih =>
    rw [spell_cons, bare_append, ih]
    cases hg : g.isParen with
    | false =>
      have kept : bareGlyphs (g :: gs) = g :: bareGlyphs gs :=
        List.filter_cons_of_pos (by simp [hg])
      rw [kept, spell_cons, bare_eq_self (Glyph.not_paren_of_mem_chars hg)]
    | true =>
      have gone : bareGlyphs (g :: gs) = bareGlyphs gs := List.filter_cons_of_neg (by simp [hg])
      rw [gone]
      cases g with
      | char c =>
        rcases (of_decide_eq_true hg : c = '(' ∨ c = ')') with rfl | rfl <;> rfl
      | string i => cases hg
      | number i => cases hg

/-- How the literals of a text are counted does not matter for its parentheses. -/
theorem parens_spell (s n s' n' : Nat) (gs : List Glyph) :
    parens (spell s n gs) = parens (spell s' n' gs) := by
  have none {cs : List Char} (h : ∀ c ∈ cs, c ≠ '(' ∧ c ≠ ')') : parens cs = [] :=
    List.filter_eq_nil_iff.mpr fun c hc => by simp [h c hc]
  induction gs with
  | nil => rfl
  | cons g gs ih =>
    have both (cs ds : List Char) : parens (cs ++ ds) = parens cs ++ parens ds :=
      List.filter_append ..
    rw [spell_cons, spell_cons, both, both, ih]
    cases hg : g.isParen with
    | false =>
      rw [none (Glyph.not_paren_of_mem_chars hg), none (Glyph.not_paren_of_mem_chars hg)]
    | true =>
      cases g with
      | char c => rfl
      | string i => cases hg
      | number i => cases hg

theorem nested_renumbered {gs : List Glyph} (h : Nested (spell s n gs)) (s' n' : Nat) :
    Nested (spell s' n' gs) := by
  rw [← nested_parens_iff] at h ⊢
  rwa [parens_spell s' n' s n]

/-- A text has no operators however its literals are counted. -/
theorem operators_renumbered {gs : List Glyph} (h : operators (spell s n gs) = []) (s' n' : Nat) :
    operators (spell s' n' gs) = [] := by
  refine operators_eq_nil fun op hop hi => ?_
  obtain ⟨before, behind, he⟩ := hi
  rw [List.append_assoc] at he
  obtain ⟨fs, hs, rfl, _, _⟩ := exists_of_spell_token he.symm
  refine not_token_infix h hop ⟨spell s n fs, spell s n hs, ?_⟩
  rw [spell_append, spell_append, spell_map_char, List.append_assoc]

/-- A place begins alike whatever its number is, so a text does. -/
theorem head?_renumbered (s n s' n' : Nat) (gs : List Glyph) :
    (spell s n gs).head? = (spell s' n' gs).head? := by
  cases gs with
  | nil => rfl
  | cons g gs => cases g <;> rfl

theorem sameFront_renumbered (s n s' n' : Nat) (gs : List Glyph) :
    SameFront (spell s n gs) (spell s' n' gs) := by
  have head := head?_renumbered s n s' n' gs
  refine ⟨?_, congrArg (Option.any isLone) head⟩
  rw [← List.head?_eq_none_iff, head, List.head?_eq_none_iff]

end Renumbering

section Counting

/-- Each literal of a text has a place of its own. -/
theorem countP_isLiteral_le (s n : Nat) (gs : List Glyph) :
    gs.countP Glyph.isLiteral ≤ (spell s n gs).count '#' := by
  induction gs with
  | nil => exact Nat.zero_le _
  | cons g gs ih =>
    rw [List.countP_cons, spell_cons, List.count_append]
    cases g with
    | char c =>
      have none : (Glyph.char c).isLiteral = false := rfl
      rw [none]
      simp only [Bool.false_eq_true, if_false, Nat.add_zero]
      omega
    | string i =>
      have here : 0 < (placeholder (s + i)).count '#' := List.count_pos_iff.mpr List.mem_cons_self
      have sign : (Glyph.string i).isLiteral = true := rfl
      rw [sign, if_pos rfl, Glyph.chars]
      omega
    | number i =>
      have here : 0 < (placeholder (n + i)).count '#' := List.count_pos_iff.mpr List.mem_cons_self
      have sign : (Glyph.number i).isLiteral = true := rfl
      rw [sign, if_pos rfl, Glyph.chars]
      omega

theorem length_stringsOf_glyphsFrom (k : Nat) (ws : List Written) :
    (stringsOf (glyphsFrom k ws)).length = (quotedStrings ws).length := by
  induction ws generalizing k with
  | nil => rfl
  | cons w ws ih =>
    cases w with
    | char c plain => exact ih k
    | string q => exact congrArg (· + 1) (ih (k + 1))

theorem Unnumbered.countP_eq {gs : List Glyph} (h : Unnumbered gs) :
    gs.countP Glyph.isLiteral = (stringsOf gs).length := by
  induction gs with
  | nil => rfl
  | cons g gs ih =>
    have rest := ih fun i hi => h i (List.mem_cons_of_mem g hi)
    cases g with
    | char c => exact rest
    | string i => exact (List.countP_cons_of_pos rfl).trans (congrArg (· + 1) rest)
    | number i => exact absurd List.mem_cons_self (h i)

theorem Lifts.countP_eq {due : Bool} {k : Nat} {gs hs : List Glyph} {vs : List Value}
    (h : Lifts due k gs hs vs) :
    hs.countP Glyph.isLiteral = gs.countP Glyph.isLiteral + vs.length := by
  induction h with
  | nil => rfl
  | string _ ih =>
    rw [List.countP_cons_of_pos rfl, List.countP_cons_of_pos rfl, ih]
    omega
  | char _ _ ih =>
    rw [List.countP_cons_of_neg Bool.false_ne_true, List.countP_cons_of_neg Bool.false_ne_true, ih]
  | @number k digits gs hs v vs _ _ _ _ _ ih =>
    have chars : (('-' :: digits).map Glyph.char).countP Glyph.isLiteral = 0 := by
      rw [List.countP_map]
      exact List.countP_eq_zero.mpr fun _ _ => Bool.false_ne_true
    have front : .char '-' :: digits.map .char ++ gs = ('-' :: digits).map .char ++ gs := rfl
    rw [front, List.countP_append, chars, List.countP_cons_of_pos rfl, ih, List.length_cons]
    omega

/-- A text has as many places as its table has literals. -/
theorem Normalizes.countP_eq {ws : List Written} {hs : List Glyph} {vs : List Value}
    (h : Normalizes ws hs vs) :
    hs.countP Glyph.isLiteral = (tableOf (quotedStrings ws) vs).length := by
  obtain ⟨gs, joins, lifts⟩ := h
  rw [lifts.countP_eq, joins.unnumbered.countP_eq, joins.keeps.strings,
    length_stringsOf_glyphsFrom, tableOf, List.length_append, List.length_map]

end Counting

end DocumentPath.Filter
