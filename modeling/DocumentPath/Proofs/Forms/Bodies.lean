import DocumentPath.Proofs.Adjacency.Groups
import DocumentPath.Proofs.Literals.Punctuation
import DocumentPath.Proofs.Outlines.Brackets

namespace DocumentPath.Filter

open DocumentPath.Scanner

theorem mem_spell_of_mem_unquoted {c : Char} {ws : List Written} (h : c ∈ unquoted ws)
    (s n k : Nat) : c ∈ spell s n (glyphsFrom k ws) := by
  induction ws generalizing k with
  | nil => cases h
  | cons w ws ih =>
    cases w with
    | string q => exact List.mem_append_right _ (ih h (k + 1))
    | char d _ =>
      rcases List.mem_cons.mp h with rfl | h
      · exact List.mem_cons_self
      · exact List.mem_cons_of_mem d (ih h k)

theorem next_of_isBodyChar {c : Char} (h : isBodyChar c = true) (plain : isQuote c = false)
    (d : Int) : (between d).next c = between (d + depth [c]) := by
  by_cases opening : c = '('
  · subst opening
    rfl
  by_cases closing : c = ')'
  · subst closing
    rfl
  have flat : depth [c] = 0 :=
    depth_of_no_parens (List.forall_mem_singleton.mpr ⟨opening, closing⟩)
  have other : c ∉ ['[', ']', '\x7b', '\x7d'] := not_mem_of_class (by rfl) h
  have quotes : c ≠ '"' ∧ c ≠ '\'' := by simpa [isQuote] using plain
  simp only [List.mem_cons, List.not_mem_nil, or_false, not_or] at other
  rw [flat, Int.add_zero]
  refine next_between (.inl ?_)
  simp [isPlain, opening, closing, other, quotes]

/-- Behind a text whose parentheses are never all closed, so many brackets are open as before it and
in it, and no other than parentheses are outside its strings. -/
theorem crosses_written {ws : List Written} {d : Int}
    (chars : ∀ c ∈ unquoted ws, isBodyChar c = true)
    (h : ∀ u v, unquoted ws = u ++ v → 0 < d + depth u) :
    Crosses Infix.IsInner d (d + depth (unquoted ws)) (writtenChars ws) := by
  induction ws generalizing d with
  | nil =>
    rw [unquoted, depth_of_no_parens (List.forall_mem_nil _), Int.add_zero]
    exact crosses_nil _ d
  | cons w ws ih =>
    have parts : writtenChars (w :: ws) = w.chars ++ writtenChars ws := rfl
    rw [parts]
    cases w with
    | string q =>
      have positive : 0 < d := by
        have := h [] _ rfl
        rwa [depth_of_no_parens (List.forall_mem_nil _), Int.add_zero] at this
      exact (Infix.crosses_quotation _ q (.inr positive)).append (ih chars h)
    | char c plain =>
      obtain ⟨here, others⟩ := List.forall_mem_cons.mp chars
      have inner : Infix.IsInner c := by
        constructor <;> rintro rfl <;> exact absurd here (by decide)
      have first : Crosses Infix.IsInner d (d + depth [c]) [c] :=
        crosses_char (next_of_isBodyChar here plain d) inner
      have rest := ih (d := d + depth [c]) others fun u v hu => by
        have := h (c :: u) v (by rw [unquoted, hu]; rfl)
        rwa [depth_cons, ← Int.add_assoc] at this
      rw [unquoted, depth_cons, ← Int.add_assoc]
      exact first.append rest

theorem parens_punctuation (cs : List Char) : parens (punctuation cs) = parens cs := by
  rw [parens, punctuation, List.filter_filter]
  refine List.filter_congr fun c _ => ?_
  by_cases paren : c = '(' ∨ c = ')'
  · rcases paren with rfl | rfl <;> rfl
  · simp [paren]

/-- The parentheses that were typed outside the strings of an accepted text are nested. -/
theorem Stages.nested_unquoted {ws : List Written} {e : Expression}
    (s : Stages (writtenChars ws) e) :
    Nested (unquoted ws) := by
  rw [← nested_parens_iff, ← parens_punctuation, ← s.punctuation, parens_punctuation,
    nested_parens_iff]
  exact s.nested.1

/-- The filters that bracketed text is read as stand between brackets as one. -/
theorem crosses_of_ofBrackets {body : List Char} {e : Expression}
    (h : ofBrackets (bracketed body) = .ok (some e)) : Crosses Infix.IsInner 2 2 body := by
  obtain ⟨parsed, extraction, extracted, supported⟩ := exists_of_ofBrackets h
  obtain ⟨s⟩ := parse_eq_ok_iff.mp parsed
  rw [String.toList_ofList] at s
  obtain ⟨ws, rfl⟩ := exists_written extracted
  have nested := s.nested_unquoted
  have chars : ∀ c ∈ unquoted ws, isBodyChar c = true := by
    intro c hc
    rw [extract_written 0 ws] at extracted
    cases extracted
    exact List.all_eq_true.mp supported c (mem_spell_of_mem_unquoted hc 0 0 0)
  have crosses := crosses_written (d := 2) chars fun u v hu => by
    have := nested.opened u v hu
    omega
  rwa [nested.closed, Int.add_zero] at crosses

end DocumentPath.Filter
