import Mathlib.Data.List.Infix
import DocumentPath.Proofs.Literals.Quotations
import DocumentPath.Proofs.Outlines.Brackets
import DocumentPath.Proofs.Outlines.Locality

namespace DocumentPath

namespace Scanner

/-- Where a scan stands at the beginning of a filter, behind `[?(`. -/
def inFilter : Scanner := start.after ['[', '?', '(']

/-- How many more brackets a text opens than it closes. -/
def rise (cs : List Char) : Int := (cs.countP isOpening : Int) - cs.countP isClosing

theorem rise_cons (c : Char) (cs : List Char) : rise (c :: cs) = rise [c] + rise cs := by
  simp only [rise, List.countP_cons, List.countP_nil]
  omega

theorem next_of_not_quote {c : Char} (h : Filter.isQuote c = false) (d : Int) :
    (between d).next c = between (d + rise [c]) := by
  have quotes : c ≠ '"' ∧ c ≠ '\'' := by simpa [Filter.isQuote] using h
  rw [next_between_bracket quotes.1 quotes.2]
  congr 1
  simp only [rise, List.countP_cons, List.countP_nil]
  cases isOpening c <;> cases isClosing c <;> simp
  omega

theorem isOutside_of_not_quote {c : Char} (h : Filter.isQuote c = false) (d : Int) :
    (between d).isOutside c = true := by
  rw [isOutside, next_of_not_quote h]
  rfl

/-- At every point of a text that begins at this depth, brackets outside strings are open. -/
def StaysOpen (d : Int) (cs : List Char) : Prop :=
  ∀ u v, cs = u ++ v → 0 < d + rise ((between d).outside u)

variable {d : Int} {cs : List Char}

theorem StaysOpen.here (h : StaysOpen d cs) : 0 < d := by
  have start := h [] cs rfl
  simpa [outside, marks, rise] using start

theorem StaysOpen.char {c : Char} (h : StaysOpen d (c :: cs)) (plain : Filter.isQuote c = false) :
    StaysOpen (d + rise [c]) cs := by
  intro u v hu
  have longer := h (c :: u) v (by rw [hu]; rfl)
  rw [outside_cons, isOutside_of_not_quote plain, if_pos rfl, next_of_not_quote plain,
    List.singleton_append, rise_cons] at longer
  omega

theorem StaysOpen.string (s : Infix.Quotation) (h : StaysOpen d (s.chars ++ cs)) :
    StaysOpen d cs := by
  intro u v hu
  have longer := h (s.chars ++ u) v (by rw [hu, List.append_assoc])
  obtain ⟨back, inside⟩ := Infix.crosses_quotation (fun _ => False) s (.inr h.here)
  rwa [outside_append, back, List.eq_nil_iff_forall_not_mem.mpr inside, List.nil_append] at longer

/-- Where nothing stands outside, every character is marked as part of a string. -/
theorem marks_of_outside_eq_nil {s : Scanner} (h : s.outside cs = []) :
    s.marks cs = cs.map fun c => (c, false) := by
  induction cs generalizing s with
  | nil => rfl
  | cons c cs ih =>
    rw [outside_cons, List.append_eq_nil_iff] at h
    have first : s.isOutside c = false := by
      cases hc : s.isOutside c with
      | false => rfl
      | true =>
        have none := h.1
        rw [hc] at none
        cases none
    rw [marks, first, ih h.2]
    rfl

/-- Inside a string that is never closed, everything up to the end belongs to it. -/
theorem marks_unclosed {quote : Char} (h : Filter.Unclosed quote cs) (d : Int) :
    (inside quote false d).marks cs = cs.map (fun c => (c, false)) ∧
      ((inside quote false d).after cs).isClosed = false := by
  induction h with
  | nil => exact ⟨rfl, rfl⟩
  | slash => exact ⟨rfl, rfl⟩
  | @escaped c cs _ ih =>
    have first : (inside quote false d).next '\\' = inside quote true d := rfl
    have second : (inside quote true d).next c = inside quote false d := rfl
    rw [marks, marks, after_cons, after_cons, first, second, isOutside_inside, isOutside_inside,
      ih.1]
    exact ⟨rfl, ih.2⟩
  | @char c cs closing slash _ ih =>
    have same : (inside quote false d).next c = inside quote false d := by
      simp [inside, next, closing, slash]
    rw [marks, after_cons, same, isOutside_inside, ih.1]
    exact ⟨rfl, ih.2⟩

end Scanner

namespace Filter

open Scanner

/-- The characters of a part, each with whether it stands outside the strings. -/
def Written.marks : Written → List (Char × Bool)
  | .char c _ => [(c, true)]
  | .string s => s.chars.map fun c => (c, false)

def writtenMarks (ws : List Written) : List (Char × Bool) := ws.flatMap Written.marks

/-- While brackets stay open, a scan finds the strings that a text is made of. -/
theorem marks_written {ws : List Written} {rest : List Char} {d : Int}
    (h : StaysOpen d (writtenChars ws ++ rest)) :
    (between d).marks (writtenChars ws) = writtenMarks ws ∧
      ∃ e, (between d).after (writtenChars ws) = between e ∧ 0 < e := by
  induction ws generalizing d with
  | nil => exact ⟨rfl, d, rfl, h.here⟩
  | cons w ws ih =>
    have chars : writtenChars (w :: ws) = w.chars ++ writtenChars ws := rfl
    have marked : writtenMarks (w :: ws) = w.marks ++ writtenMarks ws := rfl
    rw [chars, List.append_assoc] at h
    rw [chars, marked, marks_append, after_append]
    cases w with
    | char c plain =>
      have first : (between d).marks [c] = [(c, true)] := by
        rw [Scanner.marks, isOutside_of_not_quote plain]
        rfl
      have onward : (between d).after [c] = between (d + rise [c]) := next_of_not_quote plain d
      obtain ⟨same, closed⟩ := ih (h.char plain)
      rw [Written.chars, onward, same]
      exact ⟨congrArg (· ++ _) first, closed⟩
    | string s =>
      obtain ⟨back, inside⟩ := Infix.crosses_quotation (fun _ => False) s (.inr h.here)
      have whole := marks_of_outside_eq_nil (List.eq_nil_iff_forall_not_mem.mpr inside)
      obtain ⟨same, closed⟩ := ih (h.string s)
      rw [Written.chars, back, whole, same]
      exact ⟨rfl, closed⟩

/-- Inside a filter the scanner of paths and the reader of its body find the same strings, as long as
no more than one bracket of those in front of the body is closed. -/
theorem extract_agrees_with_marks {body : List Char}
    (brackets : ∀ u v, body = u ++ v →
      (inFilter.outside u).countP isClosing ≤ (inFilter.outside u).countP isOpening + 1) :
    ((inFilter.after body).isClosed = true ↔ ∃ e, extract body = .ok e) ∧
    (∀ e, extract body = .ok e →
      ∃ ws, body = writtenChars ws ∧ e = ⟨spell 0 0 (glyphsFrom 0 ws), quotedStrings ws⟩ ∧
        inFilter.marks body = writtenMarks ws) ∧
    ∀ fault, extract body = .error fault →
      ∃ ws quote rest, body = writtenChars ws ++ quote :: rest ∧ fault = .openString quote ∧
        isQuote quote = true ∧ Unclosed quote rest ∧
        inFilter.marks body = writtenMarks ws ++ (quote :: rest).map fun c => (c, false) := by
  have opened : inFilter = between 2 := by with_unfolding_all rfl
  have stays : StaysOpen 2 body := by
    intro u v hu
    have most := brackets u v hu
    rw [opened] at most
    simp only [rise]
    omega
  obtain ⟨ws, rfl⟩ | ⟨quote, ws, rest, rfl, isQuote, unclosed⟩ := written_or_endsOpen body
  · rw [← List.append_nil (writtenChars ws)] at stays
    obtain ⟨same, d, back, -⟩ := marks_written stays
    have taken := extract_written 0 ws
    rw [opened, taken, back, same]
    refine ⟨⟨fun _ => ⟨_, rfl⟩, fun _ => rfl⟩, fun e he => ?_, fun fault hf => ?_⟩
    · cases he
      exact ⟨ws, rfl, rfl, rfl⟩
    · cases hf
  · obtain ⟨same, d, back, closed⟩ := marks_written stays
    have refused : extract (writtenChars ws ++ quote :: rest) = .error (.openString quote) :=
      extractFrom_endsOpen ⟨ws, rest, rfl, isQuote, unclosed⟩ 0
    have opens : (between d).next quote = inside quote false d :=
      Infix.next_of_quote isQuote (.inr closed)
    obtain ⟨marked, stuck⟩ := marks_unclosed unclosed d
    have tail : (between d).marks (quote :: rest) = (quote :: rest).map fun c => (c, false) := by
      rw [Scanner.marks, isOutside, opens, marked]
      rfl
    rw [opened, refused, marks_append, after_append, same, back, tail, after_cons, opens, stuck]
    refine ⟨⟨fun h => ?_, fun h => ?_⟩, fun e he => ?_, fun fault hf => ?_⟩
    · cases h
    · obtain ⟨e, h⟩ := h
      cases h
    · cases he
    · cases hf
      exact ⟨ws, quote, rest, rfl, rfl, isQuote, unclosed, rfl⟩

/-- A body with strings of both quotes, a bracket in each of them, and brackets of its own. -/
theorem extract_agrees_with_marks_mixed :
    let body := "(@.a == \"x)\\\"(\") || @.b == '\")')".toList
    (inFilter.after body).isClosed = true ∧
      ∃ ws, body = writtenChars ws ∧ inFilter.marks body = writtenMarks ws ∧
        extract body = .ok ⟨spell 0 0 (glyphsFrom 0 ws), quotedStrings ws⟩ := by
  intro body
  have each : ∀ u ∈ body.inits,
      (inFilter.outside u).countP isClosing ≤ (inFilter.outside u).countP isOpening + 1 := by
    decide
  have brackets : ∀ u v, body = u ++ v →
      (inFilter.outside u).countP isClosing ≤ (inFilter.outside u).countP isOpening + 1 :=
    fun u v hu => each u ((List.mem_inits u body).mpr ⟨v, hu.symm⟩)
  have closed : (inFilter.after body).isClosed = true := by decide
  obtain ⟨agrees, lifted, -⟩ := extract_agrees_with_marks brackets
  obtain ⟨e, taken⟩ := agrees.mp closed
  obtain ⟨ws, whole, rfl, marked⟩ := lifted e taken
  exact ⟨closed, ws, whole, marked, taken⟩

end Filter

end DocumentPath
