import DocumentPath.Proofs.Literals.Glyphs

namespace DocumentPath.Filter

/-- A part of a text as the user wrote it: a quoted string, or a character outside the strings. -/
inductive Written
  | char (c : Char) (plain : isQuote c = false)
  | string (s : Infix.Quotation)

def Written.chars : Written → List Char
  | .char c _ => [c]
  | .string s => s.chars

def writtenChars (ws : List Written) : List Char := ws.flatMap Written.chars

/-- The quoted strings of a text, from left to right. -/
def quotedStrings : List Written → List String
  | [] => []
  | .char _ _ :: ws => quotedStrings ws
  | .string s :: ws => s.value :: quotedStrings ws

/-- The text without its strings, which are counted from a number on. -/
def glyphsFrom (k : Nat) : List Written → List Glyph
  | [] => []
  | .char c _ :: ws => .char c :: glyphsFrom k ws
  | .string _ :: ws => .string k :: glyphsFrom (k + 1) ws

/-- Taking the strings of a text out leaves its glyphs. -/
theorem extractFrom_written (s n k : Nat) (ws : List Written) (cs : List Char) :
    extractFrom (s + k) .plain (writtenChars ws ++ cs) =
      (extractFrom (s + k + (quotedStrings ws).length) .plain cs).map fun e =>
        ⟨spell s n (glyphsFrom k ws) ++ e.text, quotedStrings ws ++ e.strings⟩ := by
  induction ws generalizing k with
  | nil =>
    simp only [writtenChars, List.flatMap_nil, List.nil_append, quotedStrings, List.length_nil,
      Nat.add_zero]
    cases extractFrom (s + k) .plain cs <;> rfl
  | cons w ws ih =>
    have parts : writtenChars (w :: ws) ++ cs = w.chars ++ (writtenChars ws ++ cs) := by
      simp [writtenChars]
    rw [parts]
    cases w with
    | char c plain =>
      rw [Written.chars, Infix.extractFrom_plain (List.forall_mem_singleton.mpr plain), ih,
        quotedStrings]
      cases extractFrom (s + k + (quotedStrings ws).length) .plain cs <;> rfl
    | string q =>
      have count : s + k + (quotedStrings (.string q :: ws)).length =
          s + (k + 1) + (quotedStrings ws).length := by
        simp only [quotedStrings, List.length_cons]
        omega
      rw [Written.chars, Infix.extractFrom_quotation, Nat.add_assoc s k 1, ih, count]
      cases extractFrom (s + (k + 1) + (quotedStrings ws).length) .plain cs with
      | error fault => rfl
      | ok e =>
        simp only [Except.map, glyphsFrom, quotedStrings, spell_cons, Glyph.chars,
          List.append_assoc, List.cons_append]

theorem extract_written (n : Nat) (ws : List Written) :
    extract (writtenChars ws) = .ok ⟨spell 0 n (glyphsFrom 0 ws), quotedStrings ws⟩ := by
  have whole := extractFrom_written 0 n 0 ws []
  rw [List.append_nil, extractFrom.eq_1] at whole
  rw [extract, whole]
  simp [Except.map]

/-- What stands behind an opening quote that nothing closes. A backslash takes the character behind it
along, if there is one. -/
inductive Unclosed (quote : Char) : List Char → Prop
  | nil : Unclosed quote []
  | slash : Unclosed quote ['\\']
  | escaped {c : Char} {cs : List Char} : Unclosed quote cs → Unclosed quote ('\\' :: c :: cs)
  | char {c : Char} {cs : List Char} : c ≠ quote → c ≠ '\\' → Unclosed quote cs →
    Unclosed quote (c :: cs)

theorem plain_cons {quote c : Char} {escaped : Bool} {body : List (Bool × Char)}
    (h : escaped = false → c ≠ quote ∧ c ≠ '\\')
    (plain : ∀ d, (false, d) ∈ body → d ≠ quote ∧ d ≠ '\\') :
    ∀ d, (false, d) ∈ (escaped, c) :: body → d ≠ quote ∧ d ≠ '\\' := by
  intro d hd
  rcases List.mem_cons.mp hd with he | hd
  · obtain ⟨bare, same⟩ := Prod.mk.inj he
    rw [same]
    exact h bare.symm
  · exact plain d hd

/-- Behind an opening quote either another one closes the string, or nothing does. -/
theorem closed_or_unclosed (quote : Char) (cs : List Char) :
    (∃ body rest, cs = Infix.Quotation.inner body ++ quote :: rest ∧
      ∀ c, (false, c) ∈ body → c ≠ quote ∧ c ≠ '\\') ∨ Unclosed quote cs := by
  induction hl : cs.length using Nat.strong_induction_on generalizing cs with
  | _ m ih =>
    cases cs with
    | nil => exact .inr .nil
    | cons c cs =>
      by_cases slash : c = '\\'
      · subst slash
        cases cs with
        | nil => exact .inr .slash
        | cons d cs =>
          rcases ih cs.length (by simp only [← hl, List.length_cons]; omega) cs rfl with
            ⟨body, rest, rfl, plain⟩ | unclosed
          · exact .inl ⟨(true, d) :: body, rest, rfl, plain_cons (fun h => by cases h) plain⟩
          · exact .inr (.escaped unclosed)
      · by_cases closing : c = quote
        · exact .inl ⟨[], cs, by rw [closing]; rfl, by simp⟩
        · rcases ih cs.length (by simp only [← hl, List.length_cons]; omega) cs rfl with
            ⟨body, rest, rfl, plain⟩ | unclosed
          · exact .inl ⟨(false, c) :: body, rest, rfl, plain_cons (fun _ => ⟨closing, slash⟩) plain⟩
          · exact .inr (.char closing slash unclosed)

/-- The last quote that opens a string in a text is never closed. -/
def EndsOpen (quote : Char) (cs : List Char) : Prop :=
  ∃ ws rest, cs = writtenChars ws ++ quote :: rest ∧ isQuote quote = true ∧ Unclosed quote rest

/-- Read from left to right, a text is made of strings and of characters outside them, or its last
string is open. -/
theorem written_or_endsOpen (cs : List Char) :
    (∃ ws, writtenChars ws = cs) ∨ ∃ quote, EndsOpen quote cs := by
  induction hl : cs.length using Nat.strong_induction_on generalizing cs with
  | _ m ih =>
    cases cs with
    | nil => exact .inl ⟨[], rfl⟩
    | cons c cs =>
      by_cases quote : isQuote c = true
      · rcases closed_or_unclosed c cs with ⟨body, rest, rfl, plain⟩ | unclosed
        · let string := Written.string ⟨c, body, quote, plain⟩
          have chars (ws : List Written) : writtenChars (string :: ws) =
              c :: (Infix.Quotation.inner body ++ c :: writtenChars ws) := by
            simp [string, writtenChars, Written.chars, Infix.Quotation.chars]
          have shorter : rest.length < m := by
            simp only [← hl, List.length_cons, List.length_append]
            omega
          rcases ih rest.length shorter rest rfl with ⟨ws, rfl⟩ | ⟨q, ws, behind, rfl, isOpen⟩
          · exact .inl ⟨string :: ws, chars ws⟩
          · refine .inr ⟨q, string :: ws, behind, ?_, isOpen⟩
            rw [chars]
            simp
        · exact .inr ⟨c, [], cs, rfl, quote, unclosed⟩
      · have plain : isQuote c = false := by simpa using quote
        rcases ih cs.length (by simp [← hl]) cs rfl with ⟨ws, rfl⟩ | ⟨q, ws, behind, rfl, isOpen⟩
        · exact .inl ⟨.char c plain :: ws, rfl⟩
        · exact .inr ⟨q, .char c plain :: ws, behind, rfl, isOpen⟩

theorem extractFrom_unclosed {quote : Char} {cs : List Char} (h : Unclosed quote cs) (n : Nat)
    (read : List Char) :
    extractFrom n (.inside quote read false) cs = .error (.openString quote) := by
  induction h generalizing read with
  | nil => rfl
  | slash => rfl
  | escaped _ ih =>
    rw [extractFrom, if_neg (by simp), if_pos rfl, extractFrom, if_pos rfl]
    exact ih _
  | char closing slash _ ih =>
    rw [extractFrom, if_neg (by simp), if_neg slash, if_neg closing]
    exact ih _

theorem extractFrom_endsOpen {quote : Char} {cs : List Char} (h : EndsOpen quote cs) (n : Nat) :
    extractFrom n .plain cs = .error (.openString quote) := by
  obtain ⟨ws, rest, rfl, isQuote, unclosed⟩ := h
  have front := extractFrom_written n 0 0 ws (quote :: rest)
  rw [extractFrom, if_pos isQuote, extractFrom_unclosed unclosed] at front
  exact front

/-- A text whose strings can be taken out is made of strings and characters outside them. -/
theorem exists_written {n : Nat} {cs : List Char} {e : Extraction}
    (h : extractFrom n .plain cs = .ok e) : ∃ ws, writtenChars ws = cs := by
  rcases written_or_endsOpen cs with written | ⟨quote, isOpen⟩
  · exact written
  · rw [extractFrom_endsOpen isOpen] at h
    cases h

/-- Behind a text whose strings can be taken out they are taken out of what follows. -/
theorem extractFrom_append {n : Nat} {cs : List Char} {e : Extraction}
    (h : extractFrom n .plain cs = .ok e) (ds : List Char) :
    extractFrom n .plain (cs ++ ds) =
      (extractFrom (n + e.strings.length) .plain ds).map fun e' =>
        ⟨e.text ++ e'.text, e.strings ++ e'.strings⟩ := by
  obtain ⟨ws, rfl⟩ := exists_written h
  have alone := extractFrom_written n 0 0 ws []
  rw [List.append_nil, extractFrom, Nat.add_zero, h] at alone
  cases alone
  simpa using extractFrom_written n 0 0 ws ds

end DocumentPath.Filter
