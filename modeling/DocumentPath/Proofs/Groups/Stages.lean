import DocumentPath.Proofs.Groups.Rounds

namespace DocumentPath.Filter

/-- What a text goes through until an expression is read from it: its strings are taken out, its
words joined and its signed numbers taken out, and then it is put into call form. -/
structure Stages (cs : List Char) (e : Expression) where
  extraction : Extraction
  normal : List Char
  table : List Value
  call : List Char
  extracted : extract cs = .ok extraction
  lifted : liftNumbers (extraction.strings.map .string) none (joinWords extraction.text) =
    .ok (normal, table)
  rewritten : rewrite normal = .ok call
  read : readCall table call = .ok e

theorem parse_eq_ok_iff {text : String} {e : Expression} :
    Expression.parse text = .ok e ↔ Nonempty (Stages text.toList e) := by
  constructor
  · intro h
    rw [Expression.parse] at h
    obtain ⟨extraction, extracted, h⟩ := exists_of_bind_ok h
    obtain ⟨⟨normal, table⟩, lifted, h⟩ := exists_of_bind_ok h
    obtain ⟨w, rewritten, read⟩ := exists_of_bind_ok h
    exact ⟨⟨extraction, normal, table, w, extracted, lifted, rewritten, read⟩⟩
  · rintro ⟨s⟩
    simp only [Expression.parse, s.extracted, s.lifted, s.rewritten, s.read, bind, Except.bind]

variable {cs : List Char} {e : Expression}

theorem Stages.isClean (s : Stages cs e) : ∀ c ∈ s.normal, IsClean c := by
  refine isClean_of_liftNumbers s.lifted fun c hc => ?_
  rcases mem_joinWords hc with ⟨hmem, blank⟩ | rfl
  · exact ⟨blank, isQuote_of_mem_extractFrom s.extracted c hmem⟩
  · exact ⟨rfl, rfl⟩

theorem Stages.tidy (s : Stages cs e) : Tidy s.call ∧ operators s.call = [] :=
  rewrite_spec s.rewritten s.isClean

/-- Where no call is read, groups have just lost their parentheses. -/
theorem Stages.leaf (s : Stages cs e) (h : e.isCall = false) :
    '(' ∉ s.call ∧ s.call = bare s.normal := by
  have flat : '(' ∉ s.call := by
    rcases readCall_cases s.read with ⟨number, _, _⟩ | ⟨op, inner, es, _, _, rfl⟩ | ⟨opening, _⟩
    · exact fun hmem => (no_parens_of_isNumber number _ hmem).1 rfl
    · cases h
    · exact opening
  exact ⟨flat, eq_bare_of_rewrite s.rewritten flat⟩

/-- A text without quotes has no strings to take out. -/
theorem extractFrom_unquoted (h : ∀ c ∈ cs, isQuote c = false) (n : Nat) :
    extractFrom n .plain cs = .ok ⟨cs, []⟩ := by
  have plain := Infix.extractFrom_plain h n []
  rw [List.append_nil] at plain
  rw [plain]
  simp [extractFrom, Except.map]

theorem extract_of_unquoted (h : ∀ c ∈ cs, isQuote c = false) : extract cs = .ok ⟨cs, []⟩ :=
  extractFrom_unquoted h 0

/-- Without blanks there are no words to join. -/
theorem joinWords_of_no_blank (h : ∀ c ∈ cs, Text.isBlank c = false) : joinWords cs = cs := by
  have word := Infix.joinWords_word h []
  rwa [List.append_nil, Infix.joinWords_nil, List.append_nil] at word

def isInk (c : Char) : Bool := !Text.isBlank c

/-- Where no word `in` becomes a mark, joining just drops the blanks. -/
theorem joinWords_eq_filter (h : wordMark ∉ joinWords cs) : joinWords cs = cs.filter isInk := by
  fun_induction joinWords cs with
  | case1 => rfl
  | case2 => exact absurd List.mem_cons_self h
  | case3 d cs blank _ ih => rw [ih h, List.filter_cons_of_neg (by simp [isInk, blank])]
  | case4 d cs word ih =>
    rw [ih fun hmem => h (List.mem_cons_of_mem d hmem),
      List.filter_cons_of_pos (by simpa [isInk] using word)]

/-- Lifting takes away only minus signs and numbers behind them. -/
theorem mem_of_liftNumbers {literals table : List Value} {previous : Option Char}
    {text : List Char} (h : liftNumbers literals previous cs = .ok (text, table)) {c : Char}
    (hc : c ∈ cs) (minus : c ≠ '-') (number : isNumberChar c = false) : c ∈ text := by
  fun_induction liftNumbers literals previous cs generalizing text table with
  | case1 => cases hc
  | case2 => cases h
  | case3 literals previous d cs sign number' v read =>
    rename_i ih
    obtain ⟨rest, hl, h⟩ := exists_of_bind_ok h
    cases h
    rcases List.mem_cons.mp hc with rfl | hc
    · exact absurd sign.1 minus
    · rw [← List.takeWhile_append_dropWhile (p := isNumberChar) (l := cs)] at hc
      rcases List.mem_append.mp hc with hc | hc
      · have := List.all_eq_true.mp List.all_takeWhile c hc
        rw [number] at this
        cases this
      · exact List.mem_append_right _ (ih hl hc)
  | case4 literals previous d cs other ih =>
    obtain ⟨lifted, hl, h⟩ := exists_of_bind_ok h
    cases h
    rcases List.mem_cons.mp hc with rfl | hc
    · exact List.mem_cons_self
    · exact List.mem_cons_of_mem d (ih hl hc)

theorem exists_liftNumbers_append {w : List Char} (unsigned : '-' ∉ w) (literals : List Value)
    (previous : Option Char) (cs : List Char) :
    ∃ last, liftNumbers literals previous (w ++ cs) =
      (liftNumbers literals last cs).map (Infix.leadWith w) := by
  by_cases hne : w = []
  · refine ⟨previous, ?_⟩
    rw [hne, List.nil_append]
    cases liftNumbers literals previous cs <;> rfl
  · exact ⟨_, Infix.liftNumbers_word hne unsigned literals previous cs⟩

/-- Without a minus sign there is nothing to lift. -/
theorem liftNumbers_of_unsigned (h : '-' ∉ cs) (literals : List Value) (previous : Option Char) :
    liftNumbers literals previous cs = .ok (cs, literals) := by
  obtain ⟨last, whole⟩ := exists_liftNumbers_append h literals previous []
  rw [List.append_nil] at whole
  rw [whole, liftNumbers]
  simp [Except.map, Infix.leadWith]

/-- What stands in front of the first minus sign stays there. -/
theorem exists_of_liftNumbers_append {w : List Char} (hne : w ≠ []) (unsigned : '-' ∉ w)
    {literals table : List Value} {previous : Option Char} {text : List Char}
    (h : liftNumbers literals previous (w ++ cs) = .ok (text, table)) :
    ∃ rest, liftNumbers literals w.getLast? cs = .ok (rest, table) ∧ text = w ++ rest := by
  rw [Infix.liftNumbers_word hne unsigned] at h
  obtain ⟨⟨rest, table'⟩, lifted, same⟩ := exists_of_map_ok h
  obtain ⟨rfl, rfl⟩ := Prod.mk.inj same
  exact ⟨rest, lifted, rfl⟩

end DocumentPath.Filter
