import DocumentPath.Proofs.Literals.Quotations

namespace DocumentPath.Filter

/-- The two quotes that strings stand between. -/
inductive Mark
  | single
  | double

namespace Mark

def char : Mark → Char
  | single => '\''
  | double => '"'

/-- A string between its quotes: a backslash stands before each quote of its own kind and before each
backslash. -/
def write (m : Mark) (s : String) : List Char :=
  m.char :: ((s.toList.flatMap fun c => if c = m.char ∨ c = '\\' then ['\\', c] else [c]) ++ [m.char])

def quotation (m : Mark) (s : String) : Infix.Quotation where
  quote := m.char
  body := s.toList.map fun c => (decide (c = m.char ∨ c = '\\'), c)
  isQuote := by cases m <;> rfl
  plain := by
    intro c hc
    obtain ⟨d, _, he⟩ := List.mem_map.mp hc
    obtain ⟨bare, rfl⟩ := Prod.mk.inj he
    exact not_or.mp (of_decide_eq_false bare)

theorem chars_quotation (m : Mark) (s : String) : (m.quotation s).chars = m.write s := by
  simp [quotation, Infix.Quotation.chars, Infix.Quotation.inner, write, List.flatMap_map]

theorem value_quotation (m : Mark) (s : String) : (m.quotation s).value = s := by
  simp [quotation, Infix.Quotation.value, Function.comp_def]

end Mark

/-- A text without quotes. -/
structure Unquoted where
  chars : List Char
  plain : ∀ c ∈ chars, isQuote c = false

/-- A quoted string and the text without quotes behind it. -/
structure Piece where
  mark : Mark
  content : String
  behind : Unquoted

/-- A text with its strings in quotes. -/
def sourceText (front : Unquoted) (pieces : List Piece) : List Char :=
  front.chars ++ pieces.flatMap fun p => p.mark.write p.content ++ p.behind.chars

/-- The same text with the places of its strings, which are counted from a number on. -/
def placedText (front : Unquoted) (first : Nat) (pieces : List Piece) : List Char :=
  front.chars ++ (pieces.zipIdx first).flatMap fun (p, i) => placeholder i ++ p.behind.chars

theorem extractFrom_sourceText (front : Unquoted) (first : Nat) (pieces : List Piece) :
    extractFrom first .plain (sourceText front pieces) =
      .ok ⟨placedText front first pieces, pieces.map Piece.content⟩ := by
  induction pieces generalizing front first with
  | nil =>
    rw [sourceText, placedText, List.flatMap_nil, List.append_nil, extractFrom_unquoted front.plain]
    simp
  | cons p pieces ih =>
    have source : sourceText front (p :: pieces) =
        front.chars ++ ((p.mark.quotation p.content).chars ++ sourceText p.behind pieces) := by
      rw [Mark.chars_quotation]
      simp [sourceText]
    rw [source, Infix.extractFrom_plain front.plain, Infix.extractFrom_quotation, ih,
      Mark.value_quotation]
    simp [Except.map, placedText]

/-- Strings that are written in quotes, in any mix of the two kinds and with any texts without quotes
between them, are read back one by one, and each leaves its place behind. Extraction fails for no
other reason than a last quote that is never closed, and then it names this quote. -/
theorem extract_sourceText :
    (∀ front pieces, extract (sourceText front pieces) =
      .ok ⟨placedText front 0 pieces, pieces.map Piece.content⟩) ∧
    ∀ cs fault, extract cs = .error fault ↔ ∃ quote, fault = .openString quote ∧ EndsOpen quote cs := by
  refine ⟨fun front pieces => extractFrom_sourceText front 0 pieces, fun cs fault => ?_⟩
  constructor
  · intro failed
    rcases written_or_endsOpen cs with ⟨ws, rfl⟩ | ⟨quote, isOpen⟩
    · rw [extract_written 0] at failed
      cases failed
    · refine ⟨quote, ?_, isOpen⟩
      exact Except.error.inj (failed.symm.trans (extractFrom_endsOpen isOpen 0))
  · rintro ⟨quote, rfl, isOpen⟩
    exact extractFrom_endsOpen isOpen 0

end DocumentPath.Filter
