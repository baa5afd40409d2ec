import DocumentPath.Proofs.Json.Nesting
import DocumentPath.Proofs.Outlines.Brackets

namespace DocumentPath

open Scanner

theorem outside_star (cs : List Char) : start.outside ('*' :: cs) = '*' :: start.outside cs :=
  outside_cons start '*' cs

theorem excess_star (cs : List Char) :
    excess '\x7b' '\x7d' ('*' :: cs) = Json.braceExcess (start.outside cs) := by
  rw [excess_eq, outside_star]
  simp [Json.braceExcess]

theorem isBalanced_object {limit : Nat} {cs : List Char} {j : Json}
    (h : Json.read? limit cs = some j) : isBalanced '\x7b' '\x7d' ('*' :: cs) = true := by
  obtain ⟨closed, braces⟩ := Json.scan_document h
  have after : start.after ('*' :: cs) = start := closed
  rw [isBalanced, excess_star, braces, after]
  rfl

theorem excess_object {limit : Nat} {cs u v : List Char} {j : Json}
    (h : Json.read? limit cs = some j) (hj : j.isObject = true) (hu : '*' :: cs = u ++ '.' :: v) :
    0 < excess '\x7b' '\x7d' u := by
  cases u with
  | nil => exact absurd (List.cons.inj hu).1 (by decide)
  | cons c u =>
    obtain ⟨rfl, rfl⟩ := List.cons.inj hu
    rw [excess_star]
    exact Json.braceExcess_object h hj

/-- A key that is written without quotes. -/
structure BareKey where
  chars : List Char
  ne_nil : chars ≠ []
  plain : ∀ c ∈ chars, c ∉ ['.', '"', '(', ')', '[', ']', '\x7b', '\x7d']
  head : chars.head? ≠ some '*'

/-- A key that is written with quotes around it. -/
structure QuotedKey where
  chars : List Char
  plain : ∀ c ∈ chars, c ≠ '"' ∧ c ≠ '\\'

/-- A step as it is written. -/
inductive StepText
  | bare (key : BareKey)
  | quoted (key : QuotedKey)

namespace StepText

def chars : StepText → List Char
  | .bare key => key.chars
  | .quoted key => '"' :: (key.chars ++ ['"'])

/-- The step that is written. A bare key counts as quoted when it needs quotes in a text of the
path. -/
def step : StepText → Step
  | .bare key =>
    ⟨String.ofList key.chars, decide ('+' ∈ key.chars) || key.chars.head?.any Char.isDigit⟩
  | .quoted key => ⟨String.ofList key.chars, true⟩

end StepText

/-- A filter that is written between brackets. -/
structure BracketFilter where
  tree : Infix.Tree
  text : List Char
  isText : Infix.IsText tree text
  isAscii : tree.IsAscii

/-- A filter that is written as a document. -/
structure ObjectFilter where
  text : List Char
  members : List (String × Json)
  expression : Expression
  read : Json.read? Json.depthLimit text = some (.object members)
  meaning : Expression.ofJson (.object members) = .ok expression

/-- A wildcard as it is written, with its filter. -/
inductive WildcardText
  | star
  | brackets
  | bracketFilter (filter : BracketFilter)
  | objectFilter (filter : ObjectFilter)

namespace WildcardText

def chars : WildcardText → List Char
  | .star => ['*']
  | .brackets => ['[', '*', ']']
  | .bracketFilter filter => bracketed filter.text
  | .objectFilter filter => '*' :: filter.text

def filter : WildcardText → Option Expression
  | .star | .brackets => none
  | .bracketFilter filter => some filter.tree.expression
  | .objectFilter filter => some filter.expression

end WildcardText

inductive PieceText
  | step (text : StepText)
  | wildcard (text : WildcardText)

namespace PieceText

def chars : PieceText → List Char
  | .step text => text.chars
  | .wildcard text => text.chars

def part : PieceText → Part
  | .step text => .step text.step
  | .wildcard text => .wildcard text.filter

end PieceText

/-- A path as it is written: steps, then wildcards with the steps behind each. -/
structure PathText where
  start : List StepText
  levels : List (WildcardText × List StepText)

namespace PathText

def pieces (path : PathText) : List PieceText :=
  path.start.map .step ++ path.levels.flatMap fun (wildcard, steps) =>
    .wildcard wildcard :: steps.map .step

/-- The root, and behind it the pieces with a dot before each. -/
def chars (path : PathText) : List Char :=
  if path.pieces = [] then ['$']
  else '$' :: '.' :: ['.'].intercalate (path.pieces.map PieceText.chars)

def outline (path : PathText) : Outline :=
  ⟨path.start.map StepText.step, path.levels.map fun (wildcard, steps) =>
    (wildcard.filter, steps.map StepText.step)⟩

end PathText

theorem StepText.crosses (step : StepText) : Crosses (· ≠ '.') 0 0 step.chars := by
  cases step with
  | bare key =>
    refine crosses_of_plain (fun c hc => ?_) fun c hc => ?_
    · have other := key.plain c hc
      simp only [List.mem_cons, List.not_mem_nil, or_false, not_or] at other
      by_cases apostrophe : c = '\''
      · exact .inr ⟨apostrophe, Int.le_refl 0⟩
      · exact .inl (by simp [isPlain, other, apostrophe])
    · rintro rfl
      exact absurd (key.plain '.' hc) (by decide)
  | quoted key =>
    let quotation : Infix.Quotation :=
      ⟨'"', key.chars.map fun c => (false, c), rfl, fun c hc => key.plain c (by simpa using hc)⟩
    have inner : Infix.Quotation.inner (key.chars.map fun c => (false, c)) = key.chars := by
      simp [Infix.Quotation.inner, List.flatMap_map]
    have same : quotation.chars = (StepText.quoted key).chars := by
      rw [Infix.Quotation.chars, inner]
      rfl
    rw [← same]
    exact Infix.crosses_quotation _ quotation (.inl rfl)

theorem Step.unquoted?_quoted (cs : List Char) :
    Step.unquoted? ('"' :: (cs ++ ['"'])) = some cs := by
  cases cs with
  | nil => rfl
  | cons c cs =>
    have last : (c :: cs ++ ['"']).getLast? = some '"' := List.getLast?_concat
    rw [List.cons_append] at last ⊢
    rw [Step.unquoted?, if_pos last, ← List.cons_append, List.dropLast_concat]

theorem StepText.ofText_chars (text : StepText) : Step.ofText text.chars = text.step := by
  cases text with
  | bare key =>
    have unquoted : Step.unquoted? key.chars = none := by
      rw [Step.unquoted?.eq_2]
      rintro c cs h
      exact absurd (key.plain '"' (by simp [h])) (by decide)
    have brackets : (key.chars.any fun c => c ∈ ['(', ')', '+', '[', ']']) =
        decide ('+' ∈ key.chars) := by
      rw [Bool.eq_iff_iff, List.any_eq_true, decide_eq_true_eq]
      constructor
      · rintro ⟨c, hc, hmem⟩
        have other := key.plain c hc
        simp only [List.mem_cons, List.not_mem_nil, or_false, not_or, decide_eq_true_eq] at other hmem
        have plus : c = '+' := by simpa [other] using hmem
        exact plus ▸ hc
      · intro hc
        exact ⟨'+', hc, by decide⟩
    rw [StepText.chars, Step.ofText, unquoted, StepText.step, Step.needsQuotes, brackets]
  | quoted key =>
    rw [StepText.chars, Step.ofText, Step.unquoted?_quoted, StepText.step]

theorem StepText.chars_eq_cons (text : StepText) :
    ∃ c cs, text.chars = c :: cs ∧ c ≠ '[' ∧ c ≠ '*' := by
  cases text with
  | quoted key => exact ⟨'"', _, rfl, by decide, by decide⟩
  | bare key =>
    cases h : key.chars with
    | nil => exact absurd h key.ne_nil
    | cons c cs =>
      refine ⟨c, cs, h, ?_, ?_⟩
      · rintro rfl
        exact absurd (key.plain '[' (by simp [h])) (by decide)
      · rintro rfl
        exact key.head (by simp [h])

namespace Outline

/-- A wildcard with a filter in brackets is read from its pieces. -/
theorem readParts_bracket {cs : List Char}
    (balanced : isBalanced '[' ']' ('[' :: cs) = true)
    (isOpen : OpenAtDots '[' ']' ('[' :: cs)) (path : List Char) (more : List (List Char)) :
    readParts path (splitOutside '.' ('[' :: cs) ++ more) = do
      let filter ← Filter.ofBrackets ('[' :: cs)
      return .wildcard filter :: (← readParts path more) := by
  obtain ⟨q, qs, parted⟩ := splitOutside_cons (c := '[') (by decide) cs
  obtain ⟨p, ps, h, parted', joined⟩ := joinFilter_splitOutside balanced isOpen path more
  cases parted.symm.trans parted'
  rw [parted, List.cons_append, readParts, if_pos rfl, joined]

/-- A wildcard with a filter in braces is read from its pieces. -/
theorem readParts_star {cs : List Char}
    (balanced : isBalanced '\x7b' '\x7d' ('*' :: cs) = true)
    (isOpen : OpenAtDots '\x7b' '\x7d' ('*' :: cs)) (path : List Char) (more : List (List Char)) :
    readParts path (splitOutside '.' ('*' :: cs) ++ more) = do
      let filter ← Expression.ofJsonText cs
      return .wildcard filter :: (← readParts path more) := by
  obtain ⟨q, qs, parted⟩ := splitOutside_cons (c := '*') (by decide) cs
  obtain ⟨p, ps, h, parted', joined⟩ := joinFilter_splitOutside balanced isOpen path more
  cases parted.symm.trans parted'
  rw [parted, List.cons_append, readParts, if_neg (by decide), if_pos rfl, joined]
  rfl

/-- A filter that was read stands before the parts behind it. -/
theorem readParts_wildcard (filter : Option Expression) (path : List Char)
    (more : List (List Char)) :
    (do
      let filter ← (Except.ok filter : Except Error (Option Expression))
      return Part.wildcard filter :: (← readParts path more)) =
      (readParts path more).map (Part.wildcard filter :: ·) := by
  cases readParts path more <;> rfl

/-- A piece that begins no wildcard is a step. -/
theorem readParts_step {c : Char} (bracket : c ≠ '[') (star : c ≠ '*') (cs path : List Char)
    (more : List (List Char)) :
    readParts path ((c :: cs) :: more) =
      (readParts path more).map (.step (Step.ofText (c :: cs)) :: ·) := by
  rw [readParts, if_neg bracket, if_neg star]
  cases readParts path more <;> rfl

end Outline

theorem StepText.readParts_step (text : StepText) (path : List Char) (more : List (List Char)) :
    Outline.readParts path (splitOutside '.' text.chars ++ more) =
      (Outline.readParts path more).map (.step text.step :: ·) := by
  obtain ⟨c, cs, h, bracket, star⟩ := text.chars_eq_cons
  have whole : splitOutside '.' text.chars = [text.chars] := splitOutside_of_no_dot text.crosses.2
  rw [whole, h, List.singleton_append, Outline.readParts_step bracket star, ← h, text.ofText_chars]

theorem BracketFilter.ofBrackets_text (filter : BracketFilter) :
    Filter.ofBrackets (bracketed filter.text) = .ok (some filter.tree.expression) := by
  obtain ⟨extraction, extracted, something, supported⟩ :=
    Infix.extract_isText filter.isText filter.isAscii
  have isText : Infix.IsText filter.tree (String.ofList filter.text).toList := by
    rw [String.toList_ofList]
    exact filter.isText
  rw [ofBrackets_bracketed extracted something supported, Infix.parse_written isText]
  rfl

theorem ObjectFilter.ofJsonText_text (filter : ObjectFilter) :
    Expression.ofJsonText filter.text = .ok (some filter.expression) := by
  rw [Expression.ofJsonText_of_read? filter.read, filter.meaning]
  rfl

theorem WildcardText.readParts_wildcard (text : WildcardText) (path : List Char)
    (more : List (List Char)) :
    Outline.readParts path (splitOutside '.' text.chars ++ more) =
      (Outline.readParts path more).map (.wildcard text.filter :: ·) := by
  cases text with
  | star =>
    have noDot : '.' ∉ ['*'] := by decide
    exact (Outline.readParts_star rfl (openAtDots_of_no_dot _ _ noDot) path more).trans
      (Outline.readParts_wildcard none path more)
  | brackets =>
    have noDot : '.' ∉ ['[', '*', ']'] := by decide
    exact (Outline.readParts_bracket rfl (openAtDots_of_no_dot _ _ noDot) path more).trans
      (Outline.readParts_wildcard none path more)
  | bracketFilter filter =>
    have crosses : Crosses Infix.IsInner 2 2 filter.text :=
      Infix.crosses_isText filter.isText (by decide)
    refine (Outline.readParts_bracket (isBalanced_bracketed crosses)
      (fun u v h _ => excess_bracketed crosses h) path more).trans ?_
    rw [← bracketed, filter.ofBrackets_text]
    exact Outline.readParts_wildcard _ path more
  | objectFilter filter =>
    refine (Outline.readParts_star (isBalanced_object filter.read)
      (fun u v h _ => excess_object filter.read rfl h) path more).trans ?_
    rw [filter.ofJsonText_text]
    exact Outline.readParts_wildcard _ path more

namespace PieceText

/-- Behind a piece the scanner of the path is as it was before it. -/
theorem after_chars (piece : PieceText) : Scanner.start.after piece.chars = Scanner.start := by
  cases piece with
  | step text => exact text.crosses.1
  | wildcard text =>
    cases text with
    | star => rfl
    | brackets => rfl
    | bracketFilter filter => exact after_bracketed (Infix.crosses_isText filter.isText (by decide))
    | objectFilter filter => exact (Json.scan_document filter.read).1

/-- The pieces between dots that a piece of the path was parted into are read as its part. -/
theorem readParts_chars (piece : PieceText) (path : List Char) (more : List (List Char)) :
    Outline.readParts path (splitOutside '.' piece.chars ++ more) =
      (Outline.readParts path more).map (piece.part :: ·) := by
  cases piece with
  | step text => exact text.readParts_step path more
  | wildcard text => exact text.readParts_wildcard path more

theorem splitOutside_intercalate {pieces : List PieceText} (h : pieces ≠ []) :
    splitOutside '.' (['.'].intercalate (pieces.map chars)) =
      pieces.flatMap fun piece => splitOutside '.' piece.chars := by
  have after : ∀ text ∈ pieces.map chars, Scanner.start.after text = Scanner.start := by
    intro text htext
    obtain ⟨piece, -, rfl⟩ := List.mem_map.mp htext
    exact piece.after_chars
  rw [DocumentPath.splitOutside_intercalate (List.map_eq_nil_iff.not.mpr h) after, List.flatMap_map]

theorem readParts_pieces (pieces : List PieceText) (path : List Char) :
    Outline.readParts path (pieces.flatMap fun piece => splitOutside '.' piece.chars) =
      .ok (pieces.map part) := by
  induction pieces with
  | nil => rw [List.flatMap_nil, Outline.readParts, List.map_nil]
  | cons piece pieces ih =>
    rw [List.flatMap_cons, readParts_chars, ih]
    rfl

end PieceText

namespace PathText

theorem ofParts_steps (steps : List StepText) (parts : List Part) :
    Outline.ofParts ((steps.map PieceText.step).map PieceText.part ++ parts) =
      ⟨steps.map StepText.step ++ (Outline.ofParts parts).start,
        (Outline.ofParts parts).levels⟩ := by
  induction steps with
  | nil => rfl
  | cons step steps ih =>
    have first : Outline.ofParts
        ((((step :: steps).map PieceText.step).map PieceText.part) ++ parts) =
        Outline.cons (.step step.step)
          (Outline.ofParts ((steps.map PieceText.step).map PieceText.part ++ parts)) := rfl
    rw [first, ih]
    rfl

theorem ofParts_levels (levels : List (WildcardText × List StepText)) :
    Outline.ofParts ((levels.flatMap fun (wildcard, steps) =>
        PieceText.wildcard wildcard :: steps.map PieceText.step).map PieceText.part) =
      ⟨[], levels.map fun (wildcard, steps) => (wildcard.filter, steps.map StepText.step)⟩ := by
  induction levels with
  | nil => rfl
  | cons level levels ih =>
    obtain ⟨wildcard, steps⟩ := level
    have first (parts : List Part) : Outline.ofParts
        (PieceText.part (.wildcard wildcard) :: parts) =
          Outline.cons (.wildcard wildcard.filter) (Outline.ofParts parts) := rfl
    rw [List.flatMap_cons, List.cons_append, List.map_cons, List.map_append, first, ofParts_steps,
      ih]
    simp [Outline.cons]

theorem ofParts_pieces (path : PathText) :
    Outline.ofParts (path.pieces.map PieceText.part) = path.outline := by
  rw [pieces, List.map_append, ofParts_steps, ofParts_levels, List.append_nil]
  rfl

/-- A path is read as the steps, wildcards and filters that it was written from. -/
theorem ofPath_chars (path : PathText) :
    Outline.ofPath (String.ofList path.chars) = .ok path.outline ∧
    ∀ filter : BracketFilter,
      Expression.parse (String.ofList filter.text) = .ok filter.tree.expression := by
  constructor
  · rw [Outline.ofPath, String.toList_ofList, chars]
    split_ifs with root
    · have outline := path.ofParts_pieces
      rw [root] at outline
      rw [← outline]
      rfl
    · show (Outline.readParts _ (splitOutside '.' _)).map Outline.ofParts = _
      rw [PieceText.splitOutside_intercalate root, PieceText.readParts_pieces]
      exact congrArg Except.ok path.ofParts_pieces
  · intro filter
    apply Infix.parse_written
    rw [String.toList_ofList]
    exact filter.isText

/-- Behind a dot there must be a piece, and a bare key may count as quoted. -/
theorem ofPath_dot_without_pieces :
    let path : PathText := ⟨[], []⟩
    let text := '$' :: '.' :: ['.'].intercalate (path.pieces.map PieceText.chars)
    path.outline = ⟨[], []⟩ ∧
    Outline.ofPath (String.ofList text) = .error (.query (.emptyStep "$.")) ∧
    Outline.ofPath "$.1" = .ok ⟨[⟨"1", true⟩], []⟩ := by
  refine ⟨rfl, ?_, ?_⟩ <;> with_unfolding_all rfl

example : Outline.ofPath "$.a.\"b.c\".[?(@.e==\"].'\")].d.*" =
    .ok ⟨[⟨"a", false⟩, ⟨"b.c", true⟩],
      [(some (.call .looseEq [.element "e", .literal (.string "].'")]), [⟨"d", false⟩]),
        (none, [])]⟩ := by
  with_unfolding_all rfl

end PathText

end DocumentPath
