import DocumentPath.Proofs.Literals.Normalizing

namespace DocumentPath.Filter

/-- The marks that no pass before the call form takes away or brings. -/
def isMark (c : Char) : Bool := c ∈ ['(', ')', ',']

def punctuation (cs : List Char) : List Char := cs.filter isMark

/-- The characters of a text outside its strings. -/
def unquoted : List Written → List Char
  | [] => []
  | .char c _ :: ws => c :: unquoted ws
  | .string _ :: ws => unquoted ws

def Glyph.mark? : Glyph → Option Char
  | .char c => if isMark c then some c else none
  | .string _ | .number _ => none

theorem not_isMark_of_class {p : Char → Bool} (h : ['(', ')', ','].all (fun d => !p d) = true)
    {c : Char} (hc : p c = true) : isMark c = false := by
  cases mark : isMark c with
  | false => rfl
  | true =>
    have outside := List.all_eq_true.mp h c (by simpa [isMark] using mark)
    rw [hc] at outside
    cases outside

theorem not_isMark_of_isBlank {c : Char} (h : Text.isBlank c = true) : isMark c = false :=
  not_isMark_of_class rfl h

theorem not_isMark_of_isNumberChar {c : Char} (h : isNumberChar c = true) : isMark c = false :=
  not_isMark_of_class rfl h

theorem punctuation_eq_nil {cs : List Char} (h : ∀ c ∈ cs, isMark c = false) :
    punctuation cs = [] :=
  List.filter_eq_nil_iff.mpr fun c hc => by simp [h c hc]

theorem punctuation_placeholder (i : Nat) : punctuation (placeholder i) = [] := by
  refine punctuation_eq_nil fun c hc => ?_
  rcases List.mem_cons.mp hc with rfl | hc
  · rfl
  · exact not_isMark_of_isNumberChar (isNumberChar_of_isDigit (Text.isDigit_of_mem_decimal hc))

/-- Places of literals have no marks. -/
theorem punctuation_spell (s n : Nat) (gs : List Glyph) :
    punctuation (spell s n gs) = gs.filterMap Glyph.mark? := by
  induction gs with
  | nil => rfl
  | cons g gs ih =>
    have parts : punctuation (spell s n (g :: gs)) =
        punctuation (g.chars s n) ++ punctuation (spell s n gs) := List.filter_append ..
    rw [parts, ih, List.filterMap_cons]
    cases g with
    | char c => cases h : isMark c <;> simp [punctuation, Glyph.chars, Glyph.mark?, h]
    | string i => rw [Glyph.chars, punctuation_placeholder]; rfl
    | number i => rw [Glyph.chars, punctuation_placeholder]; rfl

theorem marks_map_char {w : List Char} (h : ∀ c ∈ w, isMark c = false) :
    (w.map Glyph.char).filterMap Glyph.mark? = [] := by
  rw [List.filterMap_map, List.filterMap_eq_nil_iff]
  intro c hc
  simp [Glyph.mark?, h c hc]

theorem marks_glyphsFrom (k : Nat) (ws : List Written) :
    (glyphsFrom k ws).filterMap Glyph.mark? = punctuation (unquoted ws) := by
  induction ws generalizing k with
  | nil => rfl
  | cons w ws ih =>
    cases w with
    | string q => exact ih (k + 1)
    | char c _ =>
      rw [glyphsFrom, unquoted, List.filterMap_cons, ih]
      cases h : isMark c <;> simp [punctuation, Glyph.mark?, h]

theorem marks_dropWhile (gs : List Glyph) :
    (gs.dropWhile (Glyph.isChar Text.isBlank)).filterMap Glyph.mark? =
      gs.filterMap Glyph.mark? := by
  conv => rhs; rw [← List.takeWhile_append_dropWhile (p := Glyph.isChar Text.isBlank) (l := gs)]
  have none : (gs.takeWhile (Glyph.isChar Text.isBlank)).filterMap Glyph.mark? = [] := by
    refine List.filterMap_eq_nil_iff.mpr fun g hg => ?_
    have blank := List.all_eq_true.mp List.all_takeWhile g hg
    cases g with
    | char c => simp [Glyph.mark?, not_isMark_of_isBlank blank]
    | string i => rfl
    | number i => rfl
  rw [List.filterMap_append, none, List.nil_append]

theorem Joins.marks {gs hs : List Glyph} (h : Joins gs hs) :
    hs.filterMap Glyph.mark? = gs.filterMap Glyph.mark? := by
  induction h with
  | nil => rfl
  | string _ ih => rw [List.filterMap_cons, List.filterMap_cons, ih]
  | char _ _ ih => rw [List.filterMap_cons, List.filterMap_cons, ih]
  | gap blank _ _ ih =>
    rw [ih, List.filterMap_cons]
    simp [Glyph.mark?, not_isMark_of_isBlank blank]
  | @word c b gap gs hs first blanks last _ ih =>
    have front : ∀ d ∈ c :: (gap ++ ['i', 'n', b]), isMark d = false := by
      refine List.forall_mem_cons.mpr ⟨not_isMark_of_isBlank first, List.forall_mem_append.mpr
        ⟨fun d hd => not_isMark_of_isBlank (blanks d hd), ?_⟩⟩
      simp only [List.forall_mem_cons]
      exact ⟨rfl, rfl, not_isMark_of_isBlank last, List.forall_mem_nil _⟩
    have parts : Glyph.char c :: (gap ++ ['i', 'n', b]).map .char ++ gs =
        (c :: (gap ++ ['i', 'n', b])).map .char ++ gs := rfl
    have mark : (Glyph.char wordMark :: hs).filterMap Glyph.mark? = hs.filterMap Glyph.mark? := rfl
    rw [mark, ih, marks_dropWhile, parts, List.filterMap_append, marks_map_char front,
      List.nil_append]

theorem Lifts.marks {due : Bool} {k : Nat} {gs hs : List Glyph} {vs : List Value}
    (h : Lifts due k gs hs vs) : hs.filterMap Glyph.mark? = gs.filterMap Glyph.mark? := by
  induction h with
  | nil => rfl
  | string _ ih => rw [List.filterMap_cons, List.filterMap_cons, ih]
  | char _ _ ih => rw [List.filterMap_cons, List.filterMap_cons, ih]
  | @number k digits gs hs v vs _ inside _ _ _ ih =>
    have front : ∀ d ∈ '-' :: digits, isMark d = false :=
      List.forall_mem_cons.mpr ⟨rfl, fun d hd => not_isMark_of_isNumberChar (inside d hd)⟩
    have parts : Glyph.char '-' :: digits.map .char = ('-' :: digits).map .char := rfl
    have place : (Glyph.number k :: hs).filterMap Glyph.mark? = hs.filterMap Glyph.mark? := rfl
    rw [place, ih, parts, List.filterMap_append, marks_map_char front, List.nil_append]

/-- Up to the call form a text keeps the marks that were typed outside its strings. -/
theorem Stages.punctuation {ws : List Written} {e : Expression} (s : Stages (writtenChars ws) e) :
    punctuation s.normal = Filter.punctuation (unquoted ws) := by
  obtain ⟨hs, vs, ⟨gs, joins, lifts⟩, normal, _⟩ := s.normalizes
  rw [normal, punctuation_spell, lifts.marks, joins.marks, marks_glyphsFrom]

end DocumentPath.Filter
