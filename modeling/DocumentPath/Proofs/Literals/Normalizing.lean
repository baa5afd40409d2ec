import DocumentPath.Proofs.Literals.Quotations

namespace DocumentPath.Filter

namespace Glyph

/-- Whether the glyph is a character of a class. -/
def isChar (p : Char → Bool) : Glyph → Bool
  | char c => p c
  | string _ | number _ => false

end Glyph

/-- Whether the glyphs begin with the word `in` behind blanks, with a blank behind it. -/
def StartsWord (gs : List Glyph) : Prop :=
  ∃ (gap : List Char) (b : Char) (rest : List Glyph), (∀ c ∈ gap, Text.isBlank c = true) ∧
    Text.isBlank b = true ∧ gs = (gap ++ ['i', 'n', b]).map .char ++ rest

/-- How the words of a text are joined, glyph by glyph. -/
inductive Joins : List Glyph → List Glyph → Prop
  | nil : Joins [] []
  | string {i : Nat} {gs hs : List Glyph} : Joins gs hs → Joins (.string i :: gs) (.string i :: hs)
  | char {c : Char} {gs hs : List Glyph} : Text.isBlank c = false → Joins gs hs →
    Joins (.char c :: gs) (.char c :: hs)
  | gap {c : Char} {gs hs : List Glyph} : Text.isBlank c = true → ¬StartsWord gs → Joins gs hs →
    Joins (.char c :: gs) hs
  | word {c b : Char} {gap : List Char} {gs hs : List Glyph} : Text.isBlank c = true →
    (∀ d ∈ gap, Text.isBlank d = true) → Text.isBlank b = true →
    Joins (gs.dropWhile (Glyph.isChar Text.isBlank)) hs →
    Joins (.char c :: (gap ++ ['i', 'n', b]).map .char ++ gs) (.char wordMark :: hs)

/-- The glyphs of a text before its signed numbers are taken out. -/
def Unnumbered (gs : List Glyph) : Prop := ∀ i, .number i ∉ gs

theorem exists_joins {gs : List Glyph} (h : Unnumbered gs) : ∃ hs, Joins gs hs := by
  induction hl : gs.length using Nat.strong_induction_on generalizing gs with
  | _ m ih =>
    cases gs with
    | nil => exact ⟨[], .nil⟩
    | cons g gs =>
      have rest : Unnumbered gs := fun i hi => h i (List.mem_cons_of_mem g hi)
      have shorter : gs.length < m := by simp [← hl]
      cases g with
      | number i => exact absurd List.mem_cons_self (h i)
      | string i =>
        obtain ⟨hs, joins⟩ := ih gs.length shorter rest rfl
        exact ⟨_, .string joins⟩
      | char c =>
        cases blank : Text.isBlank c with
        | false =>
          obtain ⟨hs, joins⟩ := ih gs.length shorter rest rfl
          exact ⟨_, .char blank joins⟩
        | true =>
          by_cases word : StartsWord gs
          · obtain ⟨gap, b, back, hgap, hb, rfl⟩ := word
            have suffix := List.dropWhile_suffix (l := back) (Glyph.isChar Text.isBlank)
            have fewer : (back.dropWhile (Glyph.isChar Text.isBlank)).length < m := by
              have := suffix.length_le
              rw [List.length_append] at shorter
              omega
            have none : Unnumbered (back.dropWhile (Glyph.isChar Text.isBlank)) := fun i hi =>
              rest i (List.mem_append_right _ (suffix.subset hi))
            obtain ⟨hs, joins⟩ := ih _ fewer none rfl
            exact ⟨_, .word blank hgap hb joins⟩
          · obtain ⟨hs, joins⟩ := ih gs.length shorter rest rfl
            exact ⟨_, .gap blank word joins⟩

/-- The text behind ends a group or is empty, so no word goes on into it. -/
def Closes (tail : List Char) : Prop := ∀ c ∈ tail.head?, c = ')'

theorem Closes.isBlank {tail : List Char} (h : Closes tail) :
    tail.dropWhile Text.isBlank = tail := by
  cases tail with
  | nil => rfl
  | cons c cs =>
    have closing : c = ')' := h c rfl
    rw [closing]
    rfl

theorem dropWhile_spell {tail : List Char} (h : Closes tail) (s n : Nat) (gs : List Glyph) :
    (spell s n gs ++ tail).dropWhile Text.isBlank =
      spell s n (gs.dropWhile (Glyph.isChar Text.isBlank)) ++ tail := by
  induction gs with
  | nil => exact h.isBlank
  | cons g gs ih =>
    cases g with
    | char c =>
      cases hc : Text.isBlank c with
      | true =>
        rw [List.dropWhile_cons_of_pos (by exact hc), spell_char, List.cons_append,
          List.dropWhile_cons_of_pos hc, ih]
      | false =>
        rw [List.dropWhile_cons_of_neg (by simp [Glyph.isChar, hc]), spell_char, List.cons_append,
          List.dropWhile_cons_of_neg (by simp [hc])]
    | string i => rfl
    | number i => rfl

theorem exists_of_afterWord? {cs : List Char} {r : { rest : List Char // rest.length < cs.length }}
    (h : afterWord? cs = some r) :
    ∃ b rest, Text.isBlank b = true ∧ cs = 'i' :: 'n' :: b :: rest := by
  unfold afterWord? at h
  split at h
  · rename_i b rest
    split at h
    · exact ⟨b, rest, by assumption, rfl⟩
    · cases h
  · cases h

theorem afterWord?_of_not_startsWord {gs : List Glyph} (h : ¬StartsWord gs) {tail : List Char}
    (closes : Closes tail) (s n : Nat) :
    afterWord? ((spell s n gs ++ tail).dropWhile Text.isBlank) = none := by
  cases hw : afterWord? ((spell s n gs ++ tail).dropWhile Text.isBlank) with
  | none => rfl
  | some r =>
    exfalso
    obtain ⟨b, rest, blank, he⟩ := exists_of_afterWord? hw
    have parts := List.takeWhile_append_dropWhile (p := Text.isBlank)
      (l := spell s n gs ++ tail)
    have blanks : ∀ c ∈ (spell s n gs ++ tail).takeWhile Text.isBlank, Text.isBlank c = true :=
      fun c hc => List.all_eq_true.mp List.all_takeWhile c hc
    rw [he] at parts
    generalize (spell s n gs ++ tail).takeWhile Text.isBlank = gap at parts blanks
    have plain : ∀ c ∈ gap ++ ['i', 'n', b], c ≠ ')' ∧ c ≠ '#' := by
      intro c hc
      rcases List.mem_append.mp hc with hc | hc
      · have := blanks c hc
        constructor <;> rintro rfl <;> exact absurd this (by decide)
      · simp only [List.mem_cons, List.not_mem_nil, or_false] at hc
        rcases hc with rfl | rfl | rfl
        · decide
        · decide
        · constructor <;> rintro rfl <;> exact absurd blank (by decide)
    have whole : spell s n gs ++ tail = (gap ++ ['i', 'n', b]) ++ rest := by
      rw [← parts]
      simp
    -- the word cannot reach into the text behind, since that begins with a parenthesis
    have inside : ∃ front, spell s n gs = (gap ++ ['i', 'n', b]) ++ front := by
      rcases List.append_eq_append_iff.mp whole with ⟨m, hm, ht⟩ | ⟨m, hm, _⟩
      · cases m with
        | nil => exact ⟨[], by rw [hm, List.append_nil, List.append_nil]⟩
        | cons c m =>
          have closing : c = ')' := closes c (by rw [ht]; rfl)
          exact absurd closing (plain c (by rw [hm]; simp)).1
      · exact ⟨m, hm⟩
    obtain ⟨front, hf⟩ := inside
    obtain ⟨hs, rfl, _⟩ := exists_of_spell_eq_append (fun hmem => (plain _ hmem).2 rfl) hf
    exact h ⟨gap, b, hs, blanks, blank, rfl⟩

/-- Joining the words of a text joins its glyphs, however they are spelled. -/
theorem joinWords_spell {gs hs : List Glyph} (h : Joins gs hs) (s n : Nat) {tail : List Char}
    (closes : Closes tail) :
    joinWords (spell s n gs ++ tail) = spell s n hs ++ joinWords tail := by
  induction h with
  | nil => rfl
  | @string i _ _ _ ih =>
    have blank : ∀ c ∈ placeholder (s + i), Text.isBlank c = false := fun c hc =>
      (isClean_of_mem_placeholder c hc).1
    rw [spell_cons, spell_cons, List.append_assoc, List.append_assoc, Glyph.chars,
      Infix.joinWords_word blank, ih]
  | char hc _ ih =>
    rw [spell_char, spell_char, List.cons_append, List.cons_append, Infix.joinWords_cons hc, ih]
  | gap hc word _ ih =>
    rw [spell_char, List.cons_append, Infix.joinWords_blank hc,
      afterWord?_of_not_startsWord word closes]
    exact ih
  | @word c b gap gs _ hc hgap hb _ ih =>
    have written : spell s n (.char c :: (gap ++ ['i', 'n', b]).map .char ++ gs) ++ tail =
        (c :: gap) ++ (Infix.inWord ++ b :: (spell s n gs ++ tail)) := by
      rw [List.cons_append, spell_char, spell_append, spell_map_char]
      simp [Infix.inWord, Infix.symbol]
    have blanks : ∀ d ∈ c :: gap, Text.isBlank d = true := List.forall_mem_cons.mpr ⟨hc, hgap⟩
    have behind : (b :: (spell s n gs ++ tail)).head?.any Text.isBlank = true := hb
    rw [written, Infix.joinWords_in blanks (List.cons_ne_nil _ _) behind,
      List.dropWhile_cons_of_pos hb, dropWhile_spell closes, ih]
    rfl

theorem Joins.unnumbered {gs hs : List Glyph} (h : Joins gs hs) : Unnumbered hs := by
  induction h with
  | nil => exact fun _ => List.not_mem_nil
  | string _ ih =>
    intro i hi
    rcases List.mem_cons.mp hi with he | hi
    · cases he
    · exact ih i hi
  | char _ _ ih =>
    intro i hi
    rcases List.mem_cons.mp hi with he | hi
    · cases he
    · exact ih i hi
  | gap _ _ _ ih => exact ih
  | word _ _ _ _ ih =>
    intro i hi
    rcases List.mem_cons.mp hi with he | hi
    · cases he
    · exact ih i hi

/-- How signed numbers are taken out of a text, glyph by glyph. The flag says whether an operand is
due, and the numbers are counted from `k` on. -/
inductive Lifts : Bool → Nat → List Glyph → List Glyph → List Value → Prop
  | nil {due : Bool} {k : Nat} : Lifts due k [] [] []
  | string {due : Bool} {k i : Nat} {gs hs : List Glyph} {vs : List Value} : Lifts false k gs hs vs →
    Lifts due k (.string i :: gs) (.string i :: hs) vs
  | char {due : Bool} {k : Nat} {c : Char} {gs hs : List Glyph} {vs : List Value} :
    ¬(c = '-' ∧ due = true ∧ gs.head?.any (Glyph.isChar Char.isDigit) = true) →
    Lifts (startsOperand (some c)) k gs hs vs → Lifts due k (.char c :: gs) (.char c :: hs) vs
  | number {k : Nat} {digits : List Char} {gs hs : List Glyph} {v : Value} {vs : List Value} :
    digits.head?.any Char.isDigit = true → (∀ c ∈ digits, isNumberChar c = true) →
    gs.head?.any (Glyph.isChar isNumberChar) = false → readNumber? ('-' :: digits) = some v →
    Lifts false (k + 1) gs hs vs →
    Lifts true k (.char '-' :: digits.map .char ++ gs) (.number k :: hs) (v :: vs)

theorem head?_spell (p : Char → Bool) (sharp : p '#' = false) (s n : Nat) (gs : List Glyph)
    {tail : List Char} (ht : tail.head?.any p = false) :
    (spell s n gs ++ tail).head?.any p = gs.head?.any (Glyph.isChar p) := by
  cases gs with
  | nil => exact ht
  | cons g gs =>
    cases g with
    | char c => rfl
    | string i => simpa [spell, Glyph.chars, placeholder, Glyph.isChar] using sharp
    | number i => simpa [spell, Glyph.chars, placeholder, Glyph.isChar] using sharp

theorem head?_spell_end (p : Char → Bool) (sharp : p '#' = false) (s n : Nat) (gs : List Glyph) :
    (spell s n gs).head?.any p = gs.head?.any (Glyph.isChar p) := by
  have ends : ([] : List Char).head?.any p = false := rfl
  have head := head?_spell p sharp s n gs ends
  rwa [List.append_nil] at head

theorem startsOperand_placeholder (i : Nat) : startsOperand (placeholder i).getLast? = false :=
  Infix.startsOperand_of_word (List.cons_ne_nil _ _) Infix.isWordChar_of_mem_placeholder

theorem isNumberChar_of_isDigit {c : Char} (h : c.isDigit = true) : isNumberChar c = true := by
  simp [isNumberChar, h]

theorem head?_of_no_number {tail : List Char} (h : tail.head?.any isNumberChar = false) :
    tail.head?.any Char.isDigit = false := by
  cases tail with
  | nil => rfl
  | cons c cs =>
    cases hd : c.isDigit with
    | false => simpa using hd
    | true =>
      have digit : isNumberChar c = true := isNumberChar_of_isDigit hd
      rw [List.head?_cons, Option.any_some, digit] at h
      cases h

/-- A placeholder has nothing to lift. -/
theorem liftNumbers_placeholder (i : Nat) (literals : List Value) (previous : Option Char)
    (cs : List Char) :
    liftNumbers literals previous (placeholder i ++ cs) =
      (liftNumbers literals (placeholder i).getLast? cs).map
        (Infix.leadWith (placeholder i)) :=
  Infix.liftNumbers_word (List.cons_ne_nil _ _) (not_mem_placeholder (by decide) (by decide) i)
    literals previous cs

/-- Lifting the signed numbers of a text lifts them from its glyphs, however they are spelled. -/
theorem liftNumbers_spell {due : Bool} {k : Nat} {gs hs : List Glyph} {vs : List Value}
    (h : Lifts due k gs hs vs) (s m : Nat) {n : Nat} {literals : List Value}
    {previous : Option Char} {tail : List Char} (hp : startsOperand previous = due)
    (count : literals.length = n + k) (ht : tail.head?.any isNumberChar = false) :
    ∃ last, liftNumbers literals previous (spell s m gs ++ tail) =
      (liftNumbers (literals ++ vs) last tail).map (Infix.leadWith (spell s n hs)) := by
  induction h generalizing literals previous with
  | nil =>
    refine ⟨previous, ?_⟩
    rw [List.append_nil, spell_nil, spell_nil, List.nil_append]
    cases liftNumbers literals previous tail <;> rfl
  | @string due k i gs hs vs _ ih =>
    obtain ⟨last, lifted⟩ := ih (startsOperand_placeholder (s + i)) count
    refine ⟨last, ?_⟩
    rw [spell_cons, spell_cons, List.append_assoc, Glyph.chars, liftNumbers_placeholder, lifted,
      Infix.map_leadWith_append]
    rfl
  | @char due k c gs hs vs other _ ih =>
    obtain ⟨last, lifted⟩ := ih rfl count
    refine ⟨last, ?_⟩
    have head := head?_spell Char.isDigit rfl s m gs (head?_of_no_number ht)
    rw [spell_char, List.cons_append, liftNumbers, if_neg (by rwa [hp, head]), lifted, spell_char]
    cases liftNumbers (literals ++ vs) last tail <;> rfl
  | @number k digits gs hs v vs first inside stop read _ ih =>
    have grown : (literals ++ [v]).length = n + (k + 1) := by
      rw [List.length_append, count]
      rfl
    obtain ⟨last, lifted⟩ := ih (startsOperand_placeholder literals.length) grown
    refine ⟨last, ?_⟩
    have written : spell s m (.char '-' :: digits.map .char ++ gs) ++ tail =
        '-' :: (digits ++ (spell s m gs ++ tail)) := by
      rw [List.cons_append, spell_char, spell_append, spell_map_char, List.cons_append,
        List.append_assoc]
    have behind : (spell s m gs ++ tail).head?.any isNumberChar = false := by
      rw [head?_spell isNumberChar rfl s m gs ht, stop]
    rw [written, Infix.liftNumbers_digits first inside read hp behind, lifted,
      Infix.map_leadWith_append, List.append_assoc, List.singleton_append, spell_cons, Glyph.chars,
      count]

/-- A number in a text is made of glyphs of its own. -/
theorem exists_digits {s m : Nat} {gs : List Glyph}
    (h : (spell s m gs).head?.any Char.isDigit = true) :
    ∃ digits back, gs = digits.map .char ++ back ∧
      (spell s m gs).takeWhile isNumberChar = digits ∧
      (spell s m gs).dropWhile isNumberChar = spell s m back ∧
      digits.head?.any Char.isDigit = true ∧ (∀ c ∈ digits, isNumberChar c = true) ∧
      back.head?.any (Glyph.isChar isNumberChar) = false := by
  let digits := (spell s m gs).takeWhile isNumberChar
  have inside : ∀ c ∈ digits, isNumberChar c = true := fun c hc =>
    List.all_eq_true.mp List.all_takeWhile c hc
  have sharp : '#' ∉ digits := fun hmem => absurd (inside _ hmem) (by decide)
  have parts : spell s m gs = digits ++ (spell s m gs).dropWhile isNumberChar :=
    List.takeWhile_append_dropWhile.symm
  obtain ⟨back, hgs, hback⟩ := exists_of_spell_eq_append sharp parts
  refine ⟨digits, back, hgs, rfl, hback.symm, ?_, inside, ?_⟩
  · cases hd : spell s m gs with
    | nil => simp [hd] at h
    | cons d ds =>
      have digit : d.isDigit = true := by simpa [hd] using h
      have front : digits = d :: ds.takeWhile isNumberChar := by
        simp only [digits, hd]
        exact List.takeWhile_cons_of_pos (isNumberChar_of_isDigit digit)
      rw [front]
      exact digit
  · rw [← head?_spell_end isNumberChar rfl s m back, hback]
    cases hd : (spell s m gs).dropWhile isNumberChar with
    | nil => rfl
    | cons d ds =>
      have := List.head?_dropWhile_not isNumberChar (spell s m gs)
      simpa [hd] using this

/-- Where lifting goes through, there is a way to lift the glyphs. -/
theorem exists_lifts {gs : List Glyph} (h : Unnumbered gs) {s m k : Nat} {literals table : List Value}
    {previous : Option Char} {text : List Char}
    (ok : liftNumbers literals previous (spell s m gs) = .ok (text, table)) :
    ∃ hs vs, Lifts (startsOperand previous) k gs hs vs := by
  induction hl : gs.length using Nat.strong_induction_on
    generalizing gs k literals previous text table with
  | _ size ih =>
    cases gs with
    | nil => exact ⟨[], [], .nil⟩
    | cons g gs =>
      have rest : Unnumbered gs := fun i hi => h i (List.mem_cons_of_mem g hi)
      have shorter : gs.length < size := by simp [← hl]
      cases g with
      | number i => exact absurd List.mem_cons_self (h i)
      | string i =>
        rw [spell_cons, Glyph.chars, liftNumbers_placeholder] at ok
        obtain ⟨⟨inner, table'⟩, ok, _⟩ := exists_of_map_ok ok
        obtain ⟨hs, vs, lifts⟩ := ih gs.length shorter (k := k) rest ok rfl
        rw [startsOperand_placeholder] at lifts
        exact ⟨_, _, .string lifts⟩
      | char c =>
        have head := head?_spell_end Char.isDigit rfl s m gs
        rw [spell_char, liftNumbers] at ok
        split at ok
        · rename_i sign
          obtain ⟨rfl, due, digit⟩ := sign
          obtain ⟨digits, back, rfl, take, drop, first, inside, stop⟩ := exists_digits digit
          simp only [take, drop] at ok
          split at ok
          · cases ok
          · rename_i v read
            obtain ⟨⟨inner, table'⟩, ok, _⟩ := exists_of_bind_ok ok
            have fewer : back.length < size := by
              rw [List.length_append] at shorter
              omega
            have none : Unnumbered back := fun i hi => rest i (List.mem_append_right _ hi)
            obtain ⟨hs, vs, lifts⟩ := ih back.length fewer (k := k + 1) none ok rfl
            rw [startsOperand_placeholder] at lifts
            rw [due]
            exact ⟨_, _, .number first inside stop read lifts⟩
        · rename_i other
          obtain ⟨⟨inner, table'⟩, ok, _⟩ := exists_of_bind_ok ok
          obtain ⟨hs, vs, lifts⟩ := ih gs.length shorter (k := k) rest ok rfl
          rw [head] at other
          exact ⟨_, _, .char other lifts⟩

/-- The literals that have places in a text: strings, and numbers with a sign. -/
def HasPlace (v : Value) : Prop :=
  (∃ text, v = .string text) ∨ ∃ digits, readNumber? ('-' :: digits) = some v

theorem Lifts.signed {due : Bool} {k : Nat} {gs hs : List Glyph} {vs : List Value}
    (h : Lifts due k gs hs vs) : ∀ v ∈ vs, ∃ digits, readNumber? ('-' :: digits) = some v := by
  induction h with
  | nil => exact List.forall_mem_nil _
  | string _ ih => exact ih
  | char _ _ ih => exact ih
  | number _ _ _ read _ ih => exact List.forall_mem_cons.mpr ⟨⟨_, read⟩, ih⟩

/-- No signed number is a string. -/
theorem Lifts.not_string {due : Bool} {k : Nat} {gs hs : List Glyph} {vs : List Value}
    (h : Lifts due k gs hs vs) (text : String) : .string text ∉ vs := by
  intro hmem
  obtain ⟨digits, read⟩ := h.signed _ hmem
  rw [readNumber?] at read
  split at read
  · cases read
  · obtain ⟨x, _, hx⟩ := Option.map_eq_some_iff.mp read
    cases hx

/-- The glyphs of a text once its words are joined and its signed numbers are taken out. -/
def Normalizes (ws : List Written) (hs : List Glyph) (vs : List Value) : Prop :=
  ∃ gs, Joins (glyphsFrom 0 ws) gs ∧ Lifts true 0 gs hs vs

/-- The table of a text with some strings and some signed numbers. -/
def tableOf (pool : List String) (vs : List Value) : List Value := pool.map .string ++ vs

theorem tableOf_eq_nil {pool : List String} {vs : List Value} (h : tableOf pool vs = []) :
    pool = [] ∧ vs = [] := by
  obtain ⟨strings, numbers⟩ := List.append_eq_nil_iff.mp h
  exact ⟨List.map_eq_nil_iff.mp strings, numbers⟩

theorem unnumbered_glyphsFrom (k : Nat) (ws : List Written) : Unnumbered (glyphsFrom k ws) := by
  induction ws generalizing k with
  | nil => exact fun _ => List.not_mem_nil
  | cons w ws ih =>
    intro i hi
    cases w with
    | char c plain =>
      rcases List.mem_cons.mp hi with he | hi
      · cases he
      · exact ih k i hi
    | string q =>
      rcases List.mem_cons.mp hi with he | hi
      · cases he
      · exact ih (k + 1) i hi

theorem closes_nil : Closes [] := by simp [Closes]

/-- An accepted text normalizes. -/
theorem Stages.normalizes {ws : List Written} {e : Expression} (s : Stages (writtenChars ws) e) :
    ∃ hs vs, Normalizes ws hs vs ∧ s.normal = spell 0 (quotedStrings ws).length hs ∧
      s.table = tableOf (quotedStrings ws) vs := by
  have extraction : s.extraction = ⟨spell 0 (quotedStrings ws).length (glyphsFrom 0 ws),
      quotedStrings ws⟩ :=
    Except.ok.inj (s.extracted.symm.trans (extract_written _ ws))
  obtain ⟨gs, joins⟩ := exists_joins (unnumbered_glyphsFrom 0 ws)
  have joined := joinWords_spell joins 0 (quotedStrings ws).length closes_nil
  rw [List.append_nil, Infix.joinWords_nil, List.append_nil] at joined
  have ok := s.lifted
  rw [extraction] at ok
  simp only [joined] at ok
  obtain ⟨hs, vs, lifts⟩ := exists_lifts joins.unnumbered (k := 0) ok
  have count : ((quotedStrings ws).map Value.string).length = (quotedStrings ws).length + 0 :=
    List.length_map _
  have ends : ([] : List Char).head?.any isNumberChar = false := rfl
  obtain ⟨last, lifted⟩ := liftNumbers_spell lifts 0 (quotedStrings ws).length rfl count ends
  rw [List.append_nil, ok, liftNumbers] at lifted
  obtain ⟨normal, table⟩ := Prod.mk.inj (Except.ok.inj lifted)
  exact ⟨hs, vs, ⟨gs, joins, lifts⟩, by rw [normal, List.append_nil], table⟩

theorem Stages.hasPlace {cs : List Char} {e : Expression} (s : Stages cs e) :
    ∀ v ∈ s.table, HasPlace v := by
  obtain ⟨ws, rfl⟩ := exists_written s.extracted
  obtain ⟨hs, vs, ⟨gs, _, lifts⟩, _, table⟩ := s.normalizes
  rw [table, tableOf, List.forall_mem_append, List.forall_mem_map]
  exact ⟨fun text _ => .inl ⟨text, rfl⟩, fun v hv => .inr (lifts.signed v hv)⟩

end DocumentPath.Filter
