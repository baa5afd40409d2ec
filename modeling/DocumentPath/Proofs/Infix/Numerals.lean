import DocumentPath.Proofs.Adjacency.Leaves
import DocumentPath.Proofs.Infix.Frames

namespace DocumentPath.Infix

open DocumentPath.Filter

/-- Digits and dots with a digit in front. -/
structure NumberText where
  chars : List Char
  first : chars.head?.any Char.isDigit = true
  inside : ∀ c ∈ chars, isNumberChar c = true

theorem isNumberChar_eq_true {c : Char} (h : isNumberChar c = true) : c.isDigit = true ∨ c = '.' := by
  simpa [isNumberChar] using h

/-- A text of digits and dots begins with its digits, and a dot stands behind them unless it ends. -/
theorem exists_leading_digits {cs : List Char} (h : ∀ c ∈ cs, isNumberChar c = true) :
    ∃ ds rest, cs = ds ++ rest ∧ (∀ c ∈ ds, c.isDigit = true) ∧
      (rest = [] ∨ ∃ more, rest = '.' :: more) := by
  refine ⟨cs.takeWhile Char.isDigit, cs.dropWhile Char.isDigit,
    List.takeWhile_append_dropWhile.symm, List.all_eq_true.mp List.all_takeWhile, ?_⟩
  cases hr : cs.dropWhile Char.isDigit with
  | nil => exact .inl rfl
  | cons c more =>
    have mem : c ∈ cs := (List.dropWhile_suffix _).subset (hr ▸ List.mem_cons_self)
    have stop : c.isDigit = false := by
      have := List.head?_dropWhile_not Char.isDigit cs
      rw [hr] at this
      simpa using this
    rcases isNumberChar_eq_true (h c mem) with digit | rfl
    · rw [stop] at digit
      cases digit
    · exact .inr ⟨more, rfl⟩

namespace NumberText

theorem exists_cons (d : NumberText) : ∃ c cs, d.chars = c :: cs ∧ c.isDigit = true := by
  have first := d.first
  cases h : d.chars with
  | nil =>
    rw [h] at first
    cases first
  | cons c cs =>
    rw [h] at first
    exact ⟨c, cs, rfl, by simpa using first⟩

theorem isWordChar (d : NumberText) : ∀ c ∈ d.chars, isWordChar c = true := by
  intro c hc
  rcases isNumberChar_eq_true (d.inside c hc) with digit | rfl
  · exact isWordChar_of_isDigit digit
  · rfl

/-- A number, digits with a dot behind them, or more dots than a number has. -/
theorem shapes (d : NumberText) :
    (∃ whole places, d.chars = (Numeral.mk false whole places).magnitude) ∨
      (∃ whole : Digits, d.chars = whole.chars ++ ['.']) ∨
      ∃ (whole : Digits) (places more : List Char), (∀ c ∈ places, c.isDigit = true) ∧
        d.chars = whole.chars ++ '.' :: (places ++ '.' :: more) := by
  obtain ⟨ds, rest, split, digits, behind⟩ := exists_leading_digits d.inside
  have ne_nil : ds ≠ [] := by
    rintro rfl
    obtain ⟨c, cs, hc, digit⟩ := d.exists_cons
    rcases behind with rfl | ⟨more, rfl⟩
    · rw [split] at hc
      cases hc
    · rw [split] at hc
      cases hc
      cases digit
  let whole : Digits := ⟨ds, ne_nil, digits⟩
  rcases behind with rfl | ⟨more, rfl⟩
  · exact .inl ⟨whole, none, split⟩
  · have inside : ∀ c ∈ more, isNumberChar c = true := fun c hc => d.inside c (by simp [split, hc])
    obtain ⟨places, rest, rfl, places_digits, behind⟩ := exists_leading_digits inside
    rcases behind with rfl | ⟨more, rfl⟩
    · rw [List.append_nil] at split
      by_cases empty : places = []
      · exact .inr (.inl ⟨whole, empty ▸ split⟩)
      · exact .inl ⟨whole, some ⟨places, empty, places_digits⟩, split⟩
    · exact .inr (.inr ⟨whole, places, more, places_digits, split⟩)

/-- The text is a number of the grammar. -/
def IsNumeral (d : NumberText) : Prop :=
  ∃ whole places, d.chars = (Numeral.mk false whole places).magnitude

/-- The text is digits and a dot behind them. -/
def EndsInDot (d : NumberText) : Prop := ∃ whole : Digits, d.chars = whole.chars ++ ['.']

end NumberText

section Unsigned

theorem isNumber_point {whole : Digits} {tail : List Char} (h : tail = [] ∨ '.' ∈ tail) :
    isNumber (whole.chars ++ '.' :: tail) = false := by
  obtain ⟨c, cs, hc, digit⟩ := whole.cons
  have unsigned : ¬(whole.chars ++ '.' :: tail).head? = some '-' := by
    rw [hc]
    rintro he
    cases he
    cases digit
  have stop : ('.' :: tail).head?.any Char.isDigit = false := rfl
  obtain ⟨take, drop⟩ := takeWhile_append_of_head whole.isDigit stop
  rw [isNumber, if_neg unsigned, take, drop]
  rcases h with rfl | h
  · simp
  · have other : tail.all Char.isDigit = false := List.all_eq_false.mpr ⟨'.', h, by decide⟩
    simp [other]

theorem readCall_of_isNumber_false {table : List Value} {d : NumberText}
    (h : isNumber d.chars = false) :
    readCall table d.chars = .error (.unreadable (String.ofList d.chars)) := by
  have opening : '(' ∉ d.chars := opening_not_mem_word d.isWordChar
  have leaf : readLeaf? table d.chars = none := by
    by_contra other
    obtain ⟨e, he⟩ := Option.ne_none_iff_exists'.mp other
    obtain ⟨c, cs, hc, digit⟩ := d.exists_cons
    have text := leafText_of_readLeaf? he
    rw [hc] at text h
    rw [text.isNumber_of_digit digit] at h
    cases h
  rw [readCall, if_neg (by simp [h]), dif_neg opening, leaf]

/-- Lifting leaves a word without a sign, and it is read where it stands. -/
theorem becomes_unsigned {d : NumberText} {outcome : Except ExpressionFault Expression}
    (h : ∀ table, readCall table d.chars = outcome) : Becomes d.chars outcome := by
  intro table previous _
  obtain ⟨c, cs, hc, _⟩ := d.exists_cons
  have ne_nil : d.chars ≠ [] := hc ▸ List.cons_ne_nil c cs
  have word := d.isWordChar
  refine ⟨d.chars, [], word, fun extra => yields_of_word ne_nil word (h _), fun cs _ => ?_⟩
  rw [List.append_nil]
  exact liftNumbers_word ne_nil (minus_not_mem_word word) table previous cs

end Unsigned

section Signed

theorem readNumber?_signed_point {d : NumberText} (h : '.' ∈ d.chars) :
    readNumber? ('-' :: d.chars) = (Decimal.readUnsigned? d.chars).map fun x => .float (-x) := by
  obtain ⟨c, cs, hc, digit⟩ := d.exists_cons
  have magnitude : Decimal.readMagnitude? d.chars = Decimal.readUnsigned? d.chars := by
    rw [hc, readMagnitude?_of_head digit]
  rw [readNumber?, Word.read?, Text.readInt?, readDigits?_of_point h, Decimal.read?, magnitude]
  cases Decimal.readUnsigned? d.chars <;> rfl

theorem readUnsigned?_points {whole : Digits} {places more : List Char}
    (h : ∀ c ∈ places, c.isDigit = true) :
    Decimal.readUnsigned? (whole.chars ++ '.' :: (places ++ '.' :: more)) = none := by
  have stop (cs : List Char) : ('.' :: cs).head?.any Char.isDigit = false := rfl
  obtain ⟨take, drop⟩ := takeWhile_append_of_head whole.isDigit (stop (places ++ '.' :: more))
  obtain ⟨take', drop'⟩ := takeWhile_append_of_head h (stop more)
  rw [Decimal.readUnsigned?, take, drop]
  simp only [take', drop']
  simp [Decimal.readExponent?]

/-- A number with a sign in front goes into the table, and its place is read. -/
theorem becomes_signed {d : NumberText} {v : Value} (h : readNumber? ('-' :: d.chars) = some v) :
    Becomes ('-' :: d.chars) (.ok (.literal v)) := by
  intro table previous starts
  refine ⟨placeholder table.length, [v], isWordChar_of_mem_placeholder, fun extra => ?_,
    fun cs ends => liftNumbers_digits d.first d.inside h starts ends⟩
  have stored : (table ++ [v] ++ extra)[table.length]? = some v := by simp
  exact yields_placeholder stored

theorem liftNumbers_bad {d : NumberText} (h : readNumber? ('-' :: d.chars) = none)
    (table : List Value) {previous : Option Char} {cs : List Char}
    (starts : startsOperand previous = true) (ends : cs.head?.any isNumberChar = false) :
    liftNumbers table previous ('-' :: (d.chars ++ cs)) =
      .error (.badNumber (String.ofList ('-' :: d.chars))) := by
  have take := (takeWhile_append_of_head d.inside ends).1
  have digit : (d.chars ++ cs).head?.any Char.isDigit = true := by
    obtain ⟨c, ds, hc, digit⟩ := d.exists_cons
    simpa [hc] using digit
  rw [liftNumbers, if_pos ⟨rfl, starts, digit⟩]
  simp only [take, h]

end Signed

section Gaps

variable {f : Frame} {before after : List Token} {d : NumberText} {text : String}

theorem NumberText.inGap_unsigned (d : NumberText) (h : f.Surrounds loosest before after)
    (ht : Spaced (before.map Token.chars ++ d.chars :: after.map Token.chars) text.toList) :
    InGap f before after d.chars text := by
  obtain ⟨c, cs, hc, digit⟩ := d.exists_cons
  have head : d.chars.head? ≠ some 'i' := by
    rw [hc]
    rintro he
    cases he
    cases digit
  refine ⟨h, isWord_of_isWordChar (hc ▸ List.cons_ne_nil c cs) head d.isWordChar, ?_,
    fun c hc => isQuote_of_isWordChar (d.isWordChar c hc), ht⟩
  intro same
  rw [same] at head
  exact head rfl

theorem NumberText.inGap_signed (d : NumberText) (h : f.Surrounds loosest before after)
    (ht : Spaced (before.map Token.chars ++ ('-' :: d.chars) :: after.map Token.chars)
      text.toList) : InGap f before after ('-' :: d.chars) text where
  surrounds := h
  isWord := by
    refine ⟨by simp, ?_, fun _ => by simp⟩
    exact List.forall_mem_cons.mpr ⟨rfl, fun c hc => isBlank_of_isWordChar (d.isWordChar c hc)⟩
  ne_inWord := by simp [inWord, symbol]
  unquoted :=
    List.forall_mem_cons.mpr ⟨rfl, fun c hc => isQuote_of_isWordChar (d.isWordChar c hc)⟩
  spaced := ht

theorem parse_unsigned_numeral {whole : Digits} {places : Option Digits}
    (h : InGap f before after d.chars text)
    (hd : d.chars = (Numeral.mk false whole places).magnitude) :
    Expression.parse text = .ok (f.fill (.literal (Numeral.mk false whole places).value)) := by
  have read (table : List Value) :
      readCall table d.chars = .ok (.literal (Numeral.mk false whole places).value) := by
    rw [hd]
    exact (yields_magnitude rfl).read
  exact h.parse (becomes_unsigned read)

theorem parse_unsigned_error (h : InGap f before after d.chars text) (hd : ¬d.IsNumeral) :
    Expression.parse text = .error (.unreadable (String.ofList d.chars)) := by
  have number : isNumber d.chars = false := by
    rcases d.shapes with numeral | ⟨whole, hc⟩ | ⟨whole, places, more, _, hc⟩
    · exact absurd numeral hd
    · rw [hc]
      exact isNumber_point (.inl rfl)
    · rw [hc]
      exact isNumber_point (.inr (by simp))
  exact h.parse (becomes_unsigned fun table => readCall_of_isNumber_false number)

theorem parse_signed_numeral {whole : Digits} {places : Option Digits}
    (h : InGap f before after ('-' :: d.chars) text)
    (hd : d.chars = (Numeral.mk false whole places).magnitude) :
    Expression.parse text = .ok (f.fill (.literal (Numeral.mk true whole places).value)) := by
  refine h.parse (becomes_signed ?_)
  rw [hd]
  exact readNumber?_numeral (Numeral.mk true whole places)

theorem parse_signed_point {whole : Digits} (h : InGap f before after ('-' :: d.chars) text)
    (hd : d.chars = whole.chars ++ ['.']) :
    Expression.parse text =
      .ok (f.fill (.literal (.float (-Decimal.toFloat (Nat.ofDigitChars 10 whole.chars 0) 0)))) := by
  refine h.parse (becomes_signed ?_)
  have no_places : ∀ c ∈ ([] : List Char), c.isDigit = true := by simp
  have read := readUnsigned?_places whole.ne_nil whole.isDigit no_places
  rw [readNumber?_signed_point (by simp [hd]), hd, read]
  simp

theorem parse_signed_error (h : InGap f before after ('-' :: d.chars) text)
    (hd : ¬d.IsNumeral) (hd' : ¬d.EndsInDot) :
    Expression.parse text = .error (.badNumber (String.ofList ('-' :: d.chars))) := by
  have bad : readNumber? ('-' :: d.chars) = none := by
    rcases d.shapes with numeral | point | ⟨whole, places, more, digits, hc⟩
    · exact absurd numeral hd
    · exact absurd point hd'
    · rw [readNumber?_signed_point (by simp [hc]), hc, readUnsigned?_points digits]
      rfl
  exact h.parse_error fun table _ starts _ ends => liftNumbers_bad bad table starts ends

/-- A whole number is read as an integer where 64 bits have room for it, else as a double. -/
def ReadsWhole (f : Frame) (text : String) (n : Int) (x : Float) : Prop :=
  (∀ w : Int64, w.toInt = n → Expression.parse text = .ok (f.fill (.literal (.integer w)))) ∧
    ((∀ w : Int64, w.toInt ≠ n) → Expression.parse text = .ok (f.fill (.literal (.float x))))

theorem readsWhole_of_value {negative : Bool} {whole : Digits} {n : Nat}
    (hn : n = Nat.ofDigitChars 10 whole.chars 0)
    (h : Expression.parse text = .ok (f.fill (.literal (Numeral.mk negative whole none).value))) :
    ReadsWhole f text (if negative then -(n : Int) else n)
      (if negative then -Decimal.toFloat n 0 else Decimal.toFloat n 0) := by
  subst hn
  rw [ReadsWhole, h, Numeral.value]
  constructor
  · intro w hw
    simp only [Word.ofInt?_eq_some_iff.mpr hw]
  · intro outside
    have noRoom : Word.ofInt? (if negative then -(Nat.ofDigitChars 10 whole.chars 0 : Int)
        else Nat.ofDigitChars 10 whole.chars 0) = none := by
      refine Option.eq_none_iff_forall_ne_some.mpr fun w hw => ?_
      exact outside w (Word.toInt_of_ofInt? hw)
    simp only [noRoom]
    rfl

theorem NumberText.EndsInDot.not_isNumeral (h : d.EndsInDot) : ¬d.IsNumeral := by
  rintro ⟨whole, places, hc⟩
  obtain ⟨digits, hd⟩ := h
  have number := isNumber_magnitude (Numeral.mk false whole places)
  rw [← hc, hd, isNumber_point (.inl rfl)] at number
  cases number

/-- Wherever an operand is due, digits and dots are read alike with a sign in front and without, but
for a dot at the end. -/
theorem parse_number_text {unsigned signed : String} (h : f.Surrounds loosest before after)
    (d : NumberText)
    (hu : Spaced (before.map Token.chars ++ d.chars :: after.map Token.chars) unsigned.toList)
    (hs : Spaced (before.map Token.chars ++ ('-' :: d.chars) :: after.map Token.chars)
      signed.toList) :
    ((∃ e, Expression.parse unsigned = .ok e) ↔ d.IsNumeral) ∧
      ((∃ e, Expression.parse signed = .ok e) ↔ d.IsNumeral ∨ d.EndsInDot) ∧
      (∀ whole places, d.chars = (Numeral.mk false whole places).magnitude →
        Expression.parse unsigned =
            .ok (f.fill (.literal (Numeral.mk false whole places).value)) ∧
          Expression.parse signed =
            .ok (f.fill (.literal (Numeral.mk true whole places).value))) ∧
      (∀ whole : Digits, d.chars = whole.chars →
        let n := Nat.ofDigitChars 10 whole.chars 0
        ReadsWhole f unsigned n (Decimal.toFloat n 0) ∧
          ReadsWhole f signed (-n) (-Decimal.toFloat n 0)) ∧
      ∀ whole : Digits, d.chars = whole.chars ++ ['.'] →
        Expression.parse unsigned = .error (.unreadable (String.ofList d.chars)) ∧
          Expression.parse signed = .ok (f.fill (.literal
            (.float (-Decimal.toFloat (Nat.ofDigitChars 10 whole.chars 0) 0)))) := by
  have plain := d.inGap_unsigned h hu
  have minus := d.inGap_signed h hs
  refine ⟨⟨?_, ?_⟩, ⟨?_, ?_⟩, ?_, ?_, ?_⟩
  · rintro ⟨e, he⟩
    by_contra other
    rw [parse_unsigned_error plain other] at he
    cases he
  · rintro ⟨whole, places, hc⟩
    exact ⟨_, parse_unsigned_numeral plain hc⟩
  · rintro ⟨e, he⟩
    by_contra other
    rw [not_or] at other
    rw [parse_signed_error minus other.1 other.2] at he
    cases he
  · rintro (⟨whole, places, hc⟩ | ⟨whole, hc⟩)
    · exact ⟨_, parse_signed_numeral minus hc⟩
    · exact ⟨_, parse_signed_point minus hc⟩
  · intro whole places hc
    exact ⟨parse_unsigned_numeral plain hc, parse_signed_numeral minus hc⟩
  · intro whole hc
    have numeral : d.chars = (Numeral.mk false whole none).magnitude :=
      hc.trans (List.append_nil _).symm
    exact ⟨readsWhole_of_value rfl (parse_unsigned_numeral plain numeral),
      readsWhole_of_value rfl (parse_signed_numeral minus numeral)⟩
  · intro whole hc
    have point : d.EndsInDot := ⟨whole, hc⟩
    exact ⟨parse_unsigned_error plain point.not_isNumeral, parse_signed_point minus hc⟩

end Gaps

theorem parse_number_text_in_group :
    Expression.parse "(1.) < @" = .error (.unreadable "1.") ∧
      Expression.parse "(-1.) < @" =
        .ok (.call .lt [.literal (.float (-1.0)), .element ""]) := by
  let element : Leaf := .element []
  let one : Digits := ⟨['1'], by simp, List.forall_mem_singleton.mpr rfl⟩
  let d : NumberText := ⟨['1', '.'], rfl, List.all_eq_true.mp rfl⟩
  have surrounds : (Frame.joinLeft .lt (by decide) .gap (.leaf element)).Surrounds loosest
      [.opening] [.closing, .operator .lt, .leaf element] :=
    .joinLeft (by decide) (by decide) (.group _ (.gap _)) (.leaf _ element)
  have plain : ∀ c ∈ ([] : List Char), Text.isBlank c = true := by simp
  have blank : ∀ c ∈ [' '], Text.isBlank c = true := List.forall_mem_singleton.mpr rfl
  have unsigned : Spaced [['('], ['1', '.'], [')'], ['<'], ['@']] "(1.) < @".toList :=
    .cons plain (by decide) (.cons plain (by decide) (.cons plain (by decide)
      (.cons blank (by decide) (.cons blank (by decide) (.nil plain)))))
  have signed : Spaced [['('], ['-', '1', '.'], [')'], ['<'], ['@']] "(-1.) < @".toList :=
    .cons plain (by decide) (.cons plain (by decide) (.cons plain (by decide)
      (.cons blank (by decide) (.cons blank (by decide) (.nil plain)))))
  have minusOne : -Decimal.toFloat (Nat.ofDigitChars 10 ['1'] 0) 0 = -1.0 := by
    with_unfolding_all exact rfl
  rw [← minusOne]
  exact (parse_number_text surrounds d unsigned signed).2.2.2.2 one rfl

theorem parse_signed_dot_at_end :
    Expression.parse "-1." = .ok (.literal (.float (-1.0))) ∧
      Expression.parse "1." = .error (.unreadable "1.") := by
  with_unfolding_all exact ⟨rfl, rfl⟩

end DocumentPath.Infix
