import DocumentPath.Proofs.Infix.Lexing

namespace DocumentPath.Infix

open DocumentPath.Filter

/-- The word stands for a token once no string and no sign is left. -/
inductive Denotes (table : List Value) : Token → List Char → Prop
  | leaf {l : Leaf} {w : List Char} : (∀ c ∈ w, isWordChar c = true) →
    Yields table w (.ok l.expression) → Denotes table (.leaf l) w
  | operator (op : Operator) : Denotes table (.operator op) (token op)
  | opening : Denotes table .opening ['(']
  | closing : Denotes table .closing [')']

/-- Adds text in front of what lifting gives. -/
def leadWith (w : List Char) (p : List Char × List Value) : List Char × List Value :=
  (w ++ p.1, p.2)

theorem map_leadWith_append (v w : List Char)
    (x : Except ExpressionFault (List Char × List Value)) :
    (x.map (leadWith w)).map (leadWith v) = x.map (leadWith (v ++ w)) := by
  cases x <;> simp [Except.map, leadWith]

theorem liftNumbers_cons {table : List Value} {previous : Option Char} {c : Char} {cs : List Char}
    (h : c = '-' → startsOperand previous = false) :
    liftNumbers table previous (c :: cs) =
      (liftNumbers table (some c) cs).map (leadWith [c]) := by
  rw [liftNumbers, if_neg (by rintro ⟨h1, h2, _⟩; simp [h h1] at h2)]
  cases liftNumbers table (some c) cs <;> rfl

theorem liftNumbers_word {w : List Char} (hne : w ≠ []) (h : '-' ∉ w) (table : List Value)
    (previous : Option Char) (cs : List Char) :
    liftNumbers table previous (w ++ cs) =
      (liftNumbers table w.getLast? cs).map (leadWith w) := by
  induction w generalizing previous with
  | nil => exact absurd rfl hne
  | cons c w ih =>
    have pass : c = '-' → startsOperand previous = false := by
      rintro rfl
      simp at h
    rw [List.cons_append, liftNumbers_cons pass]
    by_cases hw : w = []
    · subst hw
      rfl
    · rw [ih hw (by simp_all), map_leadWith_append, List.getLast?_cons_of_ne_nil hw]
      rfl

theorem startsOperand_of_isWordChar {c : Char} (h : isWordChar c = true) :
    startsOperand (some c) = false := by
  have h1 := not_isOperatorChar_of_isOperandChar (isOperandChar_of_isWordChar h)
  simp [startsOperand, h1, ne_of_isWordChar h (show isWordChar '(' = false from rfl),
    ne_of_isWordChar h (show isWordChar ',' = false from rfl)]

theorem startsOperand_of_word {w : List Char} (hne : w ≠ []) (h : ∀ c ∈ w, isWordChar c = true) :
    startsOperand w.getLast? = false := by
  rw [List.getLast?_eq_some_getLast hne]
  exact startsOperand_of_isWordChar (h _ (List.getLast_mem hne))

theorem minus_not_mem_word {w : List Char} (h : ∀ c ∈ w, isWordChar c = true) : '-' ∉ w :=
  fun hmem => absurd (h '-' hmem) (by decide)

theorem startsOperand_token (op : Operator) : startsOperand (token op).getLast? = true := by
  cases op <;> rfl

theorem isNumberChar_of_mem_magnitude {n : Numeral} : ∀ c ∈ n.magnitude, isNumberChar c = true := by
  intro c hc
  rcases List.mem_append.mp hc with hc | hc
  · simp [isNumberChar, n.whole.isDigit c hc]
  · cases hp : n.places with
    | none => simp [hp] at hc
    | some places =>
      simp only [hp, Option.elim_some, List.mem_cons] at hc
      rcases hc with rfl | hc
      · rfl
      · simp [isNumberChar, places.isDigit c hc]

/-- Digits behind a sign go into the table where an operand is due. -/
theorem liftNumbers_digits {digits : List Char} {v : Value}
    (first : digits.head?.any Char.isDigit = true) (inside : ∀ c ∈ digits, isNumberChar c = true)
    (read : readNumber? ('-' :: digits) = some v) {table : List Value} {previous : Option Char}
    {cs : List Char} (hp : startsOperand previous = true) (hcs : cs.head?.any isNumberChar = false) :
    liftNumbers table previous ('-' :: (digits ++ cs)) =
      (liftNumbers (table ++ [v]) (placeholder table.length).getLast? cs).map
        (leadWith (placeholder table.length)) := by
  obtain ⟨take, drop⟩ := takeWhile_append_of_head inside hcs
  have digit : (digits ++ cs).head?.any Char.isDigit = true := by
    cases digits with
    | nil => cases first
    | cons d ds => exact first
  rw [liftNumbers, if_pos ⟨rfl, hp, digit⟩]
  simp only [take, drop, read]
  cases liftNumbers (table ++ [v]) (placeholder table.length).getLast? cs <;> rfl

/-- A number with a sign goes into the table where an operand is due. -/
theorem liftNumbers_signed {n : Numeral} (hn : n.negative = true) {table : List Value}
    {previous : Option Char} {cs : List Char} (hp : startsOperand previous = true)
    (hcs : cs.head?.any isNumberChar = false) :
    liftNumbers table previous (n.chars ++ cs) =
      (liftNumbers (table ++ [n.value]) (placeholder table.length).getLast? cs).map
        (leadWith (placeholder table.length)) := by
  obtain ⟨c, ds, hcons, hd⟩ := n.magnitude_eq_cons
  have chars : n.chars = '-' :: n.magnitude := by rw [Numeral.chars, hn, if_pos rfl]
  have first : n.magnitude.head?.any Char.isDigit = true := by
    rw [hcons]
    simpa using hd
  have read : readNumber? ('-' :: n.magnitude) = some n.value := by
    rw [← chars, readNumber?_numeral]
  rw [chars, List.cons_append]
  exact liftNumbers_digits first isNumberChar_of_mem_magnitude read hp hcs

theorem mark_symbol (op : Operator) : mark (symbol op) = token op := by cases op <;> rfl

theorem mark_of_ne {table : List Value} {t : Token} {w : List Char} (h : Extracted table t w)
    (ht : ∀ op, t ≠ .operator op) : mark w = w :=
  if_neg fun hw => ht _ (h.eq_within hw)

/-- Where an operand has ended, no character goes on with a number. -/
theorem head?_of_follows {table : List Value} {ts rest : List Token} {words : List (List Char)}
    {cs : List Char} (hf : Follows false (ts ++ rest)) (h : List.Forall₂ (Extracted table) ts words)
    (hcs : Follows false rest → cs.head?.any isNumberChar = false) :
    (words.flatMap mark ++ cs).head?.any isNumberChar = false := by
  cases h with
  | nil => exact hcs hf
  | @cons t w ts words ht hts =>
    cases t with
    | leaf l => exact absurd hf id
    | opening => exact absurd hf id
    | operator op =>
      cases ht
      rw [List.flatMap_cons, Token.chars, mark_symbol]
      cases op <;> rfl
    | closing =>
      cases ht
      rfl

theorem Extracted.mono {table more : List Value} {t : Token} {w : List Char}
    (h : Extracted table t w) : Extracted (table ++ more) t w := by
  cases h with
  | string hi =>
    exact .string (by rw [List.getElem?_append_left (List.getElem?_eq_some_iff.mp hi).1, hi])
  | plain ht => exact .plain ht

theorem liftNumbers_token {op : Operator} {previous : Option Char}
    (h : op = .sub → startsOperand previous = false) (table : List Value) (cs : List Char) :
    liftNumbers table previous (token op ++ cs) =
      (liftNumbers table (token op).getLast? cs).map (leadWith (token op)) := by
  by_cases hop : op = .sub
  · subst hop
    exact liftNumbers_cons fun _ => h rfl
  · have : '-' ∉ token op := by cases op <;> first | decide | exact absurd rfl hop
    exact liftNumbers_word (token_ne_nil op) this table previous cs

/-- How lifting goes over the words of some tokens and on to the text behind them, where the rest of
the tokens is due. -/
def LiftsOver (table : List Value) (previous : Option Char) (ts rest : List Token)
    (words : List (List Char)) (cs : List Char) : Prop :=
  ∃ left more last, Follows (startsOperand last) rest ∧
    liftNumbers table previous (words.flatMap mark ++ cs) =
      (liftNumbers (table ++ more) last cs).map (leadWith left.flatten) ∧
    ∀ extra, List.Forall₂ (Denotes (table ++ more ++ extra)) ts left

section Lifting

variable {table : List Value} {previous : Option Char} {ts rest : List Token}
  {words : List (List Char)} {cs : List Char}

theorem LiftsOver.word {t : Token} {w : List Char} (hw : Extracted table t w)
    (ht : ∀ op, t ≠ .operator op) (hne : w ≠ []) (hm : '-' ∉ w)
    (hd : ∀ more, Denotes (table ++ more) t w)
    (h : LiftsOver table w.getLast? ts rest words cs) :
    LiftsOver table previous (t :: ts) rest (w :: words) cs := by
  obtain ⟨left, more, last, behind, he, hall⟩ := h
  refine ⟨w :: left, more, last, behind, ?_, fun extra => .cons ?_ (hall extra)⟩
  · rw [List.flatMap_cons, mark_of_ne hw ht, List.append_assoc, liftNumbers_word hne hm, he,
      map_leadWith_append]
    rfl
  · rw [List.append_assoc]
    exact hd _

theorem LiftsOver.operator {op : Operator} (signs : op = .sub → startsOperand previous = false)
    (h : LiftsOver table (token op).getLast? ts rest words cs) :
    LiftsOver table previous (.operator op :: ts) rest (symbol op :: words) cs := by
  obtain ⟨left, more, last, behind, he, hall⟩ := h
  refine ⟨token op :: left, more, last, behind, ?_, fun extra => .cons (.operator op) (hall extra)⟩
  rw [List.flatMap_cons, mark_symbol, List.append_assoc, liftNumbers_token signs, he,
    map_leadWith_append]
  rfl

theorem LiftsOver.signed {n : Numeral} (hn : n.negative = true)
    (starts : startsOperand previous = true)
    (ends : (words.flatMap mark ++ cs).head?.any isNumberChar = false)
    (h : LiftsOver (table ++ [n.value]) (placeholder table.length).getLast? ts rest words cs) :
    LiftsOver table previous (.leaf (.number n) :: ts) rest (n.chars :: words) cs := by
  obtain ⟨left, more, last, behind, he, hall⟩ := h
  have kept : mark n.chars = n.chars := by
    have word : Extracted table (.leaf (.number n)) n.chars := .plain (by simp)
    exact mark_of_ne word (by simp)
  have stored (extra : List Value) :
      (table ++ [n.value] ++ more ++ extra)[table.length]? = some n.value := by simp
  refine ⟨placeholder table.length :: left, n.value :: more, last, behind, ?_, fun extra => ?_⟩
  · rw [List.flatMap_cons, kept, List.append_assoc, liftNumbers_signed hn starts ends, he,
      map_leadWith_append, ← List.append_cons]
    rfl
  · rw [List.append_cons]
    exact .cons (.leaf isWordChar_of_mem_placeholder (yields_placeholder (stored extra)))
      (hall extra)

/-- Lifting the signed numbers out of a text leaves words that denote its tokens. -/
theorem liftsOver_of_follows {due : Bool} (hf : Follows due (ts ++ rest))
    (hp : startsOperand previous = due) (h : List.Forall₂ (Extracted table) ts words)
    (hcs : Follows false rest → cs.head?.any isNumberChar = false) :
    LiftsOver table previous ts rest words cs := by
  induction ts generalizing table words due previous with
  | nil =>
    cases h
    refine ⟨[], [], previous, hp ▸ hf, ?_, fun _ => .nil⟩
    rw [List.append_nil, List.flatMap_nil, List.nil_append]
    cases liftNumbers table previous cs <;> rfl
  | cons t ts ih =>
    cases h with
    | @cons _ w _ words ht hts =>
      cases t with
      | leaf l =>
        cases due with
        | false => exact absurd hf id
        | true =>
          by_cases hl : l.IsPlain
          · have hw : w = l.chars := by
              cases ht with
              | string _ => exact absurd hl id
              | plain _ => rfl
            subst hw
            have ends := startsOperand_of_word (hl.yields []).ne_nil hl.isWordChar
            exact (ih hf ends hts).word ht (by simp) (hl.yields []).ne_nil
              (minus_not_mem_word hl.isWordChar)
              fun more => .leaf hl.isWordChar (hl.yields _)
          · rcases Leaf.eq_of_not_isPlain hl with ⟨s, rfl⟩ | ⟨n, rfl, hn⟩
            · cases ht with
              | plain hs => exact absurd rfl (hs s)
              | @string _ i hi =>
                have ends := startsOperand_of_word (by simp [placeholder])
                  (isWordChar_of_mem_placeholder (i := i))
                have kept (more : List Value) : (table ++ more)[i]? = some (.string s.value) := by
                  rw [List.getElem?_append_left (List.getElem?_eq_some_iff.mp hi).1, hi]
                exact (ih hf ends hts).word (.string hi) (by simp) (by simp [placeholder])
                  (minus_not_mem_word isWordChar_of_mem_placeholder)
                  fun more => .leaf isWordChar_of_mem_placeholder (yields_placeholder (kept more))
            · have hw : w = n.chars := by
                cases ht
                rfl
              subst hw
              have ends := startsOperand_of_word (by simp [placeholder])
                (isWordChar_of_mem_placeholder (i := table.length))
              have grown : List.Forall₂ (Extracted (table ++ [n.value])) ts words :=
                hts.imp fun _ _ h => h.mono
              exact (ih hf ends grown).signed hn hp (head?_of_follows hf hts hcs)
      | operator op =>
        cases ht
        have next : Follows true (ts ++ rest) := by cases due <;> exact hf.2
        have signs : op = .sub → startsOperand previous = false := by
          rintro rfl
          cases due with
          | true => exact absurd hf.1 (by decide)
          | false => exact hp
        exact (ih next (startsOperand_token op) hts).operator signs
      | opening =>
        cases ht with
        | plain hs =>
          cases due with
          | false => exact absurd hf id
          | true =>
            have starts : startsOperand ['('].getLast? = true := rfl
            exact (ih hf starts hts).word (.plain hs) (by simp) (by decide) (by decide)
              fun _ => .opening
      | closing =>
        cases ht with
        | plain hs =>
          cases due with
          | true => exact absurd hf id
          | false =>
            have ends : startsOperand [')'].getLast? = false := rfl
            exact (ih hf ends hts).word (.plain hs) (by simp) (by decide) (by decide)
              fun _ => .closing

/-- How lifting goes over the words of a whole text. -/
def Lifts (table : List Value) (previous : Option Char) (ts : List Token)
    (words : List (List Char)) : Prop :=
  ∃ left more, liftNumbers table previous (words.flatMap mark) = .ok (left.flatten, table ++ more) ∧
    List.Forall₂ (Denotes (table ++ more)) ts left

theorem lifts_of_follows {due : Bool} (hf : Follows due ts) (hp : startsOperand previous = due)
    (h : List.Forall₂ (Extracted table) ts words) : Lifts table previous ts words := by
  rw [← List.append_nil ts] at hf
  have whole : LiftsOver table previous ts [] words [] := liftsOver_of_follows hf hp h fun _ => rfl
  obtain ⟨left, more, last, -, he, hall⟩ := whole
  refine ⟨left, more, ?_, ?_⟩
  · rw [List.append_nil, liftNumbers] at he
    rw [he]
    simp [Except.map, leadWith]
  · have whole := hall []
    rwa [List.append_nil] at whole

end Lifting

end DocumentPath.Infix
