import Mathlib.Data.List.TakeWhile
import DocumentPath.Proofs.Infix.Grammar

namespace DocumentPath.Infix

open DocumentPath.Filter

/-- No comma inside parts the text from what stands before or behind it. -/
def Intact (w : List Char) : Prop :=
  ∀ (depth : Int) (cs : List Char), 0 ≤ depth →
    splitOperands depth (w ++ cs) = (splitOperands depth cs).modifyHead (w ++ ·)

/-- The word is one operand, and reading it has this outcome. -/
structure Yields (table : List Value) (w : List Char)
    (outcome : Except ExpressionFault Expression) : Prop where
  ne_nil : w ≠ []
  operand : ∀ c ∈ w, isOperandChar c = true
  intact : Intact w
  read : readCall table w = outcome

/-- A word of a class of characters ends where a character of another kind stands. -/
theorem takeWhile_append_of_head {p : Char → Bool} {w cs : List Char}
    (hw : ∀ c ∈ w, p c = true) (hcs : cs.head?.any p = false) :
    (w ++ cs).takeWhile p = w ∧ (w ++ cs).dropWhile p = cs := by
  rw [List.takeWhile_append_of_pos hw, List.dropWhile_append_of_pos hw]
  cases cs with
  | nil => exact ⟨List.append_nil w, rfl⟩
  | cons c cs =>
    have stop : p c = false := by simpa using hcs
    simp [stop]

theorem splitOperands_cons {depth : Int} {c : Char} {cs : List Char}
    (h : ¬(c = ',' ∧ depth = 0)) :
    splitOperands depth (c :: cs) =
      (splitOperands (if c = '(' then depth + 1 else if c = ')' then depth - 1 else depth)
        cs).modifyHead (c :: ·) := by
  rw [splitOperands, if_neg h]

theorem modifyHead_append (a b : List Char) (l : List (List Char)) :
    (l.modifyHead (b ++ ·)).modifyHead (a ++ ·) = l.modifyHead (a ++ b ++ ·) := by
  cases l <;> simp

theorem Intact.append {v w : List Char} (hv : Intact v) (hw : Intact w) : Intact (v ++ w) := by
  intro depth cs hd
  rw [List.append_assoc, hv depth _ hd, hw depth _ hd, modifyHead_append]

theorem intact_of_plain {w : List Char} (h : ∀ c ∈ w, c ≠ '(' ∧ c ≠ ')' ∧ c ≠ ',') : Intact w := by
  intro depth cs hd
  induction w with
  | nil =>
    simp only [List.nil_append]
    cases splitOperands depth cs <;> rfl
  | cons c w ih =>
    obtain ⟨h1, h2, h3⟩ := h c (by simp)
    rw [List.cons_append, splitOperands_cons (by simp [h3]), if_neg h1, if_neg h2,
      ih fun d hd => h d (by simp [hd])]
    exact modifyHead_append [c] w _

/-- What stands in parentheses is intact, whatever commas it has. -/
theorem intact_parens {w : List Char}
    (h : ∀ (depth : Int) (cs : List Char), 0 < depth →
      splitOperands depth (w ++ cs) = (splitOperands depth cs).modifyHead (w ++ ·)) :
    Intact ('(' :: (w ++ [')'])) := by
  intro depth cs hd
  have close : splitOperands (depth + 1) (')' :: cs) =
      (splitOperands depth cs).modifyHead (')' :: ·) := by
    rw [splitOperands_cons (by simp)]
    simp
  have inner := h (depth + 1) (')' :: cs) (by omega)
  rw [close] at inner
  rw [List.cons_append, splitOperands_cons (by simp), if_pos rfl, List.append_assoc,
    List.singleton_append, inner]
  cases splitOperands depth cs <;> simp

theorem Intact.joined {v w : List Char} (hv : Intact v) (hw : Intact w) (depth : Int)
    (cs : List Char) (hd : 0 < depth) :
    splitOperands depth ((v ++ ',' :: w) ++ cs) =
      (splitOperands depth cs).modifyHead ((v ++ ',' :: w) ++ ·) := by
  have comma : splitOperands depth (',' :: (w ++ cs)) =
      (splitOperands depth cs).modifyHead ((',' :: w) ++ ·) := by
    rw [splitOperands_cons (by omega), if_neg (by decide), if_neg (by decide),
      hw depth cs (by omega)]
    exact modifyHead_append [','] w _
  rw [List.append_assoc, List.cons_append, hv depth _ (by omega), comma, modifyHead_append]

theorem splitOperands_intact {w : List Char} (h : Intact w) : splitOperands 0 w = [w] := by
  have := h 0 [] (by omega)
  simpa [splitOperands] using this

theorem splitOperands_joined {v w : List Char} (hv : Intact v) (hw : Intact w) :
    splitOperands 0 (v ++ ',' :: w) = [v, w] := by
  have comma : splitOperands 0 (',' :: w) = [[], w] := by
    rw [splitOperands, if_pos ⟨rfl, rfl⟩, splitOperands_intact hw]
  rw [hv 0 _ (by omega), comma]
  simp

theorem isNumber_of_head {c : Char} {cs : List Char} (hd : c.isDigit = false) (hm : c ≠ '-') :
    isNumber (c :: cs) = false := by
  simp [isNumber, hd, hm]

theorem readCall_of_number {table : List Value} {w : List Char} {v : Value}
    (hn : isNumber w = true) (h : readNumber? w = some v) :
    readCall table w = .ok (.literal v) := by
  rw [readCall, if_pos hn, h]

theorem readCall_of_leaf {table : List Value} {w : List Char} {e : Expression}
    (hn : isNumber w = false) (hw : '(' ∉ w) (h : readLeaf? table w = some e) :
    readCall table w = .ok e := by
  rw [readCall, if_neg (by simp [hn]), dif_neg hw, h]

theorem name_eq_cons (op : Operator) :
    ∃ c cs, op.name.toList = c :: cs ∧ c.isDigit = false ∧ c ≠ '-' := by
  cases op <;> exact ⟨_, _, rfl, by decide, by decide⟩

theorem isOperandChar_of_mem_name (op : Operator) :
    ∀ c ∈ op.name.toList, isOperandChar c = true ∧ c ≠ '(' ∧ c ≠ ')' ∧ c ≠ ',' := by
  have h : (op.name.toList.all fun c =>
      isOperandChar c && c != '(' && c != ')' && c != ',') = true := by cases op <;> rfl
  intro c hc
  simpa [and_assoc] using List.all_eq_true.mp h c hc

theorem readCall_callText (table : List Value) (op : Operator) (inner : List Char) :
    readCall table (callText op inner) =
      (readCalls table (splitOperands 0 inner)).bind fun es =>
        if op.takes es.length then .ok (.call op es) else .error (.operandCount op es.length) := by
  obtain ⟨c, cs, hname, hd, hm⟩ := name_eq_cons op
  have number : isNumber (callText op inner) = false := by
    rw [callText, hname]
    exact isNumber_of_head hd hm
  have opening : '(' ∈ callText op inner := by simp [callText]
  have free : ∀ d ∈ op.name.toList, decide (d ≠ '(') = true := fun d hmem => by
    simpa using (isOperandChar_of_mem_name op d hmem).2.1
  have head : (callText op inner).takeWhile (fun d => decide (d ≠ '(')) = op.name.toList := by
    rw [callText, List.takeWhile_append_of_pos free]
    simp
  have tail : ((callText op inner).dropWhile (fun d => decide (d ≠ '('))).drop 1 =
      inner ++ [')'] := by
    rw [callText, List.dropWhile_append_of_pos free]
    simp
  rw [readCall, if_neg (by simp [number]), dif_pos opening]
  simp only [head, tail, List.getLast?_concat, String.ofList_toList, dif_pos,
    Operator.ofName?_name, List.dropLast_concat]
  rfl

theorem isOperandChar_of_mem_callText {op : Operator} {inner : List Char}
    (h : ∀ c ∈ inner, isOperandChar c = true) :
    ∀ c ∈ callText op inner, isOperandChar c = true := by
  intro c hc
  simp only [callText, List.mem_append, List.mem_cons, List.not_mem_nil, or_false] at hc
  rcases hc with hc | rfl | hc | rfl
  · exact (isOperandChar_of_mem_name op c hc).1
  · rfl
  · exact h c hc
  · rfl

theorem intact_callText {op : Operator} {inner : List Char}
    (h : ∀ (depth : Int) (cs : List Char), 0 < depth →
      splitOperands depth (inner ++ cs) = (splitOperands depth cs).modifyHead (inner ++ ·)) :
    Intact (callText op inner) :=
  (intact_of_plain fun c hc => (isOperandChar_of_mem_name op c hc).2).append (intact_parens h)

theorem Yields.negated {table : List Value} {w : List Char}
    {outcome : Except ExpressionFault Expression} (h : Yields table w outcome) :
    Yields table (callText .not w) (outcome.map fun e => .call .not [e]) where
  ne_nil := callText_ne_nil _ _
  operand := isOperandChar_of_mem_callText h.operand
  intact := intact_callText fun depth cs hd => h.intact depth cs (by omega)
  read := by
    rw [readCall_callText, splitOperands_intact h.intact, readCalls, readCalls, h.read]
    cases outcome <;> rfl

theorem takes_two {op : Operator} (h : 0 < rank op) : op.takes 2 = true := by
  cases op <;> first | rfl | exact absurd h (by decide)

theorem Yields.joined {table : List Value} {op : Operator} {v w : List Char}
    {left right : Except ExpressionFault Expression} (hop : 0 < rank op) (hv : Yields table v left)
    (hw : Yields table w right) :
    Yields table (callText op (v ++ ',' :: w))
      (left.bind fun d => right.map fun e => .call op [d, e]) where
  ne_nil := callText_ne_nil _ _
  operand := by
    apply isOperandChar_of_mem_callText
    intro c hc
    rcases List.mem_append.mp hc with hc | hc
    · exact hv.operand c hc
    · rcases List.mem_cons.mp hc with rfl | hc
      · rfl
      · exact hw.operand c hc
  intact := intact_callText (hv.intact.joined hw.intact)
  read := by
    rw [readCall_callText, splitOperands_joined hv.intact hw.intact, readCalls, readCalls, readCalls,
      hv.read, hw.read]
    cases left <;> cases right <;> simp [bind, Except.bind, Except.map, takes_two hop]

theorem isAlphanumeric_of_isDigit {c : Char} (h : c.isDigit = true) :
    Text.isAlphanumeric c = true := by
  have hc : c.toNat < 0x80 := by
    simp only [Char.isDigit, Bool.and_eq_true, decide_eq_true_eq] at h
    have := UInt32.le_iff_toNat_le.mp h.2
    change c.val.toNat < 128
    change c.val.toNat ≤ 57 at this
    omega
  rw [Text.isAlphanumeric, if_pos hc]
  simp [Char.isAlphanum, h]

/-- The characters of an operand that is written without quotes. -/
def isWordChar (c : Char) : Bool := isNameChar c || c ∈ ['.', '@', '$', '#']

theorem isWordChar_of_isDigit {c : Char} (h : c.isDigit = true) : isWordChar c = true := by
  simp [isWordChar, isNameChar, isAlphanumeric_of_isDigit h]

theorem isOperandChar_of_isWordChar {c : Char} (h : isWordChar c = true) :
    isOperandChar c = true := by
  simp only [isWordChar, isNameChar, Bool.or_eq_true, decide_eq_true_eq] at h
  rcases h with (h | rfl) | h
  · simp [isOperandChar, h]
  · rfl
  · simp only [List.mem_cons, List.not_mem_nil, or_false] at h
    rcases h with rfl | rfl | rfl | rfl <;> rfl

theorem ne_of_isWordChar {c d : Char} (h : isWordChar c = true) (hd : isWordChar d = false) :
    c ≠ d := by
  rintro rfl
  simp [h] at hd

/-- A word is read by itself. -/
theorem yields_of_word {table : List Value} {w : List Char}
    {outcome : Except ExpressionFault Expression} (hne : w ≠ [])
    (hw : ∀ c ∈ w, isWordChar c = true) (h : readCall table w = outcome) :
    Yields table w outcome where
  ne_nil := hne
  operand := fun c hc => isOperandChar_of_isWordChar (hw c hc)
  intact := intact_of_plain fun c hc =>
    ⟨ne_of_isWordChar (hw c hc) rfl, ne_of_isWordChar (hw c hc) rfl, ne_of_isWordChar (hw c hc) rfl⟩
  read := h

theorem opening_not_mem_word {w : List Char} (hw : ∀ c ∈ w, isWordChar c = true) : '(' ∉ w :=
  fun h => absurd (hw '(' h) (by decide)

theorem isWordChar_of_mem_placeholder {i : Nat} : ∀ c ∈ placeholder i, isWordChar c = true := by
  intro c hc
  rcases List.mem_cons.mp hc with rfl | hc
  · rfl
  · exact isWordChar_of_isDigit (Text.isDigit_of_mem_decimal hc)

theorem yields_placeholder {table : List Value} {i : Nat} {v : Value} (h : table[i]? = some v) :
    Yields table (placeholder i) (.ok (.literal v)) := by
  have number : isNumber (placeholder i) = false := isNumber_of_head (by decide) (by decide)
  have leaf : readLeaf? table (placeholder i) = some (.literal v) := by
    change (do some (Expression.literal (← table[← Text.readIndex? (Text.decimal i)]?))) = _
    rw [Text.readIndex?_decimal]
    simp [h]
  exact yields_of_word (by simp [placeholder]) isWordChar_of_mem_placeholder
    (readCall_of_leaf number (opening_not_mem_word isWordChar_of_mem_placeholder) leaf)

theorem Digits.cons (d : Digits) : ∃ c cs, d.chars = c :: cs ∧ c.isDigit = true := by
  cases h : d.chars with
  | nil => exact absurd h d.ne_nil
  | cons c cs => exact ⟨c, cs, rfl, d.isDigit c (by simp [h])⟩

theorem readDigits?_of_isDigit {cs : List Char} (hne : cs ≠ [])
    (h : ∀ c ∈ cs, c.isDigit = true) :
    Text.readDigits? cs = some (Nat.ofDigitChars 10 cs 0) := by
  rw [Text.readDigits?, if_pos ⟨hne, List.all_eq_true.mpr h⟩]

theorem readDigits?_of_point {cs : List Char} (h : '.' ∈ cs) : Text.readDigits? cs = none := by
  rw [Text.readDigits?, if_neg]
  rintro ⟨_, all⟩
  exact absurd (List.all_eq_true.mp all '.' h) (by decide)

theorem readInt?_of_head {c : Char} {cs : List Char} (h : c.isDigit = true) :
    Text.readInt? (c :: cs) = (Text.readDigits? (c :: cs)).map Int.ofNat := by
  rw [Text.readInt?.eq_3]
  · rintro ds hd
    cases hd
    exact absurd h (by decide)
  · rintro ds hd
    cases hd
    exact absurd h (by decide)

theorem toLower_of_isDigit {c : Char} (h : c.isDigit = true) : c.toLower = c := by
  have bound : c.val ≤ 57 := by
    simp only [Char.isDigit, Bool.and_eq_true, decide_eq_true_eq] at h
    exact h.2
  have : ¬(c.val ≥ 65 ∧ c.val ≤ 90) := by
    intro hu
    exact absurd (UInt32.le_trans hu.1 bound) (by decide)
  exact dif_neg this

theorem readMagnitude?_of_head {c : Char} {cs : List Char} (h : c.isDigit = true) :
    Decimal.readMagnitude? (c :: cs) = Decimal.readUnsigned? (c :: cs) := by
  have ne (d : Char) (ds : List Char) (hd : d.isDigit = false) :
      (c :: cs).map Char.toLower ≠ d :: ds := by
    intro he
    rw [List.map_cons, toLower_of_isDigit h] at he
    cases he
    simp [h] at hd
  rw [Decimal.readMagnitude?, if_neg, if_neg]
  · exact ne 'n' _ (by decide)
  · rintro (he | he)
    · exact ne 'i' _ (by decide) he
    · exact ne 'i' _ (by decide) he

theorem readUnsigned?_whole {cs : List Char} (hne : cs ≠ []) (h : ∀ c ∈ cs, c.isDigit = true) :
    Decimal.readUnsigned? cs = some (Decimal.toFloat (Nat.ofDigitChars 10 cs 0) 0) := by
  have take : cs.takeWhile Char.isDigit = cs := List.takeWhile_eq_self_iff.mpr h
  have drop : cs.dropWhile Char.isDigit = [] := List.dropWhile_eq_nil_iff.mpr h
  rw [Decimal.readUnsigned?, take, drop]
  simp [readDigits?_of_isDigit hne h, Decimal.readExponent?]

theorem readUnsigned?_places {cs ds : List Char} (hne : cs ≠ [])
    (hc : ∀ c ∈ cs, c.isDigit = true) (hd : ∀ c ∈ ds, c.isDigit = true) :
    Decimal.readUnsigned? (cs ++ '.' :: ds) =
      some (Decimal.toFloat (Nat.ofDigitChars 10 (cs ++ ds) 0) (-ds.length)) := by
  have take : (cs ++ '.' :: ds).takeWhile Char.isDigit = cs := by
    rw [List.takeWhile_append_of_pos hc]
    simp
  have drop : (cs ++ '.' :: ds).dropWhile Char.isDigit = '.' :: ds := by
    rw [List.dropWhile_append_of_pos hc]
    simp
  have all : ∀ c ∈ cs ++ ds, c.isDigit = true := fun c h =>
    (List.mem_append.mp h).elim (hc c) (hd c)
  rw [Decimal.readUnsigned?, take, drop]
  simp only [List.takeWhile_eq_self_iff.mpr hd, List.dropWhile_eq_nil_iff.mpr hd]
  rw [readDigits?_of_isDigit (by simp [hne]) all]
  simp [Decimal.readExponent?]

theorem Numeral.magnitude_eq_cons (n : Numeral) :
    ∃ c cs, n.magnitude = c :: cs ∧ c.isDigit = true := by
  obtain ⟨c, cs, h, hd⟩ := n.whole.cons
  exact ⟨c, cs ++ n.places.elim [] fun places => '.' :: places.chars, by simp [magnitude, h], hd⟩

theorem read?_numeral (n : Numeral) :
    Decimal.read? n.chars = (Decimal.readUnsigned? n.magnitude).map fun x =>
      if n.negative then -x else x := by
  obtain ⟨c, cs, h, hd⟩ := n.magnitude_eq_cons
  have unsigned : Decimal.readMagnitude? n.magnitude = Decimal.readUnsigned? n.magnitude := by
    rw [h, readMagnitude?_of_head hd]
  cases hn : n.negative with
  | true =>
    rw [Numeral.chars, hn, if_pos rfl, ← unsigned]
    rfl
  | false =>
    rw [Numeral.chars, hn, if_neg (by simp), ← unsigned, h, Decimal.read?.eq_3]
    · simp
    · rintro ds he
      cases he
      exact absurd hd (by decide)
    · rintro ds he
      cases he
      exact absurd hd (by decide)

theorem readInt?_numeral (n : Numeral) :
    Text.readInt? n.chars = (Text.readDigits? n.magnitude).map fun (k : Nat) =>
      if n.negative then -(k : Int) else k := by
  obtain ⟨c, cs, h, hd⟩ := n.magnitude_eq_cons
  cases hn : n.negative with
  | true =>
    rw [Numeral.chars, hn, if_pos rfl, Text.readInt?]
    cases Text.readDigits? n.magnitude <;> rfl
  | false =>
    rw [Numeral.chars, hn, if_neg (by simp), h, readInt?_of_head hd]
    rfl

/-- A numeral is read as the number it stands for, with its sign or without. -/
theorem readNumber?_numeral (n : Numeral) : readNumber? n.chars = some n.value := by
  rw [readNumber?, Word.read?, readInt?_numeral, read?_numeral, Numeral.value, Numeral.magnitude]
  cases n.places with
  | none =>
    simp only [Option.elim_none, List.append_nil]
    rw [readDigits?_of_isDigit n.whole.ne_nil n.whole.isDigit,
      readUnsigned?_whole n.whole.ne_nil n.whole.isDigit]
    simp only [Option.map_some]
    split <;> simp_all
  | some places =>
    have point : Text.readDigits? (n.whole.chars ++ '.' :: places.chars) = none :=
      readDigits?_of_point (by simp)
    simp only [Option.elim_some]
    rw [point, readUnsigned?_places n.whole.ne_nil n.whole.isDigit places.isDigit]
    simp

theorem isNumber_magnitude (n : Numeral) : isNumber n.magnitude = true := by
  obtain ⟨c, cs, h, hd⟩ := n.magnitude_eq_cons
  have unsigned : ¬(n.magnitude.head? = some '-') := by
    rw [h]
    rintro he
    cases he
    exact absurd hd (by decide)
  rw [isNumber, if_neg unsigned, Numeral.magnitude, List.takeWhile_append_of_pos n.whole.isDigit,
    List.dropWhile_append_of_pos n.whole.isDigit]
  cases n.places with
  | none => simp [n.whole.ne_nil]
  | some places => simpa [n.whole.ne_nil, places.ne_nil] using places.isDigit

theorem mem_magnitude {n : Numeral} {c : Char} (h : c ∈ n.magnitude) :
    c.isDigit = true ∨ c = '.' := by
  rcases List.mem_append.mp h with h | h
  · exact .inl (n.whole.isDigit c h)
  · cases hp : n.places with
    | none => simp [hp] at h
    | some places =>
      simp only [hp, Option.elim_some, List.mem_cons] at h
      rcases h with rfl | h
      · exact .inr rfl
      · exact .inl (places.isDigit c h)

theorem isWordChar_of_mem_magnitude {n : Numeral} : ∀ c ∈ n.magnitude, isWordChar c = true := by
  intro c hc
  rcases mem_magnitude hc with digit | rfl
  · exact isWordChar_of_isDigit digit
  · rfl

theorem yields_magnitude {table : List Value} {n : Numeral} (h : n.negative = false) :
    Yields table n.magnitude (.ok (.literal n.value)) := by
  obtain ⟨c, cs, hcons, _⟩ := n.magnitude_eq_cons
  have read := readNumber?_numeral n
  rw [Numeral.chars, h, if_neg (by simp)] at read
  exact yields_of_word (by simp [hcons]) isWordChar_of_mem_magnitude
    (readCall_of_number (isNumber_magnitude n) read)

/-- Names with a dot in front of each, as they follow a root. -/
def suffix (names : List Name) : List Char := names.flatMap fun name => '.' :: name.chars

theorem suffix_eq_cons {names : List Name} (h : names ≠ []) :
    suffix names = '.' :: dotted names := by
  induction names with
  | nil => exact absurd rfl h
  | cons name names ih =>
    cases names with
    | nil => simp [suffix, dotted]
    | cons next names =>
      have := ih (by simp)
      simp only [suffix, List.flatMap_cons, List.cons_append] at this ⊢
      rw [dotted.eq_3 _ _ (by simp), this]

theorem isWordChar_of_mem_reference {root : Char} {names : List Name}
    (hr : root = '@' ∨ root = '$') : ∀ c ∈ root :: suffix names, isWordChar c = true := by
  intro c hc
  rcases List.mem_cons.mp hc with rfl | hc
  · rcases hr with rfl | rfl <;> rfl
  · obtain ⟨name, _, hc⟩ := List.mem_flatMap.mp hc
    rcases List.mem_cons.mp hc with rfl | hc
    · rfl
    · simp [isWordChar, name.isNameChar c hc]

theorem yields_reference {table : List Value} {root : Char} {names : List Name} {e : Expression}
    (hr : root = '@' ∨ root = '$') (h : readLeaf? table (root :: suffix names) = some e) :
    Yields table (root :: suffix names) (.ok e) := by
  have word := @isWordChar_of_mem_reference root names hr
  refine yields_of_word (by simp) word (readCall_of_leaf (isNumber_of_head ?_ ?_) ?_ h)
  · rcases hr with rfl | rfl <;> decide
  · rcases hr with rfl | rfl <;> decide
  · exact opening_not_mem_word word

theorem readLeaf?_element (table : List Value) (names : List Name) :
    readLeaf? table ('@' :: suffix names) = some (.element (String.ofList (dotted names))) := by
  by_cases h : names = []
  · subst h
    rfl
  · rw [suffix_eq_cons h]
    rfl

theorem readLeaf?_context (table : List Value) (names : List Name) :
    readLeaf? table ('$' :: suffix names) = some (.context (String.ofList (dotted names))) := by
  by_cases h : names = []
  · subst h
    rfl
  · rw [suffix_eq_cons h]
    rfl

/-- Leaves that are written without quotes and without a sign. -/
def Leaf.IsPlain : Leaf → Prop
  | .number n => n.negative = false
  | .string _ => False
  | _ => True

theorem Leaf.IsPlain.isWordChar {l : Leaf} (h : l.IsPlain) :
    ∀ c ∈ l.chars, isWordChar c = true := by
  cases l with
  | number n =>
    rw [Leaf.chars, Numeral.chars, h, if_neg (by simp)]
    exact isWordChar_of_mem_magnitude
  | string s => exact absurd h id
  | boolean b => cases b <;> exact List.all_eq_true.mp (by rfl)
  | null => exact List.all_eq_true.mp (by rfl)
  | element names => exact isWordChar_of_mem_reference (.inl rfl)
  | context names => exact isWordChar_of_mem_reference (.inr rfl)

theorem Leaf.IsPlain.yields {l : Leaf} (h : l.IsPlain) (table : List Value) :
    Yields table l.chars (.ok l.expression) := by
  cases l with
  | number n =>
    rw [Leaf.chars, Numeral.chars, h, if_neg (by simp)]
    exact yields_magnitude h
  | string s => exact absurd h id
  | boolean b =>
    refine yields_of_word (by cases b <;> simp [Leaf.chars]) h.isWordChar ?_
    cases b <;> exact readCall_of_leaf (by decide) (by decide) rfl
  | null =>
    refine yields_of_word (by simp [Leaf.chars]) h.isWordChar ?_
    exact readCall_of_leaf (by decide) (by decide) rfl
  | element names => exact yields_reference (.inl rfl) (readLeaf?_element table names)
  | context names => exact yields_reference (.inr rfl) (readLeaf?_context table names)

end DocumentPath.Infix
