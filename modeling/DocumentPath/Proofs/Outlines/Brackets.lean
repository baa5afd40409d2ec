import DocumentPath.Proofs.Infix.Parsing
import DocumentPath.Proofs.Outlines.Scanning

namespace DocumentPath.Infix

open DocumentPath.Filter DocumentPath.Scanner

/-- So many parentheses are open before the tokens, and they close them all. -/
def Nested : Nat → List Token → Prop
  | n, [] => n = 0
  | n, .opening :: ts => Nested (n + 1) ts
  | n + 1, .closing :: ts => Nested n ts
  | 0, .closing :: _ => False
  | n, .leaf _ :: ts => Nested n ts
  | n, .operator _ :: ts => Nested n ts

theorem Writes.nested {k n : Nat} {tree : Tree} {ts rest : List Token} (h : Writes k tree ts)
    (hr : Nested n rest) : Nested n (ts ++ rest) := by
  induction h generalizing n rest with
  | leaf k l => exact hr
  | negate k _ ih => exact ih hr
  | join _ _ _ _ ihl ihr =>
    rw [List.append_assoc]
    exact ihl (ihr hr)
  | group k _ ih =>
    rw [List.cons_append, List.append_assoc]
    exact ih hr

/-- The characters that a bracketed filter has outside its strings and between its brackets. -/
def IsInner (c : Char) : Prop := c ≠ '[' ∧ c ≠ ']'

theorem isInner_of_isPlain {c : Char} (h : isPlain c = true) : IsInner c := by
  constructor <;> rintro rfl <;> exact absurd h (by decide)

theorem isPlain_of_isWordChar {c : Char} (h : isWordChar c = true) : isPlain c = true :=
  decide_eq_true (not_mem_of_class (by rfl) h)

theorem isPlain_of_isBlank {c : Char} (h : Text.isBlank c = true) : isPlain c = true :=
  decide_eq_true (not_mem_of_class (by rfl) h)

theorem crosses_isPlain {cs : List Char} (d : Int) (h : ∀ c ∈ cs, isPlain c = true) :
    Crosses IsInner d d cs :=
  crosses_of_plain (fun c hc => .inl (h c hc)) fun c hc => isInner_of_isPlain (h c hc)

theorem next_of_quote {c : Char} (h : isQuote c = true) {d : Int} (opens : c = '"' ∨ 0 < d) :
    (between d).next c = inside c false d := by
  have quotes : c = '"' ∨ c = '\'' := by simpa [isQuote] using h
  have opened : c = '"' ∨ c = '\'' ∧ 0 < d := by
    cases quotes with
    | inl double => exact .inl double
    | inr apostrophe => exact .inr ⟨apostrophe, opens.resolve_left (by simp [apostrophe])⟩
  simp [between, next, inside, opened]

theorem scan_inner {quote : Char} {body : List (Bool × Char)} (d : Int)
    (h : ∀ c, (false, c) ∈ body → c ≠ quote ∧ c ≠ '\\') :
    (inside quote false d).after (Quotation.inner body) = inside quote false d ∧
      (inside quote false d).outside (Quotation.inner body) = [] := by
  induction body with
  | nil => exact ⟨rfl, rfl⟩
  | cons written body ih =>
    obtain ⟨escaped, c⟩ := written
    obtain ⟨same, none⟩ := ih fun c hc => h c (by simp [hc])
    cases escaped with
    | true =>
      have first : (inside quote false d).next '\\' = inside quote true d := rfl
      have second : (inside quote true d).next c = inside quote false d := rfl
      show (inside quote false d).after ('\\' :: c :: Quotation.inner body) = _ ∧
        (inside quote false d).outside ('\\' :: c :: Quotation.inner body) = _
      rw [after_cons, after_cons, outside_cons, outside_cons, first, second, isOutside_inside,
        isOutside_inside]
      exact ⟨same, none⟩
    | false =>
      obtain ⟨h1, h2⟩ := h c (by simp)
      have first : (inside quote false d).next c = inside quote false d := by
        simp [inside, next, h1, h2]
      show (inside quote false d).after (c :: Quotation.inner body) = _ ∧
        (inside quote false d).outside (c :: Quotation.inner body) = _
      rw [after_cons, outside_cons, first, isOutside_inside]
      exact ⟨same, none⟩

/-- Nothing of a written string is outside it. -/
theorem crosses_quotation (P : Char → Prop) (s : Quotation) {d : Int}
    (hd : s.quote = '"' ∨ 0 < d) : Crosses P d d s.chars := by
  have quote : s.quote = '"' ∨ s.quote = '\'' := by simpa [isQuote] using s.isQuote
  have slash : s.quote ≠ '\\' := by rcases quote with h | h <;> simp [h]
  have opened : (between d).next s.quote = inside s.quote false d := next_of_quote s.isQuote hd
  have closed : (inside s.quote false d).next s.quote = between d := by
    simp [inside, next, between, slash]
  have begins : (between d).isOutside s.quote = false := by simp [isOutside, opened, inside]
  obtain ⟨same, none⟩ := scan_inner d s.plain
  constructor
  · rw [Quotation.chars, after_cons, opened, after_append, same]
    exact closed
  · rw [Quotation.chars, outside_cons, opened, begins, outside_append, none, same, outside_cons,
      isOutside_inside]
    simp [outside, marks]

theorem isPlain_of_mem_symbol {op : Operator} : ∀ c ∈ symbol op, isPlain c = true :=
  List.all_eq_true.mp (by cases op <;> rfl)

theorem crosses_leaf (l : Leaf) {d : Int} (hd : 0 < d) : Crosses IsInner d d l.chars := by
  by_cases plain : l.IsPlain
  · exact crosses_isPlain d fun c hc => isPlain_of_isWordChar (plain.isWordChar c hc)
  · rcases Leaf.eq_of_not_isPlain plain with ⟨s, rfl⟩ | ⟨n, rfl, negative⟩
    · exact crosses_quotation IsInner s (.inr hd)
    · rw [Leaf.chars, Numeral.chars, negative, if_pos rfl]
      apply crosses_isPlain
      intro c hc
      rcases List.mem_cons.mp hc with rfl | hc
      · rfl
      · exact isPlain_of_isWordChar (isWordChar_of_mem_magnitude c hc)

/-- A written expression has no bracket outside its strings and closes its parentheses. -/
theorem crosses_spaced {ts : List Token} {n : Nat} {d : Int} {cs : List Char} (h : Nested n ts)
    (hs : Spaced (ts.map Token.chars) cs) (hd : 0 < d) : Crosses IsInner (d + n) d cs := by
  induction ts generalizing n cs with
  | nil =>
    have closed : n = 0 := h
    subst closed
    cases hs with
    | nil hgap => simpa using crosses_isPlain d fun c hc => isPlain_of_isBlank (hgap c hc)
  | cons t ts ih =>
    rw [List.map_cons] at hs
    cases hs with
    | @cons gap _ rest _ hgap _ hrest =>
      have blanks : Crosses IsInner (d + n) (d + n) gap :=
        crosses_isPlain _ fun c hc => isPlain_of_isBlank (hgap c hc)
      have token : ∃ m : Nat, Nested m ts ∧ Crosses IsInner (d + n) (d + m) t.chars := by
        cases t with
        | leaf l => exact ⟨n, h, crosses_leaf l (by omega)⟩
        | operator op => exact ⟨n, h, crosses_isPlain _ isPlain_of_mem_symbol⟩
        | opening =>
          refine ⟨n + 1, h, crosses_char ?_ ⟨by decide, by decide⟩⟩
          simp [between, next]
          omega
        | closing =>
          cases n with
          | zero => exact absurd h id
          | succ m =>
            refine ⟨m, h, crosses_char ?_ ⟨by decide, by decide⟩⟩
            simp [between, next]
            omega
      obtain ⟨m, hm, ht⟩ := token
      exact blanks.append (ht.append (ih hm hrest))

theorem crosses_isText {tree : Tree} {cs : List Char} (h : IsText tree cs) {d : Int} (hd : 0 < d) :
    Crosses IsInner d d cs := by
  obtain ⟨ts, hts, hs⟩ := h
  have nested : Nested 0 ts := by
    have := hts.nested (show Nested 0 [] from rfl)
    rwa [List.append_nil] at this
  simpa using crosses_spaced nested hs hd

/-- The leaves of an expression. -/
def Tree.leaves : Tree → List Leaf
  | .leaf l => [l]
  | .negate operand => operand.leaves
  | .join _ _ left right => left.leaves ++ right.leaves

/-- The names in the path of a reference. -/
def Leaf.names : Leaf → List Name
  | .element names | .context names => names
  | _ => []

/-- Whether all names are of ASCII characters; a filter in a path has no others. -/
def Tree.IsAscii (tree : Tree) : Prop :=
  ∀ l ∈ tree.leaves, ∀ name ∈ l.names, ∀ c ∈ name.chars, c.toNat < 0x80

theorem Writes.mem_leaves {k : Nat} {tree : Tree} {ts : List Token} (h : Writes k tree ts) {l : Leaf}
    (hl : .leaf l ∈ ts) : l ∈ tree.leaves := by
  induction h with
  | leaf k m =>
    cases List.mem_singleton.mp hl
    exact List.mem_singleton.mpr rfl
  | negate k _ ih => exact ih (by simpa using hl)
  | join _ _ _ _ ihl ihr =>
    rcases List.mem_append.mp hl with hl | hl
    · exact List.mem_append_left _ (ihl hl)
    · exact List.mem_append_right _ (ihr (by simpa using hl))
  | group k _ ih => exact ih (by simpa using hl)

theorem isBodyChar_of_isDigit {c : Char} (h : c.isDigit = true) : isBodyChar c = true := by
  simp [isBodyChar, Char.isAlphanum, h]

theorem isBodyChar_of_isBlank {c : Char} (h : Text.isBlank c = true) : isBodyChar c = true := by
  simp [isBodyChar, h]

theorem isBodyChar_of_isNameChar {c : Char} (h : isNameChar c = true) (hc : c.toNat < 0x80) :
    isBodyChar c = true := by
  rw [isNameChar, Text.isAlphanumeric, if_pos hc] at h
  rcases Bool.or_eq_true _ _ ▸ h with h | h
  · simp [isBodyChar, h]
  · have := of_decide_eq_true h
    subst this
    rfl

theorem isBodyChar_of_mem_suffix {names : List Name}
    (h : ∀ name ∈ names, ∀ c ∈ name.chars, c.toNat < 0x80) :
    ∀ c ∈ suffix names, isBodyChar c = true := by
  intro c hc
  obtain ⟨name, hname, hc⟩ := List.mem_flatMap.mp hc
  rcases List.mem_cons.mp hc with rfl | hc
  · rfl
  · exact isBodyChar_of_isNameChar (name.isNameChar c hc) (h name hname c hc)

theorem isBodyChar_of_mem_numeral (n : Numeral) : ∀ c ∈ n.chars, isBodyChar c = true := by
  have magnitude : ∀ c ∈ n.magnitude, isBodyChar c = true := by
    intro c hc
    rcases mem_magnitude hc with digit | rfl
    · exact isBodyChar_of_isDigit digit
    · rfl
  intro c hc
  rw [Numeral.chars] at hc
  split at hc
  · rcases List.mem_cons.mp hc with rfl | hc
    · rfl
    · exact magnitude c hc
  · exact magnitude c hc

/-- What stands for a token once the strings are out is of the characters of filters. -/
theorem isBodyChar_of_extracted {table : List Value} {t : Token} {w : List Char}
    (h : Extracted table t w)
    (ascii : ∀ l, t = .leaf l → ∀ name ∈ l.names, ∀ c ∈ name.chars, c.toNat < 0x80) :
    ∀ c ∈ w, isBodyChar c = true := by
  cases h with
  | string _ =>
    intro c hc
    rcases List.mem_cons.mp hc with rfl | hc
    · rfl
    · exact isBodyChar_of_isDigit (Text.isDigit_of_mem_decimal hc)
  | plain ht =>
    cases t with
    | leaf l =>
      have names := ascii l rfl
      cases l with
      | number n => exact isBodyChar_of_mem_numeral n
      | string s => exact absurd rfl (ht s)
      | boolean b => cases b <;> exact List.all_eq_true.mp (by rfl)
      | null => exact List.all_eq_true.mp (by rfl)
      | element names' => exact List.forall_mem_cons.mpr ⟨rfl, isBodyChar_of_mem_suffix names⟩
      | context names' => exact List.forall_mem_cons.mpr ⟨rfl, isBodyChar_of_mem_suffix names⟩
    | operator op => exact List.all_eq_true.mp (by cases op <;> rfl)
    | opening => exact List.forall_mem_singleton.mpr rfl
    | closing => exact List.forall_mem_singleton.mpr rfl

theorem isBodyChar_of_mem_words {table : List Value} {ts : List Token} {words : List (List Char)}
    (h : List.Forall₂ (Extracted table) ts words)
    (ascii : ∀ l, .leaf l ∈ ts → ∀ name ∈ l.names, ∀ c ∈ name.chars, c.toNat < 0x80) :
    ∀ w ∈ words, ∀ c ∈ w, isBodyChar c = true := by
  induction h with
  | nil => simp
  | @cons t w ts words ht _ ih =>
    have here := isBodyChar_of_extracted ht fun l hl => ascii l (by simp [hl])
    exact List.forall_mem_cons.mpr ⟨here, ih fun l hl => ascii l (by simp [hl])⟩

theorem mem_of_spaced {words : List (List Char)} {cs : List Char} (h : Spaced words cs) :
    ∀ c ∈ cs, Text.isBlank c = true ∨ ∃ w ∈ words, c ∈ w := by
  induction h with
  | nil hgap => exact fun c hc => .inl (hgap c hc)
  | @cons gap word cs words hgap _ _ ih =>
    intro c hc
    rcases List.mem_append.mp hc with hc | hc
    · exact .inl (hgap c hc)
    · rcases List.mem_append.mp hc with hc | hc
      · exact .inr ⟨word, by simp, hc⟩
      · rcases ih c hc with blank | ⟨w, hw, hc⟩
        · exact .inl blank
        · exact .inr ⟨w, by simp [hw], hc⟩

theorem Writes.ne_nil {k : Nat} {tree : Tree} {ts : List Token} (h : Writes k tree ts) :
    ts ≠ [] := by
  cases h <;> simp

/-- A written expression of ASCII names has the characters of a filter. -/
theorem extract_isText {tree : Tree} {cs : List Char} (h : IsText tree cs) (ascii : tree.IsAscii) :
    ∃ extraction, extract cs = .ok extraction ∧ extraction.text ≠ [] ∧
      extraction.text.all isBodyChar = true := by
  obtain ⟨ts, hts, hspaced⟩ := h
  obtain ⟨words, strings, text, hextract, hwords, extracted⟩ := extractFrom_spaced hspaced []
  refine ⟨⟨text, strings⟩, hextract, ?_, List.all_eq_true.mpr ?_⟩
  · intro empty
    change text = [] at empty
    subst empty
    have length := extracted.length_eq
    generalize hz : ([] : List Char) = z at hwords
    cases hwords with
    | nil => exact hts.ne_nil (List.length_eq_zero_iff.mp length)
    | @cons gap word rest words _ _ _ =>
      have none : word ++ rest = [] := (List.append_eq_nil_iff.mp hz.symm).2
      exact (isWord_of_extracted extracted word (by simp)).ne_nil
        (List.append_eq_nil_iff.mp none).1
  · intro c hc
    rcases mem_of_spaced hwords c hc with blank | ⟨w, hw, hc⟩
    · exact isBodyChar_of_isBlank blank
    · exact isBodyChar_of_mem_words extracted (fun l hl => ascii l (hts.mem_leaves hl)) w hw c hc

end DocumentPath.Infix

namespace DocumentPath

open Scanner

theorem Text.trim_of_ends {c d : Char} {cs : List Char} (hc : isBlank c = false)
    (hd : isBlank d = false) : trim (c :: (cs ++ [d])) = c :: (cs ++ [d]) := by
  have front : (c :: (cs ++ [d])).dropWhile isBlank = c :: (cs ++ [d]) :=
    List.dropWhile_cons_of_neg (by simp [hc])
  have back : (c :: (cs ++ [d])).reverse.dropWhile isBlank = (c :: (cs ++ [d])).reverse := by
    rw [← List.cons_append, List.reverse_append]
    exact List.dropWhile_cons_of_neg (by simp [hd])
  rw [trim, front, back, List.reverse_reverse]

/-- The text of a filter in brackets. -/
def bracketed (body : List Char) : List Char := '[' :: (('?' :: '(' :: (body ++ [')'])) ++ [']'])

theorem crosses_body {body : List Char} (h : Crosses Infix.IsInner 2 2 body) :
    Crosses Infix.IsInner 1 1 ('?' :: '(' :: (body ++ [')'])) := by
  have question : Crosses Infix.IsInner 1 1 ['?'] := crosses_char rfl ⟨by decide, by decide⟩
  have opening : Crosses Infix.IsInner 1 2 ['('] := crosses_char rfl ⟨by decide, by decide⟩
  have closing : Crosses Infix.IsInner 2 1 [')'] := crosses_char rfl ⟨by decide, by decide⟩
  exact question.append (opening.append (h.append closing))

theorem after_bracketed {body : List Char} (h : Crosses Infix.IsInner 2 2 body) :
    start.after (bracketed body) = start := by
  have inner := (crosses_body h).1
  rw [bracketed, after_cons]
  show (between 1).after _ = _
  rw [after_append, inner]
  rfl

theorem outside_opening (cs : List Char) :
    start.outside ('[' :: cs) = '[' :: (between 1).outside cs := outside_cons start '[' cs

theorem count_inner {cs : List Char} (h : ∀ c ∈ cs, Infix.IsInner c) :
    cs.count '[' = 0 ∧ cs.count ']' = 0 :=
  ⟨List.count_eq_zero.mpr fun hc => (h _ hc).1 rfl, List.count_eq_zero.mpr fun hc => (h _ hc).2 rfl⟩

theorem isBalanced_bracketed {body : List Char} (h : Crosses Infix.IsInner 2 2 body) :
    isBalanced '[' ']' (bracketed body) = true := by
  obtain ⟨inner, plain⟩ := crosses_body h
  obtain ⟨h1, h2⟩ := count_inner plain
  have last : (between 1).outside [']'] = [']'] := rfl
  have closed : excess '[' ']' (bracketed body) = 0 := by
    rw [excess_eq, bracketed, outside_opening, outside_append, inner, last]
    simp [h1, h2]
  rw [isBalanced, closed, after_bracketed h]
  rfl

/-- The bracket in front stays open up to the last character. -/
theorem excess_bracketed {body u v : List Char} (h : Crosses Infix.IsInner 2 2 body)
    (hu : bracketed body = u ++ '.' :: v) : 0 < excess '[' ']' u := by
  cases u with
  | nil => exact absurd (List.cons.inj hu).1 (by decide)
  | cons c w =>
    obtain ⟨rfl, hw⟩ := List.cons.inj hu
    rcases List.append_eq_append_iff.mp hw with ⟨a, _, ha⟩ | ⟨a, ha, _⟩
    · cases a with
      | nil => exact absurd (List.cons.inj ha).1 (by decide)
      | cons x a => simp at ha
    · have plain : ∀ c ∈ (between 1).outside w, Infix.IsInner c := by
        intro c hc
        apply (crosses_body h).2
        rw [ha, outside_append]
        exact List.mem_append_left _ hc
      obtain ⟨h1, h2⟩ := count_inner plain
      rw [excess_eq, outside_opening]
      simp [h1, h2]

/-- A filter between brackets is read from its body. -/
theorem ofBrackets_body (body : List Char) :
    Filter.ofBrackets (bracketed body) =
      match Filter.extract body with
      | .error fault => .error (.expression fault)
      | .ok extraction =>
        if extraction.text ≠ [] ∧ extraction.text.all Filter.isBodyChar then
          ((Expression.parse (String.ofList body)).mapError .expression).map some
        else .error (.query (.filterCharacters (String.ofList (bracketed body)))) := by
  have trimmed : Text.trim (bracketed body) = bracketed body := Text.trim_of_ends rfl rfl
  have filter : bracketed body ≠ ['[', '*', ']'] := by
    intro h
    exact absurd (List.cons.inj (List.cons.inj h).2).1 (by decide)
  have found : Filter.body? (bracketed body) = some body := by
    have reversed : (body ++ [')', ']']).reverse = ']' :: ')' :: body.reverse := by simp
    have same : bracketed body = '[' :: '?' :: '(' :: (body ++ [')', ']']) := by simp [bracketed]
    rw [same, Filter.body?, reversed]
    simp
  rw [Filter.ofBrackets, trimmed, if_neg filter]
  cases extracted : Filter.extract body <;> simp only [found, extracted]

theorem ofBrackets_bracketed {body : List Char} {extraction : Filter.Extraction}
    (extracted : Filter.extract body = .ok extraction) (some_text : extraction.text ≠ [])
    (supported : extraction.text.all Filter.isBodyChar = true) :
    Filter.ofBrackets (bracketed body) =
      ((Expression.parse (String.ofList body)).mapError .expression).map some := by
  rw [ofBrackets_body, extracted]
  exact if_pos ⟨some_text, supported⟩

/-- The filter that a body is read as has been parsed from characters of filters. -/
theorem exists_of_ofBrackets {body : List Char} {e : Expression}
    (h : Filter.ofBrackets (bracketed body) = .ok (some e)) :
    Expression.parse (String.ofList body) = .ok e ∧ ∃ extraction,
      Filter.extract body = .ok extraction ∧ extraction.text.all Filter.isBodyChar = true := by
  rw [ofBrackets_body] at h
  split at h
  · cases h
  · rename_i extraction extracted
    split_ifs at h with supported
    refine ⟨?_, extraction, extracted, supported.2⟩
    cases parsed : Expression.parse (String.ofList body) with
    | error fault =>
      rw [parsed] at h
      cases h
    | ok e' =>
      rw [parsed] at h
      cases h
      rfl

end DocumentPath
