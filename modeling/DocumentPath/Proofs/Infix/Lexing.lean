import Mathlib.Data.List.Forall2
import DocumentPath.Proofs.Infix.Reading

namespace DocumentPath.Infix

open DocumentPath.Filter

theorem extractFrom_plain {w : List Char} (h : ∀ c ∈ w, isQuote c = false) (n : Nat)
    (cs : List Char) :
    extractFrom n .plain (w ++ cs) =
      (extractFrom n .plain cs).map fun e => ⟨w ++ e.text, e.strings⟩ := by
  induction w with
  | nil =>
    simp only [List.nil_append]
    cases extractFrom n .plain cs <;> rfl
  | cons c w ih =>
    rw [List.cons_append, extractFrom, if_neg (by simp [h c]), ih fun d hd => h d (by simp [hd])]
    cases extractFrom n .plain cs <;> rfl

/-- Inside a string every written character is read, up to the closing quote. -/
theorem extractFrom_inner {quote : Char} {body : List (Bool × Char)} (hq : quote ≠ '\\')
    (h : ∀ c, (false, c) ∈ body → c ≠ quote ∧ c ≠ '\\') (n : Nat) (read cs : List Char) :
    extractFrom n (.inside quote read false) (Quotation.inner body ++ quote :: cs) =
      (extractFrom (n + 1) .plain cs).map fun e =>
        ⟨placeholder n ++ e.text,
          String.ofList (read.reverse ++ body.map Prod.snd) :: e.strings⟩ := by
  induction body generalizing read with
  | nil => simp [Quotation.inner, extractFrom, hq]
  | cons written body ih =>
    obtain ⟨escaped, c⟩ := written
    have tail := ih (fun d hd => h d (by simp [hd])) (c :: read)
    simp only [List.reverse_cons, List.append_assoc, List.singleton_append] at tail
    cases escaped with
    | true =>
      change extractFrom n (.inside quote read false)
        ('\\' :: c :: (Quotation.inner body ++ quote :: cs)) = _
      rw [extractFrom, if_neg (by simp), if_pos rfl, extractFrom, if_pos rfl, tail]
      rfl
    | false =>
      obtain ⟨h1, h2⟩ := h c (by simp)
      change extractFrom n (.inside quote read false)
        (c :: (Quotation.inner body ++ quote :: cs)) = _
      rw [extractFrom, if_neg (by simp), if_neg h2, if_neg h1, tail]
      rfl

theorem extractFrom_quotation (s : Quotation) (n : Nat) (cs : List Char) :
    extractFrom n .plain (s.chars ++ cs) =
      (extractFrom (n + 1) .plain cs).map fun e =>
        ⟨placeholder n ++ e.text, s.value :: e.strings⟩ := by
  have hq : s.quote ≠ '\\' := by
    intro h
    have := s.isQuote
    rw [h] at this
    exact absurd this (by decide)
  have inner := extractFrom_inner hq s.plain n [] cs
  rw [Quotation.chars, List.cons_append, List.append_assoc, List.singleton_append, extractFrom,
    if_pos s.isQuote, inner]
  rfl

theorem isQuote_eq_false {c : Char} (h1 : c ≠ '"') (h2 : c ≠ '\'') : isQuote c = false := by
  simp [isQuote, h1, h2]

theorem isQuote_of_isWordChar {c : Char} (h : isWordChar c = true) : isQuote c = false :=
  isQuote_eq_false (ne_of_isWordChar h rfl) (ne_of_isWordChar h rfl)

theorem isQuote_of_isBlank {c : Char} (h : Text.isBlank c = true) : isQuote c = false := by
  apply isQuote_eq_false <;> rintro rfl <;> exact absurd h (by decide)

theorem isQuote_of_mem_symbol {op : Operator} : ∀ c ∈ symbol op, isQuote c = false := by
  have h : ((symbol op).all fun c => !isQuote c) = true := by cases op <;> rfl
  intro c hc
  simpa using List.all_eq_true.mp h c hc

theorem isQuote_of_mem_token {t : Token} (ht : ∀ s, t ≠ .leaf (.string s)) :
    ∀ c ∈ t.chars, isQuote c = false := by
  intro c hc
  cases t with
  | leaf l =>
    by_cases hp : l.IsPlain
    · exact isQuote_of_isWordChar (hp.isWordChar c hc)
    · cases l with
      | number n =>
        have hn : n.negative = true := by simpa [Leaf.IsPlain] using hp
        rw [Token.chars, Leaf.chars, Numeral.chars, hn, if_pos rfl] at hc
        rcases List.mem_cons.mp hc with rfl | hc
        · rfl
        · exact isQuote_of_isWordChar (isWordChar_of_mem_magnitude c hc)
      | string s => exact absurd rfl (ht s)
      | _ => exact absurd trivial hp
  | operator op => exact isQuote_of_mem_symbol c hc
  | opening =>
    cases List.mem_singleton.mp hc
    rfl
  | closing =>
    cases List.mem_singleton.mp hc
    rfl

/-- The word stands for a token in a text whose strings are in a table. -/
inductive Extracted (table : List Value) : Token → List Char → Prop
  | string {s : Quotation} {i : Nat} :
    table[i]? = some (.string s.value) → Extracted table (.leaf (.string s)) (placeholder i)
  | plain {t : Token} : (∀ s, t ≠ .leaf (.string s)) → Extracted table t t.chars

theorem head?_extractFrom {n : Nat} {cs : List Char} {e : Extraction}
    (hb : cs.head?.any Text.isBlank = true) (h : extractFrom n .plain cs = .ok e) :
    e.text.head?.any Text.isBlank = true := by
  cases cs with
  | nil => simp at hb
  | cons c cs =>
    have blank : Text.isBlank c = true := by simpa using hb
    rw [extractFrom, if_neg (by simp [isQuote_of_isBlank blank])] at h
    cases he : extractFrom n .plain cs with
    | error fault => simp [he, Except.map] at h
    | ok d =>
      rw [he] at h
      cases h
      simpa using hb

theorem inWord_ne_placeholder (i : Nat) : placeholder i ≠ inWord := by
  simp [placeholder, inWord, symbol]

/-- Taking the strings out of a written text leaves a written text of the same tokens. -/
theorem extractFrom_spaced {ts : List Token} {cs : List Char}
    (h : Spaced (ts.map Token.chars) cs) (before : List Value) :
    ∃ words strings text, extractFrom before.length .plain cs = .ok ⟨text, strings⟩ ∧
      Spaced words text ∧ List.Forall₂ (Extracted (before ++ strings.map .string)) ts words := by
  induction ts generalizing cs before with
  | nil =>
    cases h with
    | nil hgap =>
      refine ⟨[], [], cs, ?_, .nil hgap, .nil⟩
      have := extractFrom_plain (fun c hc => isQuote_of_isBlank (hgap c hc)) before.length []
      rw [List.append_nil, extractFrom.eq_1] at this
      simpa [Except.map] using this
  | cons t ts ih =>
    rw [List.map_cons] at h
    cases h with
    | @cons gap _ rest _ hgap hin hrest =>
      have blanks := extractFrom_plain (fun c hc => isQuote_of_isBlank (hgap c hc)) before.length
        (t.chars ++ rest)
      by_cases hs : ∃ s, t = .leaf (.string s)
      · obtain ⟨s, rfl⟩ := hs
        obtain ⟨words, strings, text, he, hw, hall⟩ := ih hrest (before ++ [.string s.value])
        rw [List.length_append, List.length_singleton] at he
        refine ⟨placeholder before.length :: words, s.value :: strings,
          gap ++ (placeholder before.length ++ text), ?_, ?_, ?_⟩
        · rw [blanks, Token.chars, Leaf.chars, extractFrom_quotation, he]
          rfl
        · exact .cons hgap (fun hi => absurd hi (inWord_ne_placeholder _)) hw
        · rw [List.append_assoc, List.singleton_append] at hall
          refine .cons (.string ?_) hall
          simp
      · have ht : ∀ s, t ≠ .leaf (.string s) := fun s he => hs ⟨s, he⟩
        obtain ⟨words, strings, text, he, hw, hall⟩ := ih hrest before
        refine ⟨t.chars :: words, strings, gap ++ (t.chars ++ text), ?_, ?_, ?_⟩
        · rw [blanks, extractFrom_plain (isQuote_of_mem_token ht), he]
          rfl
        · exact .cons hgap (fun hi => ⟨(hin hi).1, head?_extractFrom (hin hi).2 he⟩) hw
        · exact .cons (.plain ht) hall

/-- How a word stands in the text once the blanks are gone. -/
def mark (w : List Char) : List Char := if w = inWord then [wordMark] else w

/-- A word without blanks that cannot be taken for the word `in`, unless it is that word. -/
structure IsWord (w : List Char) : Prop where
  ne_nil : w ≠ []
  noBlank : ∀ c ∈ w, Text.isBlank c = false
  head : w ≠ inWord → w.head? ≠ some 'i'

/-- No word `in` follows another. -/
def Parted : List (List Char) → Prop
  | v :: w :: words => (v = inWord → w ≠ inWord) ∧ Parted (w :: words)
  | _ => True

theorem joinWords_nil : joinWords [] = [] := by rw [joinWords.eq_def]

theorem joinWords_cons {c : Char} (h : Text.isBlank c = false) (cs : List Char) :
    joinWords (c :: cs) = c :: joinWords cs := by
  rw [joinWords.eq_def]
  simp only [h, Bool.false_eq_true, if_false]

theorem joinWords_word {w : List Char} (h : ∀ c ∈ w, Text.isBlank c = false) (cs : List Char) :
    joinWords (w ++ cs) = w ++ joinWords cs := by
  induction w with
  | nil => rfl
  | cons c w ih =>
    rw [List.cons_append, joinWords_cons (h c (by simp)), ih fun d hd => h d (by simp [hd])]
    rfl

theorem dropWhile_gap {gap cs : List Char} (hgap : ∀ c ∈ gap, Text.isBlank c = true)
    (hcs : cs.head?.any Text.isBlank = false) : (gap ++ cs).dropWhile Text.isBlank = cs :=
  (takeWhile_append_of_head hgap hcs).2

theorem joinWords_blank {b : Char} (h : Text.isBlank b = true) (cs : List Char) :
    joinWords (b :: cs) =
      match (afterWord? (cs.dropWhile Text.isBlank)).map Subtype.val with
      | some rest => wordMark :: joinWords rest
      | none => joinWords cs := by
  rw [joinWords.eq_def]
  simp only [h, if_true]
  cases afterWord? (cs.dropWhile Text.isBlank) <;> rfl

/-- Blanks in front of anything but the word `in` are dropped. -/
theorem joinWords_gap {gap cs : List Char} (hgap : ∀ c ∈ gap, Text.isBlank c = true)
    (hcs : cs.head?.any Text.isBlank = false) (hin : afterWord? cs = none) :
    joinWords (gap ++ cs) = joinWords cs := by
  induction gap with
  | nil => rfl
  | cons c gap ih =>
    have blanks : ∀ d ∈ gap, Text.isBlank d = true := fun d hd => hgap d (by simp [hd])
    rw [List.cons_append, joinWords_blank (hgap c (by simp)), dropWhile_gap blanks hcs, hin]
    exact ih blanks

/-- Blanks around the word `in` are dropped, and the word becomes a mark. -/
theorem joinWords_in {gap : List Char} {cs : List Char}
    (hgap : ∀ d ∈ gap, Text.isBlank d = true) (hne : gap ≠ [])
    (hcs : cs.head?.any Text.isBlank = true) :
    joinWords (gap ++ (inWord ++ cs)) = wordMark :: joinWords (cs.dropWhile Text.isBlank) := by
  cases gap with
  | nil => exact absurd rfl hne
  | cons b gap =>
    cases cs with
    | nil => simp at hcs
    | cons c cs =>
      have blank : Text.isBlank c = true := by simpa using hcs
      have blanks : ∀ d ∈ gap, Text.isBlank d = true := fun d hd => hgap d (by simp [hd])
      have word : (gap ++ (inWord ++ c :: cs)).dropWhile Text.isBlank = 'i' :: 'n' :: c :: cs :=
        dropWhile_gap blanks rfl
      rw [List.cons_append, joinWords_blank (hgap b (by simp)), word, afterWord?, if_pos blank,
        List.dropWhile_cons_of_pos blank]
      rfl

theorem afterWord?_of_head {cs : List Char} (h : cs.head? ≠ some 'i') : afterWord? cs = none := by
  rw [afterWord?.eq_2]
  rintro c ds rfl
  simp at h

theorem head?_word {w : List Char} (h : w ≠ []) (cs : List Char) : (w ++ cs).head? = w.head? := by
  cases w with
  | nil => exact absurd rfl h
  | cons c w => rfl

theorem IsWord.head_noBlank {w : List Char} (h : IsWord w) (cs : List Char) :
    (w ++ cs).head?.any Text.isBlank = false := by
  rw [head?_word h.ne_nil]
  cases w with
  | nil => exact absurd rfl h.ne_nil
  | cons c w => simpa using h.noBlank c (by simp)

/-- Joining a written text gives its words, one behind the other. The blanks in front of its first
word may be gone before, when that word is not `in`. -/
theorem joinWords_spaced {words : List (List Char)} {cs : List Char} (h : Spaced words cs)
    (hw : ∀ w ∈ words, IsWord w) (hp : Parted words) :
    joinWords cs = words.flatMap mark ∧
      (words.head? ≠ some inWord → joinWords (cs.dropWhile Text.isBlank) = words.flatMap mark) := by
  -- behind the word `in` the blanks are gone already, so the claim is for both texts at once
  induction h with
  | @nil gap hgap =>
    have empty : joinWords gap = [] := by
      have := @joinWords_gap gap [] hgap rfl rfl
      rwa [List.append_nil, joinWords_nil] at this
    have drop : gap.dropWhile Text.isBlank = [] := List.dropWhile_eq_nil_iff.mpr hgap
    rw [drop, joinWords_nil]
    exact ⟨empty, fun _ => rfl⟩
  | @cons gap word cs words hgap hin hrest ih =>
    have first := hw word (by simp)
    have parted : Parted words := by
      cases words with
      | nil => trivial
      | cons v words => exact hp.2
    obtain ⟨rest, skipped⟩ := ih (fun w h => hw w (by simp [h])) parted
    have drop : (gap ++ (word ++ cs)).dropWhile Text.isBlank = word ++ cs :=
      dropWhile_gap hgap (first.head_noBlank cs)
    by_cases he : word = inWord
    · obtain ⟨hne, hcs⟩ := hin he
      have next : words.head? ≠ some inWord := by
        cases words with
        | nil => simp
        | cons v words => simpa using hp.1 he
      refine ⟨?_, fun hh => absurd (by simp [he]) hh⟩
      rw [he, joinWords_in hgap hne hcs, skipped next, List.flatMap_cons, mark, if_pos rfl]
      rfl
    · have word_eq : joinWords (word ++ cs) = (word :: words).flatMap mark := by
        rw [joinWords_word first.noBlank, rest, List.flatMap_cons, mark, if_neg he]
      have skip : afterWord? (word ++ cs) = none := by
        apply afterWord?_of_head
        rw [head?_word first.ne_nil]
        exact first.head he
      rw [drop, joinWords_gap hgap (first.head_noBlank cs) skip, word_eq]
      exact ⟨rfl, fun _ => rfl⟩

/-- The code points of all blanks. -/
def blanks : List Nat :=
  [9, 10, 11, 12, 13, 0x20, 0x85, 0xA0, 0x1680, 0x2000, 0x2001, 0x2002, 0x2003, 0x2004, 0x2005,
    0x2006, 0x2007, 0x2008, 0x2009, 0x200A, 0x2028, 0x2029, 0x202F, 0x205F, 0x3000]

theorem isWordChar_blanks : ∀ n ∈ blanks, isWordChar (Char.ofNat n) = false := by
  decide +kernel

theorem isBlank_of_class {p : Char → Bool} (blank : ∀ n ∈ blanks, p (Char.ofNat n) = false)
    {c : Char} (h : p c = true) : Text.isBlank c = false := by
  cases hb : Text.isBlank c with
  | false => rfl
  | true =>
    have mem : c.toNat ∈ blanks := by
      simp only [Text.isBlank, Bool.or_eq_true, Bool.and_eq_true, decide_eq_true_eq,
        beq_iff_eq] at hb
      simp only [blanks, List.mem_cons, List.not_mem_nil, or_false]
      omega
    have self : p (Char.ofNat c.toNat) = p c := congrArg p (Char.ofNat_toNat c)
    exact absurd (h.symm.trans (self.symm.trans (blank c.toNat mem))) (by simp)

theorem isBlank_of_isWordChar {c : Char} (h : isWordChar c = true) : Text.isBlank c = false :=
  isBlank_of_class isWordChar_blanks h

theorem isWord_of_isWordChar {w : List Char} (hne : w ≠ []) (hi : w.head? ≠ some 'i')
    (h : ∀ c ∈ w, isWordChar c = true) : IsWord w :=
  ⟨hne, fun c hc => isBlank_of_isWordChar (h c hc), fun _ => hi⟩

theorem isWord_symbol (op : Operator) : IsWord (symbol op) where
  ne_nil := by
    rw [symbol]
    split_ifs
    · exact List.cons_ne_nil _ _
    · exact token_ne_nil op
  noBlank := by
    have h : ((symbol op).all fun c => !Text.isBlank c) = true := by cases op <;> rfl
    intro c hc
    simpa using List.all_eq_true.mp h c hc
  head := by
    intro hne
    cases op <;> first | decide | exact absurd rfl hne

theorem Numeral.head?_chars (n : Numeral) : n.chars.head? ≠ some 'i' := by
  obtain ⟨c, cs, h, hd⟩ := n.magnitude_eq_cons
  cases hn : n.negative with
  | true => simp [Numeral.chars, hn]
  | false =>
    rw [Numeral.chars, hn, if_neg (by simp), h]
    rintro he
    cases he
    exact absurd hd (by decide)

theorem Leaf.head?_chars (l : Leaf) : l.chars.head? ≠ some 'i' := by
  cases l with
  | number n => exact n.head?_chars
  | string s =>
    intro h
    have quote : s.quote = 'i' := by simpa [Leaf.chars, Quotation.chars] using h
    exact absurd s.isQuote (by rw [quote]; decide)
  | boolean b => cases b <;> decide
  | _ => simp [Leaf.chars]

theorem Leaf.IsPlain.isWord {l : Leaf} (h : l.IsPlain) : IsWord l.chars :=
  isWord_of_isWordChar (h.yields []).ne_nil l.head?_chars h.isWordChar

/-- A leaf that is no plain one has quotes or a sign. -/
theorem Leaf.eq_of_not_isPlain {l : Leaf} (h : ¬l.IsPlain) :
    (∃ s, l = .string s) ∨ ∃ n, l = .number n ∧ n.negative = true := by
  cases l with
  | number n => exact .inr ⟨n, rfl, by simpa [Leaf.IsPlain] using h⟩
  | string s => exact .inl ⟨s, rfl⟩
  | _ => exact absurd trivial h

theorem isWord_signed {n : Numeral} (h : n.negative = true) : IsWord n.chars := by
  rw [Numeral.chars, h, if_pos rfl]
  refine ⟨by simp, ?_, fun _ => by simp⟩
  intro c hc
  rcases List.mem_cons.mp hc with rfl | hc
  · rfl
  · exact isBlank_of_isWordChar (isWordChar_of_mem_magnitude c hc)

theorem Extracted.isWord {table : List Value} {t : Token} {w : List Char}
    (h : Extracted table t w) : IsWord w := by
  cases h with
  | string _ =>
    exact isWord_of_isWordChar (by simp [placeholder]) (by simp [placeholder])
      isWordChar_of_mem_placeholder
  | plain ht =>
    cases t with
    | leaf l =>
      by_cases hp : l.IsPlain
      · exact hp.isWord
      · rcases Leaf.eq_of_not_isPlain hp with ⟨s, rfl⟩ | ⟨n, rfl, hn⟩
        · exact absurd rfl (ht s)
        · exact isWord_signed hn
    | operator op => exact isWord_symbol op
    | opening => exact ⟨by decide, List.forall_mem_singleton.mpr rfl, by decide⟩
    | closing => exact ⟨by decide, List.forall_mem_singleton.mpr rfl, by decide⟩

/-- Only the operator is written `in`. -/
theorem Extracted.eq_within {table : List Value} {t : Token} {w : List Char}
    (h : Extracted table t w) (hw : w = inWord) : t = .operator .within := by
  cases h with
  | string _ => exact absurd hw (inWord_ne_placeholder _)
  | plain ht =>
    cases t with
    | leaf l =>
      have written : l.chars = inWord := hw
      exact absurd (by rw [written]; rfl) l.head?_chars
    | operator op => cases op <;> first | rfl | exact absurd hw (by decide)
    | opening => exact absurd hw (by decide)
    | closing => exact absurd hw (by decide)

/-- Whether the tokens can follow where an operand is due, or else where one has ended. -/
def Follows : Bool → List Token → Prop
  | true, .leaf _ :: ts => Follows false ts
  | true, .operator op :: ts => op = .not ∧ Follows true ts
  | true, .opening :: ts => Follows true ts
  | false, .operator op :: ts => 0 < rank op ∧ Follows true ts
  | false, .closing :: ts => Follows false ts
  | false, [] => True
  | _, _ => False

theorem Writes.follows {k : Nat} {tree : Tree} {ts : List Token} (h : Writes k tree ts)
    {rest : List Token} (hr : Follows false rest) : Follows true (ts ++ rest) := by
  induction h generalizing rest with
  | leaf k l => exact hr
  | negate k _ ih => exact ⟨rfl, ih hr⟩
  | join hop _ _ _ ihl ihr =>
    rw [List.append_assoc]
    exact ihl ⟨hop, ihr hr⟩
  | group k _ ih =>
    rw [List.cons_append, List.append_assoc]
    exact ih hr

theorem parted_of_follows {table : List Value} {ts : List Token} {words : List (List Char)}
    {due : Bool} (hf : Follows due ts) (h : List.Forall₂ (Extracted table) ts words) :
    Parted words := by
  induction h generalizing due with
  | nil => trivial
  | @cons t w ts words ht hts ih =>
    have tail : ∃ due, Follows due ts := by
      cases due <;> cases t <;> first | exact ⟨_, hf⟩ | exact ⟨_, hf.2⟩ | exact absurd hf id
    obtain ⟨next, hnext⟩ := tail
    have parted := ih hnext
    cases hts with
    | nil => trivial
    | @cons u v us vs hu _ =>
      refine ⟨fun hw hv => ?_, parted⟩
      rw [ht.eq_within hw, hu.eq_within hv] at hf
      cases due with
      | true => exact absurd hf.1 (by decide)
      | false => exact absurd hf.2.1 (by decide)

end DocumentPath.Infix
