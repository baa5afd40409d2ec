import Mathlib.Data.List.Infix
import DocumentPath.Proofs.Groups.Junctions

namespace DocumentPath

namespace Filter

/-- Nothing in the text can end a reference: there is no operator, no blank, no quote and no
parenthesis. -/
structure Unbroken (cs : List Char) : Prop where
  noOperator : ∀ op ∈ searchOrder, ¬token op <:+: cs
  isClean : ∀ c ∈ cs, IsClean c
  noParens : ∀ c ∈ cs, c ≠ '(' ∧ c ≠ ')'

theorem not_token_infix_cons {c : Char} {cs : List Char} {op : Operator}
    (hc : isOperatorChar c = false) (h : ¬token op <:+: cs) : ¬token op <:+: c :: cs := by
  rw [List.infix_cons_iff]
  rintro (front | behind)
  · obtain ⟨rest, hr⟩ := front
    cases ht : token op with
    | nil => exact token_ne_nil op ht
    | cons d ds =>
      rw [ht] at hr
      cases hr
      have := isOperatorChar_of_mem_token op c (by simp [ht])
      rw [hc] at this
      cases this
  · exact h behind

theorem Unbroken.cons {c : Char} {cs : List Char} (h : Unbroken cs)
    (hc : isOperandChar c = true) (clean : IsClean c) (h1 : c ≠ '(') (h2 : c ≠ ')') :
    Unbroken (c :: cs) where
  noOperator := fun op hop =>
    not_token_infix_cons (not_isOperatorChar_of_isOperandChar hc) (h.noOperator op hop)
  isClean := List.forall_mem_cons.mpr ⟨clean, h.isClean⟩
  noParens := List.forall_mem_cons.mpr ⟨⟨h1, h2⟩, h.noParens⟩

theorem Unbroken.minus_not_mem {cs : List Char} (h : Unbroken cs) : '-' ∉ cs := fun hmem =>
  h.noOperator .sub (by decide) ((List.singleton_infix_iff _ _).mpr hmem)

theorem Unbroken.rewrite {cs : List Char} (h : Unbroken cs) : rewrite cs = .ok cs := by
  rw [(Resolves.plain h.noParens).rewrite]
  exact rewriteFlat_of_no_operators (operators_eq_nil h.noOperator)

theorem isWordChar_of_isOperandChar {c : Char} (h : isOperandChar c = true)
    (quote : isQuote c = false) (parens : c ≠ '(' ∧ c ≠ ')') (comma : c ≠ ',') :
    Infix.isWordChar c = true := by
  simp only [isQuote, Bool.or_eq_false_iff, decide_eq_false_iff_not] at quote
  simp only [isOperandChar, List.mem_cons, List.not_mem_nil, or_false, Bool.or_eq_true,
    decide_eq_true_eq] at h
  simp only [Infix.isWordChar, Infix.isNameChar, List.mem_cons, List.not_mem_nil, or_false,
    Bool.or_eq_true, decide_eq_true_eq]
  tauto

end Filter

namespace Expression

open DocumentPath.Filter

/-- A text without blanks, quotes and signs of numbers is read from its call form. -/
theorem parse_of_isClean {cs w : List Char} {e : Expression} (clean : ∀ c ∈ cs, IsClean c)
    (unsigned : '-' ∉ cs) (rewritten : rewrite cs = .ok w) (read : readCall [] w = .ok e) :
    parse (String.ofList cs) = .ok e := by
  have extracted : extract cs = .ok ⟨cs, []⟩ := extract_of_unquoted fun c hc => (clean c hc).2
  have lifted : liftNumbers [] none (joinWords cs) = .ok (cs, []) := by
    rw [joinWords_of_no_blank fun c hc => (clean c hc).1]
    exact liftNumbers_of_unsigned unsigned [] none
  rw [parse_eq_ok_iff, String.toList_ofList]
  exact ⟨⟨⟨cs, []⟩, cs, [], w, extracted, lifted, rewritten, read⟩⟩

/-- Behind `@.` every text that nothing breaks is the path of a reference. -/
theorem parse_element {cs : List Char} (h : Unbroken cs) :
    parse (String.ofList ('@' :: '.' :: cs)) = .ok (.element (String.ofList cs)) := by
  have point : Unbroken ('.' :: cs) := h.cons rfl ⟨rfl, rfl⟩ (by decide) (by decide)
  have whole : Unbroken ('@' :: '.' :: cs) := point.cons rfl ⟨rfl, rfl⟩ (by decide) (by decide)
  have opening : '(' ∉ '@' :: '.' :: cs := fun hmem => (whole.noParens _ hmem).1 rfl
  have number : isNumber ('@' :: '.' :: cs) = false :=
    Infix.isNumber_of_head (by decide) (by decide)
  exact parse_of_isClean whole.isClean whole.minus_not_mem whole.rewrite
    (Infix.readCall_of_leaf number opening rfl)

/-- Any word behind `@.` is the path of a reference that may be negated. -/
theorem parse_not_element {cs : List Char} (h : ∀ c ∈ cs, Infix.isWordChar c = true) :
    parse (String.ofList ('!' :: '@' :: '.' :: cs)) =
      .ok (.call .not [.element (String.ofList cs)]) := by
  have word : ∀ c ∈ '@' :: '.' :: cs, Infix.isWordChar c = true :=
    List.forall_mem_cons.mpr ⟨rfl, List.forall_mem_cons.mpr ⟨rfl, h⟩⟩
  have number : isNumber ('@' :: '.' :: cs) = false :=
    Infix.isNumber_of_head (by decide) (by decide)
  have yields : Infix.Yields [] ('@' :: '.' :: cs) (.ok (.element (String.ofList cs))) :=
    Infix.yields_of_word (List.cons_ne_nil _ _) word
      (Infix.readCall_of_leaf number (Infix.opening_not_mem_word word) rfl)
  have plain : ∀ c ∈ '!' :: '@' :: '.' :: cs, c ≠ '(' ∧ c ≠ ')' :=
    List.forall_mem_cons.mpr ⟨by decide, fun c hc =>
      ⟨Infix.ne_of_isWordChar (word c hc) rfl, Infix.ne_of_isWordChar (word c hc) rfl⟩⟩
  have clean : ∀ c ∈ '!' :: '@' :: '.' :: cs, IsClean c :=
    List.forall_mem_cons.mpr ⟨⟨rfl, rfl⟩, fun c hc =>
      ⟨Infix.isBlank_of_isWordChar (word c hc), Infix.isQuote_of_isWordChar (word c hc)⟩⟩
  have minus : '-' ∉ '!' :: '@' :: '.' :: cs := by
    rw [List.mem_cons, not_or]
    exact ⟨by decide, Infix.minus_not_mem_word word⟩
  have rewritten : rewrite ('!' :: '@' :: '.' :: cs) = .ok (callText .not ('@' :: '.' :: cs)) := by
    let chain : Infix.Chain Infix.Prefixed := ⟨⟨1, '@' :: '.' :: cs⟩, []⟩
    have written : chain.text Infix.Prefixed.text = '!' :: '@' :: '.' :: cs := by
      simp [chain, Infix.Chain.text, Infix.Chain.linksText, Infix.Prefixed.text]
    have prepared : chain.Prepared :=
      ⟨⟨yields.ne_nil, yields.operand⟩, List.forall_mem_nil _, List.forall_mem_nil _⟩
    rw [(Resolves.plain plain).rewrite, ← written]
    exact Infix.Chain.rewriteFlat_text prepared (Infix.Chain.mergeTiers_single _ _)
  exact parse_of_isClean clean minus rewritten yields.negated.read

/-- What a reference is confined to when it was read. -/
theorem unbroken_of_parse {text : String} {e : Expression} (h : parse text = .ok e) :
    ∀ p ∈ e.references, Unbroken p.toList := by
  obtain ⟨s⟩ := parse_eq_ok_iff.mp h
  obtain ⟨tidy, none⟩ := s.tidy
  have confined := confined_of_readCall s.read tidy.isSealed.nested.closed
  intro p hp
  have inside := confined.inside p hp
  exact {
    noOperator := fun op hop hi => not_token_infix none hop (hi.trans inside)
    isClean := fun c hc => tidy.isClean c (inside.subset hc)
    noParens := confined.flat p hp }

/-- The paths of references that are whole expressions are just the texts that nothing breaks. -/
theorem exists_parse_eq_element_iff (path : String) :
    (∃ text, parse text = .ok (.element path)) ↔ Unbroken path.toList := by
  constructor
  · rintro ⟨text, h⟩
    exact unbroken_of_parse h path (List.mem_singleton_self path)
  · intro h
    exact ⟨_, String.ofList_toList (s := path) ▸ parse_element h⟩

theorem isWordChar_of_parse {text : String} {e : Expression} (h : parse text = .ok e)
    (call : e.isCall = true) : ∀ p ∈ e.references, ∀ c ∈ p.toList, Infix.isWordChar c = true := by
  obtain ⟨s⟩ := parse_eq_ok_iff.mp h
  obtain ⟨tidy, _⟩ := s.tidy
  have confined := confined_of_readCall s.read tidy.isSealed.nested.closed
  intro p hp c hc
  rcases readCall_cases s.read with ⟨_, _, _, rfl⟩ | ⟨op, inner, es, text, hes, rfl⟩ | ⟨_, leaf⟩
  · cases call
  · rw [text] at tidy confined
    have hd : depth inner = 0 := (depth_callText op inner).symm.trans confined.nested.closed
    obtain ⟨nested, refs⟩ := confined_call hd (confined_of_readCalls hd hes)
    obtain ⟨here, flat, comma⟩ := refs p hp
    have operand := tidy.isSealed.isOperandChar nested c (here.subset hc)
    have quote := (tidy.isClean c ((confined.inside p hp).subset hc)).2
    exact isWordChar_of_isOperandChar operand quote (flat c hc) fun he => comma (he ▸ hc)
  · rw [(readLeaf?_references leaf).1] at call
    cases call

/-- The paths of references below a call are just the words. -/
theorem exists_parse_call_iff (path : String) :
    (∃ text e, parse text = .ok e ∧ e.isCall = true ∧ path ∈ e.references) ↔
      ∀ c ∈ path.toList, Infix.isWordChar c = true := by
  constructor
  · rintro ⟨text, e, h, call, hp⟩
    exact isWordChar_of_parse h call path hp
  · intro h
    refine ⟨_, _, parse_not_element h, rfl, ?_⟩
    simp [references, operandReferences]

/-- A reference never has an operator, a blank, a quote or a parenthesis in its path. Below a call
its path is of names, dots and the signs of references and literals. -/
theorem references_of_parse {text : String} {e : Expression} (h : parse text = .ok e) :
    ∀ p ∈ e.references, Unbroken p.toList ∧
      (e.isCall = true → ∀ c ∈ p.toList, Infix.isWordChar c = true) := fun p hp =>
  ⟨unbroken_of_parse h p hp, fun call => isWordChar_of_parse h call p hp⟩

theorem references_of_parse_lone_sign :
    parse "@.a = 1" = .ok (.element "a=1") ∧
      ∀ p ∈ references (.element "a=1"), Unbroken p.toList ∧
        (isCall (.element "a=1") = true → ∀ c ∈ p.toList, Infix.isWordChar c = true) := by
  have parsed : parse "@.a = 1" = .ok (.element "a=1") := by with_unfolding_all rfl
  exact ⟨parsed, references_of_parse parsed⟩

/-- A lone sign that no operator has becomes part of the path. -/
theorem parse_reference_with_sign :
    ∃ p ∈ references (.element "a=1"), parse "@.a = 1" = .ok (.element p) ∧
      ¬ ∀ c ∈ p.toList, Text.isAlphanumeric c = true ∨ c = '_' ∨ c = '.' := by
  refine ⟨"a=1", by simp [references], by with_unfolding_all rfl, ?_⟩
  intro h
  exact absurd (h '=' (by simp)) (by decide)

end Expression

end DocumentPath
