import DocumentPath.Filter.CallForm
import DocumentPath.Proofs.Infix.Lexing
import DocumentPath.Proofs.Outcomes
import DocumentPath.Proofs.References.Nesting

namespace DocumentPath.Filter

theorem mem_searchOrder_of_mem_operators {cs : List Char} {op : Operator}
    (h : op ∈ operators cs) : op ∈ searchOrder := by
  obtain ⟨l, hl, hop⟩ := List.mem_filterMap.mp h
  fun_induction scan cs with
  | case1 => cases hl
  | case2 c cs found leads ih =>
    rcases List.mem_cons.mp hl with rfl | hl
    · cases hop
      exact List.mem_of_find?_eq_some leads
    · exact ih (List.mem_filterMap.mpr ⟨l, hl, hop⟩) hl
  | case3 c cs none ih =>
    rcases List.mem_cons.mp hl with rfl | hl
    · cases hop
    · exact ih (List.mem_filterMap.mpr ⟨l, hl, hop⟩) hl

/-- Where a scan finds no operator, there is the sign of none anywhere in the text. -/
theorem not_token_infix {cs : List Char} (h : operators cs = []) {op : Operator}
    (hop : op ∈ searchOrder) : ¬token op <:+: cs := by
  induction cs with
  | nil =>
    intro hi
    exact token_ne_nil op (List.infix_nil.mp hi)
  | cons c cs ih =>
    rw [operators, scan] at h
    cases hl : leading? (c :: cs) with
    | some found => simp [hl, Lexeme.operator?] at h
    | none =>
      rw [hl] at h
      intro hi
      rcases List.infix_cons_iff.mp hi with front | behind
      · exact List.find?_eq_none.mp hl op hop (List.isPrefixOf_iff_prefix.mpr front)
      · exact ih h behind

/-- A character that no step of reading takes away or quotes. -/
def IsClean (c : Char) : Prop := Text.isBlank c = false ∧ isQuote c = false

/-- A text between the steps of rewriting. -/
structure Tidy (cs : List Char) : Prop where
  isSealed : Sealed cs
  isClean : ∀ c ∈ cs, IsClean c

theorem Tidy.append {cs ds : List Char} (h : Tidy cs) (h' : Tidy ds) : Tidy (cs ++ ds) :=
  ⟨h.isSealed.append h'.isSealed, List.forall_mem_append.mpr ⟨h.isClean, h'.isClean⟩⟩

theorem not_isOperandChar_of_mem_token {op : Operator} : ∀ c ∈ token op, isOperandChar c = false := by
  intro c hc
  cases h : isOperandChar c with
  | false => rfl
  | true =>
    have := not_isOperatorChar_of_isOperandChar h
    rw [isOperatorChar_of_mem_token op c hc] at this
    cases this

theorem isOperandChar_of_mem_headOperand {cs : List Char} :
    ∀ c ∈ headOperand cs, isOperandChar c = true :=
  fun c hc => List.all_eq_true.mp List.all_takeWhile c hc

theorem not_isOperandChar_of_afterHead {cs ds : List Char} {c : Char}
    (h : afterHead cs = c :: ds) : isOperandChar c = false := by
  have := List.head?_dropWhile_not isOperandChar cs
  rw [afterHead] at h
  simpa [h] using this

/-- The operand behind an operator ends where nothing is open. -/
theorem Tidy.right {cs : List Char} (h : Tidy cs) :
    (Nested (headOperand cs) ∧ ∀ c ∈ headOperand cs, IsClean c) ∧ Tidy (afterHead cs) := by
  have whole := headOperand_append_afterHead cs
  have clean : ∀ c ∈ headOperand cs ++ afterHead cs, IsClean c := by
    rw [whole]
    exact h.isClean
  obtain ⟨head, behind⟩ := List.forall_mem_append.mp clean
  cases hb : afterHead cs with
  | nil =>
    rw [hb, List.append_nil] at whole
    rw [whole]
    exact ⟨⟨h.isSealed.nested, h.isClean⟩, .nil, by simp⟩
  | cons c ds =>
    have outside := not_isOperandChar_of_afterHead hb
    have parts := h.isSealed
    rw [← whole, hb] at parts
    obtain ⟨left, right⟩ := parts.split outside
    exact ⟨⟨left.nested, head⟩, .char outside right, hb ▸ behind⟩

/-- The operand in front of an operator begins where nothing is open. -/
theorem Tidy.left {cs : List Char} (h : Tidy cs) :
    Tidy (beforeLast cs) ∧ Nested (lastOperand cs) ∧ ∀ c ∈ lastOperand cs, IsClean c := by
  have whole := beforeLast_append_lastOperand cs
  have clean : ∀ c ∈ beforeLast cs ++ lastOperand cs, IsClean c := by
    rw [whole]
    exact h.isClean
  obtain ⟨before, last⟩ := List.forall_mem_append.mp clean
  cases hb : afterHead cs.reverse with
  | nil =>
    have none : beforeLast cs = [] := by rw [beforeLast, hb, List.reverse_nil]
    rw [none, List.nil_append] at whole
    rw [none, whole]
    exact ⟨⟨.nil, by simp⟩, h.isSealed.nested, h.isClean⟩
  | cons c ds =>
    have outside := not_isOperandChar_of_afterHead hb
    have front : beforeLast cs = ds.reverse ++ [c] := by rw [beforeLast, hb, List.reverse_cons]
    have parts := h.isSealed
    rw [← whole, front, List.append_assoc, List.singleton_append] at parts
    obtain ⟨left, right⟩ := parts.split outside
    refine ⟨⟨?_, before⟩, right.nested, last⟩
    rw [front]
    exact left.append (.char outside .nil)

theorem isClean_of_mem_name (op : Operator) : ∀ c ∈ op.name.toList, IsClean c := by
  have h : (op.name.toList.all fun c => !Text.isBlank c && !isQuote c) = true := by
    cases op <;> rfl
  intro c hc
  simpa [IsClean] using List.all_eq_true.mp h c hc

theorem nested_name (op : Operator) : Nested op.name.toList :=
  nested_of_no_parens fun c hc =>
    ⟨(Infix.isOperandChar_of_mem_name op c hc).2.1, (Infix.isOperandChar_of_mem_name op c hc).2.2.1⟩

theorem tidy_callText {op : Operator} {inner : List Char} (h : Nested inner)
    (operand : ∀ c ∈ inner, isOperandChar c = true) (clean : ∀ c ∈ inner, IsClean c) :
    Tidy (callText op inner) := by
  have nested : Nested (callText op inner) := (nested_name op).append h.parens
  refine ⟨sealed_of_nested nested (Infix.isOperandChar_of_mem_callText operand), ?_⟩
  rw [callText, List.forall_mem_append, List.forall_mem_cons, List.forall_mem_append,
    List.forall_mem_singleton]
  exact ⟨isClean_of_mem_name op, ⟨rfl, rfl⟩, clean, ⟨rfl, rfl⟩⟩

theorem Parting.tidy {tier : List Operator} {text : List Char} (p : Parting tier (scan text))
    (h : Tidy text) : Tidy (render p.before) ∧ Tidy (render p.after) := by
  have parts := h.isSealed
  have clean := h.isClean
  rw [p.text_eq] at parts clean
  obtain ⟨left, right⟩ := parts.around (token_ne_nil p.op) not_isOperandChar_of_mem_token
  obtain ⟨front, behind⟩ := List.forall_mem_append.mp clean
  exact ⟨⟨left, front⟩, right, (List.forall_mem_append.mp behind).2⟩

theorem tidy_negateOnce {text : List Char} {t : { text' : List Char // TakesOne text text' }}
    (h : negateOnce text = .ok (some t)) (ht : Tidy text) : Tidy t.1 := by
  rw [negateOnce] at h
  split at h
  · cases h
  · rename_i p _
    split at h
    · cases h
      obtain ⟨before, after⟩ := p.tidy ht
      obtain ⟨⟨nested, clean⟩, behind⟩ := after.right
      exact (before.append (tidy_callText nested isOperandChar_of_mem_headOperand clean)).append
        behind
    · cases h

theorem tidy_joinOnce {tier : Tier} {text : List Char}
    {t : { text' : List Char // TakesOne text text' }}
    (h : tier.joinOnce text = .ok (some t)) (ht : Tidy text) : Tidy t.1 := by
  rw [Tier.joinOnce] at h
  split at h
  · cases h
  · rename_i p _
    split at h
    · cases h
      obtain ⟨before, after⟩ := p.tidy ht
      obtain ⟨front, nested, clean⟩ := before.left
      obtain ⟨⟨nested', clean'⟩, behind⟩ := after.right
      have inner := nested.append (nested_comma.append nested')
      have operand : ∀ c ∈ lastOperand (render p.before) ++ ',' :: headOperand (render p.after),
          isOperandChar c = true := by
        rw [List.forall_mem_append, List.forall_mem_cons]
        refine ⟨fun c hc => ?_, rfl, isOperandChar_of_mem_headOperand⟩
        exact isOperandChar_of_mem_headOperand c (List.mem_reverse.mp hc)
      have cleans : ∀ c ∈ lastOperand (render p.before) ++ ',' :: headOperand (render p.after),
          IsClean c := by
        rw [List.forall_mem_append, List.forall_mem_cons]
        exact ⟨clean, ⟨rfl, rfl⟩, clean'⟩
      exact (front.append (tidy_callText inner operand cleans)).append behind
    · cases h

theorem not_mem_of_splitFirst {tier : List Operator} {ls : List Lexeme}
    (h : splitFirst tier ls = none) : ∀ op ∈ tier, .operator op ∉ ls := by
  induction ls with
  | nil => simp
  | cons l ls ih =>
    cases l with
    | char c =>
      intro op hop hmem
      have rest := ih (Option.map_eq_none_iff.mp h)
      exact rest op hop (by simpa using hmem)
    | operator found =>
      rw [splitFirst] at h
      split at h
      · cases h
      · rename_i other
        intro op hop hmem
        rcases List.mem_cons.mp hmem with he | hmem
        · cases he
          exact other hop
        · exact ih (Option.map_eq_none_iff.mp h) op hop hmem

theorem mem_scan_of_mem_operators {cs : List Char} {op : Operator} (h : op ∈ operators cs) :
    .operator op ∈ scan cs := by
  obtain ⟨l, hl, hop⟩ := List.mem_filterMap.mp h
  cases l with
  | char c => cases hop
  | operator found =>
    cases hop
    exact hl

theorem not_mem_of_negateOnce {text : List Char} (h : negateOnce text = .ok none) :
    .not ∉ operators text := by
  intro hmem
  rw [negateOnce] at h
  split at h
  · rename_i none
    have := not_mem_of_splitFirst (Option.map_eq_none_iff.mp none) .not (by simp)
    exact this (List.mem_reverse.mpr (mem_scan_of_mem_operators hmem))
  · split at h <;> cases h

theorem not_mem_of_joinOnce {tier : Tier} {text : List Char} (h : tier.joinOnce text = .ok none) :
    ∀ op ∈ tier.operators, op ∉ operators text := by
  intro op hop hmem
  rw [Tier.joinOnce] at h
  split at h
  · rename_i none
    exact not_mem_of_splitFirst none op hop (mem_scan_of_mem_operators hmem)
  · split at h <;> cases h

theorem TakesOne.subset {text text' : List Char} (h : TakesOne text text') :
    operators text' ⊆ operators text := by
  obtain ⟨l, op, r, h1, h2⟩ := h
  rw [h1, h2]
  intro x hx
  rcases List.mem_append.mp hx with hx | hx <;> simp [hx]

/-- What every round of a step keeps holds in the end, and no operator has come in. -/
theorem exhaust_spec {step : Step} {text w : List Char} {P : List Char → Prop}
    (keeps : ∀ text t, step text = .ok (some t) → P text → P t.1)
    (h : exhaust step text = .ok w) (ht : P text) :
    P w ∧ step w = .ok none ∧ operators w ⊆ operators text := by
  fun_induction exhaust step text with
  | case1 => cases h
  | case2 text done =>
    cases h
    exact ⟨ht, done, fun _ hx => hx⟩
  | case3 text next takes step_eq ih =>
    obtain ⟨hw, done, sub⟩ := ih h (keeps text ⟨next, takes⟩ step_eq ht)
    exact ⟨hw, done, fun _ hx => takes.subset (sub hx)⟩

theorem tiers_spec {ts : List Tier} {text w : List Char} {P : List Char → Prop}
    (keeps : ∀ (tier : Tier) (text t), tier.joinOnce text = .ok (some t) → P text → P t.1)
    (h : ts.foldlM (fun text tier => exhaust tier.joinOnce text) text = .ok w) (ht : P text) :
    P w ∧ operators w ⊆ operators text ∧
      ∀ tier ∈ ts, ∀ op ∈ tier.operators, op ∉ operators w := by
  induction ts generalizing text with
  | nil =>
    cases h
    exact ⟨ht, fun _ hx => hx, by simp⟩
  | cons tier ts ih =>
    rw [List.foldlM_cons] at h
    obtain ⟨next, hx, h⟩ := exists_of_bind_ok h
    obtain ⟨kept, done, sub⟩ := exhaust_spec (keeps tier) hx ht
    obtain ⟨kept', sub', rest⟩ := ih h kept
    refine ⟨kept', fun _ ho => sub (sub' ho), List.forall_mem_cons.mpr ⟨?_, rest⟩⟩
    intro op hop hmem
    exact not_mem_of_joinOnce done op hop (sub' hmem)

theorem mem_tiers_of_mem_searchOrder {op : Operator} (h : op ∈ searchOrder) (hn : op ≠ .not) :
    ∃ tier ∈ tiers, op ∈ tier.operators := by
  revert op
  decide

/-- Rewriting leaves no operator in a text, and all that every round of it keeps. -/
theorem rewriteFlat_spec {text w : List Char} {P : List Char → Prop}
    (negates : ∀ text t, negateOnce text = .ok (some t) → P text → P t.1)
    (joins : ∀ (tier : Tier) (text t), tier.joinOnce text = .ok (some t) → P text → P t.1)
    (h : rewriteFlat text = .ok w) (ht : P text) : P w ∧ operators w = [] := by
  rw [rewriteFlat] at h
  obtain ⟨next, hx, h⟩ := exists_of_bind_ok h
  obtain ⟨kept, done, _⟩ := exhaust_spec negates hx ht
  obtain ⟨kept', sub, rest⟩ := tiers_spec joins h kept
  refine ⟨kept', List.eq_nil_iff_forall_not_mem.mpr fun op hop => ?_⟩
  by_cases hn : op = .not
  · subst hn
    exact not_mem_of_negateOnce done (sub hop)
  · obtain ⟨tier, htier, hmem⟩ :=
      mem_tiers_of_mem_searchOrder (mem_searchOrder_of_mem_operators hop) hn
    exact rest tier htier op hmem hop

theorem tidy_rewriteFlat {text w : List Char} (h : rewriteFlat text = .ok w) (ht : Tidy text) :
    Tidy w ∧ operators w = [] :=
  rewriteFlat_spec (fun _ _ => tidy_negateOnce) (fun _ _ _ => tidy_joinOnce) h ht

theorem tidy_char {c : Char} (hc : IsClean c) (h1 : c ≠ '(') (h2 : c ≠ ')') : Tidy [c] := by
  refine ⟨?_, List.forall_mem_singleton.mpr hc⟩
  cases ho : isOperandChar c with
  | false => exact .char ho .nil
  | true =>
    exact sealed_of_nested (nested_of_no_parens (List.forall_mem_singleton.mpr ⟨h1, h2⟩))
      (List.forall_mem_singleton.mpr ho)

theorem tidy_nil : Tidy [] := ⟨.nil, by simp⟩

/-- Every text that is kept, in front of an open parenthesis or since the last of them, stays
tidy. -/
theorem rewriteGroups_spec {outer : List (Except ExpressionFault (List Char))}
    {current : Except ExpressionFault (List Char)} {cs w : List Char}
    (h : rewriteGroups outer current cs = .ok w)
    (houter : ∀ before ∈ outer, ∀ t, before = .ok t → Tidy t)
    (hcurrent : ∀ t, current = .ok t → Tidy t) (hcs : ∀ c ∈ cs, IsClean c) :
    Tidy w ∧ operators w = [] := by
  induction cs generalizing outer current with
  | nil =>
    rw [rewriteGroups] at h
    split at h
    · cases current with
      | error fault => cases h
      | ok t => exact tidy_rewriteFlat h (hcurrent t rfl)
    · rename_i first _
      cases first <;> cases h
  | cons c cs ih =>
    obtain ⟨clean, rest⟩ := List.forall_mem_cons.mp hcs
    unfold rewriteGroups at h
    split at h
    · refine ih h (List.forall_mem_cons.mpr ⟨hcurrent, houter⟩) ?_ rest
      rintro t ⟨⟩
      exact tidy_nil
    split at h
    · cases outer with
      | nil => cases current <;> cases h
      | cons before outer =>
        obtain ⟨hbefore, houter⟩ := List.forall_mem_cons.mp houter
        refine ih h houter ?_ rest
        intro t ht
        obtain ⟨front, hfront, ht⟩ := exists_of_bind_ok ht
        obtain ⟨group, hgroup, ht⟩ := exists_of_bind_ok ht
        obtain ⟨flat, hflat, rewritten⟩ := exists_of_bind_ok hgroup
        cases ht
        exact (hbefore front hfront).append (tidy_rewriteFlat rewritten (hcurrent flat hflat)).1
    · rename_i h1 h2
      refine ih h houter ?_ rest
      intro t ht
      obtain ⟨before, hbefore, rfl⟩ := exists_of_map_ok ht
      exact (hcurrent before hbefore).append (tidy_char clean h1 h2)

theorem rewrite_spec {text w : List Char} (h : rewrite text = .ok w)
    (ht : ∀ c ∈ text, IsClean c) : Tidy w ∧ operators w = [] := by
  refine rewriteGroups_spec h (by simp) ?_ ht
  rintro t ⟨⟩
  exact tidy_nil

theorem isQuote_of_mem_placeholder {n : Nat} : ∀ c ∈ placeholder n, isQuote c = false :=
  fun c hc => Infix.isQuote_of_isWordChar (Infix.isWordChar_of_mem_placeholder c hc)

/-- Once the strings are out there is no quote any more. -/
theorem isQuote_of_mem_extractFrom {n : Nat} {place : Place} {cs : List Char} {e : Extraction}
    (h : extractFrom n place cs = .ok e) : ∀ c ∈ e.text, isQuote c = false := by
  induction cs generalizing n place e with
  | nil =>
    cases place with
    | plain =>
      cases h
      simp
    | inside quote read escaped => cases h
  | cons c cs ih =>
    cases place with
    | plain =>
      rw [extractFrom] at h
      split at h
      · exact ih h
      · rename_i other
        obtain ⟨d, hd, rfl⟩ := exists_of_map_ok h
        exact List.forall_mem_cons.mpr ⟨by simpa using other, ih hd⟩
    | inside quote read escaped =>
      rw [extractFrom] at h
      split at h
      · exact ih h
      split at h
      · exact ih h
      split at h
      · obtain ⟨d, hd, rfl⟩ := exists_of_map_ok h
        exact List.forall_mem_append.mpr ⟨isQuote_of_mem_placeholder, ih hd⟩
      · exact ih h

theorem subset_of_afterWord? {cs rest : List Char} {lt : rest.length < cs.length}
    (h : afterWord? cs = some ⟨rest, lt⟩) : rest ⊆ cs := by
  unfold afterWord? at h
  split at h
  · split at h
    · cases h
      intro c hc
      have behind := (List.dropWhile_suffix Text.isBlank).subset hc
      simp [behind]
    · cases h
  · cases h

/-- Once the words are joined there is no blank any more. -/
theorem mem_joinWords {cs : List Char} {c : Char} (h : c ∈ joinWords cs) :
    c ∈ cs ∧ Text.isBlank c = false ∨ c = wordMark := by
  fun_induction joinWords cs with
  | case1 => cases h
  | case2 d cs blank rest lt found ih =>
    rcases List.mem_cons.mp h with rfl | h
    · exact .inr rfl
    · rcases ih h with ⟨hc, clean⟩ | mark
      · have behind := (List.dropWhile_suffix Text.isBlank).subset (subset_of_afterWord? found hc)
        exact .inl ⟨List.mem_cons_of_mem d behind, clean⟩
      · exact .inr mark
  | case3 d cs blank none ih =>
    rcases ih h with ⟨hc, clean⟩ | mark
    · exact .inl ⟨List.mem_cons_of_mem d hc, clean⟩
    · exact .inr mark
  | case4 d cs word ih =>
    rcases List.mem_cons.mp h with rfl | h
    · exact .inl ⟨List.mem_cons_self .., by simpa using word⟩
    · rcases ih h with ⟨hc, clean⟩ | mark
      · exact .inl ⟨List.mem_cons_of_mem d hc, clean⟩
      · exact .inr mark

theorem isClean_of_mem_placeholder {n : Nat} : ∀ c ∈ placeholder n, IsClean c := fun c hc =>
  ⟨Infix.isBlank_of_isWordChar (Infix.isWordChar_of_mem_placeholder c hc),
    isQuote_of_mem_placeholder c hc⟩

/-- Taking numbers out puts placeholders in their places and nothing else. -/
theorem isClean_of_liftNumbers {literals table : List Value} {previous : Option Char}
    {cs text : List Char} (h : liftNumbers literals previous cs = .ok (text, table))
    (hcs : ∀ c ∈ cs, IsClean c) : ∀ c ∈ text, IsClean c := by
  fun_induction liftNumbers literals previous cs generalizing text table with
  | case1 =>
    cases h
    simp
  | case2 => cases h
  | case3 literals previous c cs sign number v read =>
    rename_i mark ih
    obtain ⟨rest, hl, h⟩ := exists_of_bind_ok h
    cases h
    have behind : ∀ d ∈ cs.dropWhile isNumberChar, IsClean d := fun d hd =>
      hcs d (List.mem_cons_of_mem c ((List.dropWhile_suffix isNumberChar).subset hd))
    exact List.forall_mem_append.mpr ⟨isClean_of_mem_placeholder, ih hl behind⟩
  | case4 literals previous c cs other ih =>
    obtain ⟨first, rest⟩ := List.forall_mem_cons.mp hcs
    obtain ⟨lifted, hl, h⟩ := exists_of_bind_ok h
    cases h
    exact List.forall_mem_cons.mpr ⟨first, ih hl rest⟩

end DocumentPath.Filter
