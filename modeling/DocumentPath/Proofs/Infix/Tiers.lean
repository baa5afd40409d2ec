import DocumentPath.Proofs.Infix.Merging
import DocumentPath.Proofs.Infix.Reading

namespace DocumentPath.Infix

open DocumentPath.Filter

/-- A text that stands as one operand. -/
def IsOperand (w : List Char) : Prop := w ≠ [] ∧ ∀ c ∈ w, isOperandChar c = true

/-- A text that no operand at its end goes on with what follows. -/
def EndsOperand (cs : List Char) : Prop := cs.getLast?.any isOperandChar = false

/-- A text that no operand in front of it goes on into. -/
def StartsBehind (cs : List Char) : Prop := cs.head?.any isOperandChar = false

theorem IsOperand.joined {op : Operator} {v w : List Char} (hv : IsOperand v) (hw : IsOperand w) :
    IsOperand (callText op (v ++ ',' :: w)) := by
  refine ⟨callText_ne_nil _ _, isOperandChar_of_mem_callText fun c hc => ?_⟩
  rcases List.mem_append.mp hc with hc | hc
  · exact hv.2 c hc
  · rcases List.mem_cons.mp hc with rfl | hc
    · rfl
    · exact hw.2 c hc

theorem headOperand_append {w cs : List Char} (hw : IsOperand w) (hcs : StartsBehind cs) :
    headOperand (w ++ cs) = w ∧ afterHead (w ++ cs) = cs := by
  rw [headOperand, afterHead]
  exact takeWhile_append_of_head hw.2 hcs

theorem lastOperand_append {w cs : List Char} (hw : IsOperand w) (hcs : EndsOperand cs) :
    lastOperand (cs ++ w) = w ∧ beforeLast (cs ++ w) = cs := by
  have reversed : IsOperand w.reverse :=
    ⟨by simp [hw.1], fun c hc => hw.2 c (List.mem_reverse.mp hc)⟩
  have behind : StartsBehind cs.reverse := by
    rw [StartsBehind, List.head?_reverse]
    exact hcs
  obtain ⟨h1, h2⟩ := headOperand_append reversed behind
  rw [lastOperand, beforeLast, List.reverse_append, h1, h2, List.reverse_reverse,
    List.reverse_reverse]
  exact ⟨rfl, rfl⟩

theorem IsOperand.notOperator {w : List Char} (h : IsOperand w) :
    ∀ c ∈ w, isOperatorChar c = false := fun c hc =>
  not_isOperatorChar_of_isOperandChar (h.2 c hc)

theorem scan_before_operand {w : List Char} (h : IsOperand w) (a s : List Char) :
    scan (a ++ (w ++ s)) = scan a ++ (w.map .char ++ scan s) := by
  cases w with
  | nil => exact absurd rfl h.1
  | cons c w =>
    have hc := h.notOperator c (by simp)
    rw [List.cons_append, scan_append (breaks_of_not_isOperatorChar hc), ← List.cons_append,
      scan_word h.notOperator]

theorem scan_token {op : Operator} (h : op ∈ searchOrder) : scan (token op) = [.operator op] := by
  have hl := leading?_token h
  cases ht : token op with
  | nil => exact absurd ht (token_ne_nil op)
  | cons c cs =>
    rw [ht] at hl
    have : (c :: cs).drop (token op).length = [] := by rw [ht]; simp
    rw [scan, hl]
    simp only [this, scan]

/-- The first operator of a tier is where the text is parted. -/
theorem splitFirst_eq {tier : List Operator} {ls a b : List Lexeme} {op : Operator}
    (h : ls = a ++ .operator op :: b) (hop : op ∈ tier) (ha : ∀ o ∈ tier, .operator o ∉ a) :
    ∃ p, splitFirst tier ls = some p ∧ p.before = a ∧ p.op = op ∧ p.after = b := by
  subst h
  induction a with
  | nil => exact ⟨_, by simp [splitFirst, hop]; rfl, rfl, rfl, rfl⟩
  | cons l a ih =>
    obtain ⟨p, hp, h1, h2, h3⟩ := ih fun o ho hmem => ha o ho (by simp [hmem])
    refine ⟨p.cons l, ?_, by simp [Parting.cons, h1], h2, h3⟩
    cases l with
    | char c => simp [splitFirst, hp]
    | operator o =>
      have : o ∉ tier := fun ho => ha o ho (by simp)
      simp [splitFirst, this, hp]

theorem splitFirst_eq_none {tier : List Operator} {ls : List Lexeme}
    (h : ∀ o ∈ tier, .operator o ∉ ls) : splitFirst tier ls = none := by
  induction ls with
  | nil => rfl
  | cons l ls ih =>
    have tail := ih fun o ho hmem => h o ho (by simp [hmem])
    cases l with
    | char c => simp [splitFirst, tail]
    | operator o =>
      have : o ∉ tier := fun ho => h o ho (by simp)
      simp [splitFirst, this, tail]

theorem exhaust_of_none {step : Filter.Step} {text : List Char} (h : step text = .ok none) :
    exhaust step text = .ok text := by
  rw [exhaust, h]

theorem exhaust_of_some {step : Filter.Step} {text : List Char}
    {next : { text' : List Char // TakesOne text text' }} (h : step text = .ok (some next)) :
    exhaust step text = exhaust step next.1 := by
  rw [exhaust, h]

theorem render_chars (w : List Char) : render (w.map .char) = w := by
  simp [render, List.flatMap_map, Lexeme.text]

theorem mem_searchOrder_of_rank {op : Operator} (h : 0 < rank op) : op ∈ searchOrder := by
  cases op <;> first | decide | exact absurd h (by decide)

theorem startsBehind_token (op : Operator) (cs : List Char) : StartsBehind (token op ++ cs) := by
  cases op <;> rfl

theorem endsOperand_token (op : Operator) (cs : List Char) : EndsOperand (cs ++ token op) := by
  have h : (token op).getLast?.any isOperandChar = false := by cases op <;> rfl
  rw [EndsOperand, List.getLast?_append]
  cases ht : (token op).getLast? with
  | none => exact absurd (List.getLast?_eq_none_iff.mp ht) (token_ne_nil op)
  | some c => simpa [ht] using h

section Joining

variable {tier : Tier}

theorem joinOnce_of_not_mem {text : List Char}
    (h : ∀ o ∈ tier.operators, .operator o ∉ scan text) : tier.joinOnce text = .ok none := by
  rw [Tier.joinOnce, splitFirst_eq_none h]

/-- One step joins the operands of the first operator of the tier. -/
theorem joinOnce_eq {before v w cs : List Char} {op : Operator} (hop : op ∈ tier.operators)
    (hb : EndsOperand before) (free : ∀ o ∈ tier.operators, .operator o ∉ scan before)
    (hv : IsOperand v) (hw : IsOperand w) (hcs : StartsBehind cs) :
    ∃ next, tier.joinOnce (before ++ (v ++ (token op ++ (w ++ cs)))) = .ok (some next) ∧
      next.1 = before ++ (callText op (v ++ ',' :: w) ++ cs) := by
  have pieces : scan (before ++ (v ++ (token op ++ (w ++ cs)))) =
      (scan before ++ v.map .char) ++ .operator op :: (w.map .char ++ scan cs) := by
    rw [scan_before_operand hv, scan_before_operand hw, scan_token (tier.known op hop)]
    simp
  have left : ∀ o ∈ tier.operators, .operator o ∉ scan before ++ v.map .char := fun o ho => by
    simpa using free o ho
  obtain ⟨p, hp, h1, h2, h3⟩ := splitFirst_eq pieces hop left
  have hleft : render p.before = before ++ v := by
    rw [h1, render_append, render_scan, render_chars]
  have hright : render p.after = w ++ cs := by
    rw [h3, render_append, render_scan, render_chars]
  obtain ⟨head, after⟩ := headOperand_append hw hcs
  obtain ⟨last, front⟩ := lastOperand_append hv hb
  have both : headOperand (render p.after) ≠ [] ∧ lastOperand (render p.before) ≠ [] := by
    rw [hleft, hright, head, last]
    exact ⟨hw.1, hv.1⟩
  rw [Tier.joinOnce, hp]
  simp only [dif_pos both]
  refine ⟨_, rfl, ?_⟩
  simp only [hleft, hright, head, after, last, front, h2, List.append_assoc]

end Joining

namespace Chain

/-- The text of operands behind the first. -/
def linksText {α : Type} (f : α → List Char) (links : List (Operator × α)) : List Char :=
  links.flatMap fun link => token link.1 ++ f link.2

def text {α : Type} (f : α → List Char) (c : Chain α) : List Char := f c.first ++ linksText f c.rest

/-- All operators stand between operands. -/
def Infixes {α : Type} (links : List (Operator × α)) : Prop := ∀ link ∈ links, 0 < rank link.1

/-- All operands are words that nothing parts. -/
structure Sound (c : Chain (List Char)) : Prop where
  first : IsOperand c.first
  rest : ∀ link ∈ c.rest, IsOperand link.2
  infixes : Infixes c.rest

theorem linksText_cons {α : Type} (f : α → List Char) (op : Operator) (a : α)
    (links : List (Operator × α)) :
    linksText f ((op, a) :: links) = token op ++ (f a ++ linksText f links) := by
  simp [linksText]

theorem startsBehind_linksText {α : Type} (f : α → List Char) (links : List (Operator × α)) :
    StartsBehind (linksText f links) := by
  cases links with
  | nil => rfl
  | cons link links =>
    obtain ⟨op, a⟩ := link
    rw [linksText_cons]
    exact startsBehind_token op _

theorem Sound.second {op : Operator} {v w : List Char} {links : List (Operator × List Char)}
    (h : Sound ⟨w, (op, v) :: links⟩) : IsOperand v ∧ 0 < rank op :=
  ⟨h.rest (op, v) (by simp), h.infixes (op, v) (by simp)⟩

/-- Another operand may stand in front of what is behind the second. -/
theorem Sound.behind {op : Operator} {u v w : List Char} {links : List (Operator × List Char)}
    (h : Sound ⟨w, (op, v) :: links⟩) (hu : IsOperand u) : Sound ⟨u, links⟩ :=
  ⟨hu, fun l hl => h.rest l (by simp [hl]), fun l hl => h.infixes l (by simp [hl])⟩

theorem Sound.merge {ops : List Operator} {w : List Char} {links : List (Operator × List Char)}
    (h : Sound ⟨w, links⟩) : Sound (merge ops w links) := by
  induction links generalizing w with
  | nil => exact h
  | cons link links ih =>
    obtain ⟨op, v⟩ := link
    obtain ⟨hv, hop⟩ := h.second
    by_cases ho : op ∈ ops
    · simp only [Chain.merge, ho, if_true]
      exact ih (h.behind (h.first.joined hv))
    · simp only [Chain.merge, ho, if_false]
      have inner := ih (h.behind hv)
      refine ⟨h.first, ?_, ?_⟩
      · rintro l hl
        rcases List.mem_cons.mp hl with rfl | hl
        · exact inner.first
        · exact inner.rest l hl
      · rintro l hl
        rcases List.mem_cons.mp hl with rfl | hl
        · exact hop
        · exact inner.infixes l hl

/-- Joining the operators of a tier one by one merges the chain. -/
theorem exhaust_joinOnce {tier : Tier} {before w : List Char}
    {links : List (Operator × List Char)} (hb : EndsOperand before)
    (free : ∀ o ∈ tier.operators, .operator o ∉ scan before) (h : Sound ⟨w, links⟩) :
    exhaust tier.joinOnce (before ++ text id ⟨w, links⟩) =
      .ok (before ++ text id (merge tier.operators w links)) := by
  induction links generalizing before w with
  | nil =>
    apply exhaust_of_none
    apply joinOnce_of_not_mem
    intro o ho
    rw [text, id, scan_before_operand h.first]
    simpa [linksText, scan] using free o ho
  | cons link links ih =>
    obtain ⟨op, v⟩ := link
    obtain ⟨hv, hop⟩ := h.second
    have shape : before ++ text id ⟨w, (op, v) :: links⟩ =
        before ++ (w ++ (token op ++ (v ++ linksText id links))) := by
      rw [text, linksText_cons]
      rfl
    by_cases ho : op ∈ tier.operators
    · obtain ⟨next, hstep, hnext⟩ :=
        joinOnce_eq ho hb free h.first hv (startsBehind_linksText id links)
      rw [shape, exhaust_of_some hstep, hnext]
      simp only [Chain.merge, ho, if_true]
      exact ih hb free (h.behind (h.first.joined hv))
    · have ends : EndsOperand (before ++ (w ++ token op)) := by
        rw [← List.append_assoc]
        exact endsOperand_token op _
      have still : ∀ o ∈ tier.operators, .operator o ∉ scan (before ++ (w ++ token op)) := by
        intro o hmem
        rw [scan_before_operand h.first, scan_token (mem_searchOrder_of_rank hop)]
        have : o ≠ op := fun he => ho (he ▸ hmem)
        simpa [this] using free o hmem
      -- the operand and its operator join what stands before the tier's next operator
      have deeper := ih ends still (h.behind hv)
      have regroup (c : Chain (List Char)) :
          before ++ (w ++ token op) ++ text id c =
            before ++ text id ⟨w, (op, c.first) :: c.rest⟩ := by
        simp [text, linksText_cons]
      rw [regroup, regroup] at deeper
      simp only [Chain.merge, ho, if_false]
      exact deeper

theorem endsOperand_nil : EndsOperand [] := rfl

/-- All tiers together merge a chain tier by tier. -/
theorem foldlM_tiers {c : Chain (List Char)} (h : Sound c) :
    tiers.foldlM (fun text tier => exhaust tier.joinOnce text) (text id c) =
      .ok (text id (mergeTiers tiers.length c)) := by
  rw [mergeTiers, List.take_length]
  generalize tiers = l
  induction l generalizing c with
  | nil => rfl
  | cons tier l ih =>
    have once : exhaust tier.joinOnce (text id c) =
        .ok (text id (Chain.merge tier.operators c.first c.rest)) :=
      @exhaust_joinOnce tier [] c.first c.rest endsOperand_nil (by simp [scan]) h
    rw [List.foldlM_cons, once]
    exact ih h.merge

end Chain

end DocumentPath.Infix
