import DocumentPath.Proofs.Infix.Tiers

namespace DocumentPath.Infix

open DocumentPath.Filter

/-- The last operator of a tier is where a text is parted from the right. -/
theorem splitLast_eq {tier : List Operator} {ls a b : List Lexeme} {op : Operator}
    (h : ls = a ++ .operator op :: b) (hop : op ∈ tier) (hb : ∀ o ∈ tier, .operator o ∉ b) :
    ∃ p, splitLast tier ls = some p ∧ p.before = a ∧ p.op = op ∧ p.after = b := by
  have reversed : ls.reverse = b.reverse ++ .operator op :: a.reverse := by simp [h]
  obtain ⟨p, hp, h1, h2, h3⟩ := splitFirst_eq reversed hop (by simpa using hb)
  refine ⟨p.ofReverse, by rw [splitLast, hp]; rfl, ?_, h2, ?_⟩
  · simp [Parting.ofReverse, h3]
  · simp [Parting.ofReverse, h1]

theorem negateOnce_of_not_mem {text : List Char} (h : .operator .not ∉ scan text) :
    negateOnce text = .ok none := by
  have : splitFirst [.not] (scan text).reverse = none := splitFirst_eq_none (by simpa using h)
  rw [negateOnce, splitLast, this]
  rfl

/-- One step puts the last negation in front of its operand into call form. -/
theorem negateOnce_eq {before w cs : List Char} (hw : IsOperand w) (hcs : StartsBehind cs)
    (free : .operator .not ∉ scan cs) :
    ∃ next, negateOnce (before ++ '!' :: (w ++ cs)) = .ok (some next) ∧
      next.1 = before ++ (callText .not w ++ cs) := by
  have mark : scan ['!'] = [.operator .not] := @scan_token .not (by decide)
  have pieces : scan (before ++ '!' :: (w ++ cs)) =
      scan before ++ .operator .not :: (w.map .char ++ scan cs) := by
    rw [scan_append breaks_not]
    have := scan_before_operand hw ['!'] cs
    rw [mark] at this
    exact congrArg (scan before ++ ·) this
  have right : ∀ o ∈ [Operator.not], Lexeme.operator o ∉ w.map .char ++ scan cs := by
    simpa using free
  obtain ⟨p, hp, h1, h2, h3⟩ := splitLast_eq pieces (by simp) right
  have hleft : render p.before = before := by rw [h1, render_scan]
  have hright : render p.after = w ++ cs := by
    rw [h3, render_append, render_scan, render_chars]
  obtain ⟨head, after⟩ := headOperand_append hw hcs
  have operand : headOperand (render p.after) ≠ [] := by
    rw [hright, head]
    exact hw.1
  rw [negateOnce, hp]
  simp only [dif_pos operand]
  refine ⟨_, rfl, ?_⟩
  simp only [hleft, hright, head, after, h2, List.append_assoc]

/-- An operand with its negations still in front of it. -/
structure Prefixed where
  count : Nat
  word : List Char

namespace Prefixed

def text (a : Prefixed) : List Char := List.replicate a.count '!' ++ a.word

def callFrom (w : List Char) : Nat → List Char
  | 0 => w
  | n + 1 => callFrom (callText .not w) n

/-- The operand with its negations in call form, the innermost first. -/
def call (a : Prefixed) : List Char := callFrom a.word a.count

theorem isOperand_callFrom {w : List Char} (h : IsOperand w) (n : Nat) :
    IsOperand (callFrom w n) := by
  induction n generalizing w with
  | zero => exact h
  | succ n ih => exact ih ⟨callText_ne_nil _ _, isOperandChar_of_mem_callText h.2⟩

end Prefixed

namespace Chain

theorem not_mem_scan_links {links : List (Operator × List Char)}
    (h : ∀ link ∈ links, IsOperand link.2) (hi : Infixes links) :
    .operator .not ∉ scan (linksText id links) := by
  induction links with
  | nil => simp [linksText, scan]
  | cons link links ih =>
    obtain ⟨op, w⟩ := link
    have hw : IsOperand w := h (op, w) (by simp)
    have hop : 0 < rank op := hi (op, w) (by simp)
    have other : Operator.not ≠ op := by
      rintro rfl
      exact absurd hop (by decide)
    have tail := ih (fun l hl => h l (by simp [hl])) fun l hl => hi l (by simp [hl])
    rw [linksText_cons, id, scan_before_operand hw, scan_token (mem_searchOrder_of_rank hop)]
    simpa [other] using tail

theorem Sound.not_mem_scan {c : Chain (List Char)} (h : Sound c) :
    .operator .not ∉ scan (text id c) := by
  have := scan_before_operand h.first [] (linksText id c.rest)
  rw [List.nil_append] at this
  rw [text, id, this]
  simpa [scan] using not_mem_scan_links h.rest h.infixes

/-- The negations in front of one operand are put into call form, when there is none behind it. -/
theorem exhaust_negateOnce_operand {w cs : List Char} (hcs : StartsBehind cs)
    (free : .operator .not ∉ scan cs) (before : List Char) (n : Nat) (hw : IsOperand w) :
    exhaust negateOnce (before ++ (Prefixed.text ⟨n, w⟩ ++ cs)) =
      exhaust negateOnce (before ++ (Prefixed.call ⟨n, w⟩ ++ cs)) := by
  induction n generalizing w with
  | zero => rfl
  | succ n ih =>
    have called : IsOperand (callText .not w) :=
      ⟨callText_ne_nil _ _, isOperandChar_of_mem_callText hw.2⟩
    have shape : before ++ (Prefixed.text ⟨n + 1, w⟩ ++ cs) =
        (before ++ List.replicate n '!') ++ '!' :: (w ++ cs) := by
      simp [Prefixed.text, List.replicate_succ']
    obtain ⟨next, hstep, hnext⟩ := @negateOnce_eq (before ++ List.replicate n '!') w cs hw hcs free
    rw [shape, exhaust_of_some hstep, hnext, List.append_assoc, ← List.append_assoc _ _ cs]
    exact ih called

/-- All operands of a chain are words that nothing parts, once their negations are taken away. -/
structure Prepared (c : Chain Prefixed) : Prop where
  first : IsOperand c.first.word
  rest : ∀ link ∈ c.rest, IsOperand link.2.word
  infixes : Infixes c.rest

theorem Prepared.join {c d : Chain Prefixed} {op : Operator} (hc : Prepared c) (hop : 0 < rank op)
    (hd : Prepared d) : Prepared (c.join op d) := by
  refine ⟨hc.first, ?_, ?_⟩
  · intro link h
    rcases List.mem_append.mp h with h | h
    · exact hc.rest link h
    · rcases List.mem_cons.mp h with rfl | h
      · exact hd.first
      · exact hd.rest link h
  · intro link h
    rcases List.mem_append.mp h with h | h
    · exact hc.infixes link h
    · rcases List.mem_cons.mp h with rfl | h
      · exact hop
      · exact hd.infixes link h

theorem Prepared.sound {c : Chain Prefixed} (h : Prepared c) : Sound (c.map Prefixed.call) where
  first := Prefixed.isOperand_callFrom h.first _
  rest := by
    intro link hl
    obtain ⟨l, hmem, rfl⟩ := List.mem_map.mp hl
    exact Prefixed.isOperand_callFrom (h.rest l hmem) _
  infixes := by
    intro link hl
    obtain ⟨l, hmem, rfl⟩ := List.mem_map.mp hl
    exact h.infixes l hmem

/-- Putting the negations of a chain into call form one by one, from the right, puts all of them
into call form. -/
theorem exhaust_negateOnce {c : Chain Prefixed} (h : Prepared c) (before : List Char) :
    exhaust negateOnce (before ++ text Prefixed.text c) =
      exhaust negateOnce (before ++ text id (c.map Prefixed.call)) := by
  obtain ⟨a, links⟩ := c
  -- the last negation is rewritten first, so the tail of the chain comes before its head
  induction links generalizing before a with
  | nil =>
    have nothing : StartsBehind (linksText Prefixed.text []) := startsBehind_linksText _ []
    exact exhaust_negateOnce_operand nothing (by simp [linksText, scan]) before a.count h.first
  | cons link links ih =>
    obtain ⟨op, b⟩ := link
    have tail : Prepared ⟨b, links⟩ :=
      ⟨h.rest (op, b) (by simp), fun l hl => h.rest l (by simp [hl]),
        fun l hl => h.infixes l (by simp [hl])⟩
    have deeper := ih (before ++ (a.text ++ token op)) b tail
    have regroup {α : Type} (f : α → List Char) (d : Chain α) :
        before ++ (a.text ++ token op) ++ text f d =
          before ++ (a.text ++ linksText f ((op, d.first) :: d.rest)) := by
      simp [text, linksText_cons]
    rw [regroup, regroup] at deeper
    have sound := h.sound
    have here := exhaust_negateOnce_operand (startsBehind_linksText id _)
      (not_mem_scan_links sound.rest sound.infixes) before a.count h.first
    exact deeper.trans here

/-- A flat text is put into call form by merging its chain. -/
theorem rewriteFlat_text {c : Chain Prefixed} {w : List Char} (h : Prepared c)
    (hw : mergeTiers tiers.length (c.map Prefixed.call) = ⟨w, []⟩) :
    rewriteFlat (text Prefixed.text c) = .ok w := by
  have negations : exhaust negateOnce (text Prefixed.text c) =
      .ok (text id (c.map Prefixed.call)) := by
    have := exhaust_negateOnce h []
    rw [List.nil_append, List.nil_append] at this
    rw [this]
    exact exhaust_of_none (negateOnce_of_not_mem h.sound.not_mem_scan)
  have merged := foldlM_tiers h.sound
  rw [hw] at merged
  rw [rewriteFlat, negations]
  refine merged.trans ?_
  simp [text, linksText]

end Chain

end DocumentPath.Infix
