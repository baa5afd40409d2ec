import DocumentPath.Filter.Lexeme

namespace DocumentPath.Filter

/-- The characters of operands: names, paths, numbers, placeholders, and operands that are in call
form already. -/
def isOperandChar (c : Char) : Bool :=
  Text.isAlphanumeric c || c ∈ ['.', '@', '$', '_', '(', ')', ',', '\'', '"', '#']

theorem not_isOperatorChar_of_isOperandChar {c : Char} (h : isOperandChar c = true) :
    isOperatorChar c = false := by
  have key : ∀ d ∈ ['!', '=', '<', '>', '&', '|', '+', '-', '*', '/', '%', wordMark],
      (!isOperandChar d) = true := List.all_eq_true.mp (by rfl)
  cases hc : isOperatorChar c with
  | false => rfl
  | true => simpa [h] using key c (by simpa only [isOperatorChar, decide_eq_true_eq] using hc)

/-- The longest operand that a text begins with. -/
def headOperand (cs : List Char) : List Char := cs.takeWhile isOperandChar

/-- The text behind its head operand. -/
def afterHead (cs : List Char) : List Char := cs.dropWhile isOperandChar

/-- The longest operand that a text ends with. -/
def lastOperand (cs : List Char) : List Char := (headOperand cs.reverse).reverse

/-- The text in front of its last operand. -/
def beforeLast (cs : List Char) : List Char := (afterHead cs.reverse).reverse

theorem headOperand_append_afterHead (cs : List Char) : headOperand cs ++ afterHead cs = cs :=
  List.takeWhile_append_dropWhile

theorem beforeLast_append_lastOperand (cs : List Char) : beforeLast cs ++ lastOperand cs = cs := by
  rw [beforeLast, lastOperand, ← List.reverse_append, headOperand_append_afterHead,
    List.reverse_reverse]

theorem not_isOperatorChar_of_mem_headOperand {cs : List Char} :
    ∀ c ∈ headOperand cs, isOperatorChar c = false := fun c h =>
  not_isOperatorChar_of_isOperandChar (List.all_eq_true.mp List.all_takeWhile c h)

theorem not_isOperatorChar_of_mem_lastOperand {cs : List Char} :
    ∀ c ∈ lastOperand cs, isOperatorChar c = false := fun c h =>
  not_isOperatorChar_of_mem_headOperand c (List.mem_reverse.mp h)

/-- An operator in front of its operands. -/
def callText (op : Operator) (operands : List Char) : List Char :=
  op.name.toList ++ '(' :: (operands ++ [')'])

theorem callText_ne_nil (op : Operator) (operands : List Char) : callText op operands ≠ [] := by
  simp [callText]

theorem not_isOperatorChar_of_mem_name (op : Operator) :
    ∀ c ∈ op.name.toList, isOperatorChar c = false := by
  have key : (op.name.toList.all fun c => !isOperatorChar c) = true := by cases op <;> rfl
  intro c hc
  simpa using List.all_eq_true.mp key c hc

theorem not_isOperatorChar_of_mem_callText {op : Operator} {operands : List Char}
    (h : ∀ c ∈ operands, isOperatorChar c = false) :
    ∀ c ∈ callText op operands, isOperatorChar c = false := by
  intro c hc
  simp only [callText, List.mem_append, List.mem_cons, List.not_mem_nil, or_false] at hc
  rcases hc with hc | rfl | hc | rfl
  · exact not_isOperatorChar_of_mem_name op c hc
  · decide
  · exact h c hc
  · decide

/-- A way to part pieces of text at an operator of a tier. -/
structure Parting (tier : List Operator) (ls : List Lexeme) where
  before : List Lexeme
  op : Operator
  after : List Lexeme
  eq_append : ls = before ++ .operator op :: after
  op_mem : op ∈ tier

def Parting.cons {tier : List Operator} {ls : List Lexeme} (l : Lexeme) (p : Parting tier ls) :
    Parting tier (l :: ls) :=
  ⟨l :: p.before, p.op, p.after, congrArg (l :: ·) p.eq_append, p.op_mem⟩

def Parting.ofReverse {tier : List Operator} {ls : List Lexeme} (p : Parting tier ls.reverse) :
    Parting tier ls :=
  ⟨p.after.reverse, p.op, p.before.reverse,
    by simpa using congrArg List.reverse p.eq_append, p.op_mem⟩

/-- Parts pieces of text at their first operator of a tier. -/
def splitFirst (tier : List Operator) : (ls : List Lexeme) → Option (Parting tier ls)
  | [] => none
  | .operator op :: ls =>
    if h : op ∈ tier then some ⟨[], op, ls, rfl, h⟩
    else (splitFirst tier ls).map (.cons (.operator op))
  | .char c :: ls => (splitFirst tier ls).map (.cons (.char c))

/-- Parts pieces of text at their last operator of a tier. -/
def splitLast (tier : List Operator) (ls : List Lexeme) : Option (Parting tier ls) :=
  (splitFirst tier ls.reverse).map .ofReverse

theorem Parting.text_eq {tier : List Operator} {text : List Char} (p : Parting tier (scan text)) :
    text = render p.before ++ (token p.op ++ render p.after) := by
  conv => lhs; rw [← render_scan text, p.eq_append]
  simp [render, Lexeme.text]

/-- The last of two texts comes out of the first by taking one operator; the others are left as
they were. -/
def TakesOne (text text' : List Char) : Prop :=
  ∃ l op r, operators text = l ++ op :: r ∧ operators text' = l ++ r

theorem TakesOne.length_lt {text text' : List Char} (h : TakesOne text text') :
    (operators text').length < (operators text).length := by
  obtain ⟨l, op, r, h1, h2⟩ := h
  simp [h1, h2]

theorem Parting.takesOne_negate {text : List Char} (p : Parting [.not] (scan text))
    (hne : headOperand (render p.after) ≠ []) :
    TakesOne text (render p.before ++ callText p.op (headOperand (render p.after)) ++
      afterHead (render p.after)) := by
  have hop : p.op = .not := by simpa using p.op_mem
  refine ⟨operators (render p.before), p.op, operators (afterHead (render p.after)), ?_, ?_⟩
  · conv =>
      lhs
      rw [p.text_eq, ← headOperand_append_afterHead (render p.after), ← List.append_assoc, hop]
    rw [operators_append_word hne not_isOperatorChar_of_mem_headOperand]
    show operators (render p.before ++ '!' :: []) ++ _ = _
    rw [operators_append breaks_not]
    have : operators ['!'] = [.not] := @operators_token .not (by decide)
    simp [this, hop]
  · rw [List.append_assoc, operators_append_word (callText_ne_nil _ _)
      (not_isOperatorChar_of_mem_callText not_isOperatorChar_of_mem_headOperand)]

theorem Parting.takesOne_join {tier : List Operator} {text : List Char}
    (p : Parting tier (scan text)) (hTier : ∀ op ∈ tier, op ∈ searchOrder)
    (hRight : headOperand (render p.after) ≠ []) (hLeft : lastOperand (render p.before) ≠ []) :
    TakesOne text (beforeLast (render p.before) ++
      callText p.op (lastOperand (render p.before) ++ ',' :: headOperand (render p.after)) ++
      afterHead (render p.after)) := by
  refine ⟨operators (beforeLast (render p.before)), p.op, operators (afterHead (render p.after)),
    ?_, ?_⟩
  · conv =>
      lhs
      rw [p.text_eq, ← headOperand_append_afterHead (render p.after),
        ← beforeLast_append_lastOperand (render p.before), List.append_assoc]
    rw [operators_append_word hLeft not_isOperatorChar_of_mem_lastOperand,
      operators_append_word hRight not_isOperatorChar_of_mem_headOperand,
      operators_token (hTier p.op p.op_mem)]
    simp
  · rw [List.append_assoc, operators_append_word (callText_ne_nil _ _)
      (not_isOperatorChar_of_mem_callText _)]
    intro c hc
    simp only [List.mem_append, List.mem_cons] at hc
    rcases hc with hc | rfl | hc
    · exact not_isOperatorChar_of_mem_lastOperand c hc
    · decide
    · exact not_isOperatorChar_of_mem_headOperand c hc

/-- Takes one operator out of a text, if it finds one that it can take. -/
abbrev Step :=
  (text : List Char) → Except ExpressionFault (Option { text' : List Char // TakesOne text text' })

/-- Puts the last negation of a text into call form, if there is one. -/
def negateOnce : Step := fun text =>
  match splitLast [.not] (scan text) with
  | none => .ok none
  | some p =>
    if h : headOperand (render p.after) ≠ [] then .ok (some ⟨_, p.takesOne_negate h⟩)
    else .error (.missingOperand p.op)

/-- Repeats a step until it finds nothing more; every round takes one operator. -/
def exhaust (step : Step) (text : List Char) : Except ExpressionFault (List Char) :=
  match step text with
  | .error fault => .error fault
  | .ok none => .ok text
  | .ok (some ⟨text', _⟩) => exhaust step text'
termination_by (operators text).length
decreasing_by exact TakesOne.length_lt (by assumption)

/-- Operators that bind equally tight. -/
structure Tier where
  operators : List Operator
  known : ∀ op ∈ operators, op ∈ searchOrder := by decide

/-- The operators with two operands, those that bind tighter first. -/
def tiers : List Tier := [
  ⟨[.pow], by decide⟩,
  ⟨[.mul, .div], by decide⟩,
  ⟨[.mod], by decide⟩,
  ⟨[.add, .sub], by decide⟩,
  ⟨[.le, .lt, .gt, .ge, .within], by decide⟩,
  ⟨[.strictNe, .looseNe, .strictEq, .looseEq], by decide⟩,
  ⟨[.and], by decide⟩,
  ⟨[.or], by decide⟩]

/-- Puts the first operator of a tier into call form, if there is one. -/
def Tier.joinOnce (tier : Tier) : Step := fun text =>
  match splitFirst tier.operators (scan text) with
  | none => .ok none
  | some p =>
    if h : headOperand (render p.after) ≠ [] ∧ lastOperand (render p.before) ≠ [] then
      .ok (some ⟨_, p.takesOne_join tier.known h.1 h.2⟩)
    else .error (.missingOperand p.op)

/-- Puts a text without parentheses of its own into call form. -/
def rewriteFlat (text : List Char) : Except ExpressionFault (List Char) := do
  let text ← exhaust negateOnce text
  tiers.foldlM (fun text tier => exhaust tier.joinOnce text) text

/-- Puts a text into call form. `outer` holds the texts in front of the open parentheses, the
innermost first, and `current` the text since the last of them. A fault inside parentheses counts
once they are closed, and a later fault of the same text never replaces an earlier one. -/
def rewriteGroups (outer : List (Except ExpressionFault (List Char)))
    (current : Except ExpressionFault (List Char)) :
    List Char → Except ExpressionFault (List Char)
  | [] =>
    match outer.getLast? with
    | none => current >>= rewriteFlat
    | some first => first >>= fun _ => .error .unclosed
  | c :: cs =>
    if c = '(' then rewriteGroups (current :: outer) (.ok []) cs
    else if c = ')' then
      match outer with
      | [] => current >>= fun _ => .error .strayClose
      | before :: outer =>
        rewriteGroups outer (do return (← before) ++ (← current >>= rewriteFlat)) cs
    else rewriteGroups outer (current.map (· ++ [c])) cs

/-- Puts a text with parentheses into call form. -/
def rewrite (text : List Char) : Except ExpressionFault (List Char) :=
  rewriteGroups [] (.ok []) text

section Characters

variable {outer : List (Except ExpressionFault (List Char))}
  {current before : Except ExpressionFault (List Char)} {cs : List Char}

theorem rewriteGroups_cons_opening :
    rewriteGroups outer current ('(' :: cs) = rewriteGroups (current :: outer) (.ok []) cs := by
  conv => lhs; unfold rewriteGroups
  rw [if_pos rfl]

theorem rewriteGroups_cons_closing :
    rewriteGroups (before :: outer) current (')' :: cs) =
      rewriteGroups outer (do return (← before) ++ (← current >>= rewriteFlat)) cs := by
  conv => lhs; unfold rewriteGroups
  rw [if_neg (by decide), if_pos rfl]

theorem rewriteGroups_cons_stray :
    rewriteGroups [] current (')' :: cs) = current >>= fun _ => .error .strayClose := by
  unfold rewriteGroups
  rw [if_neg (by decide), if_pos rfl]

theorem rewriteGroups_cons_char {c : Char} (h1 : c ≠ '(') (h2 : c ≠ ')') :
    rewriteGroups outer current (c :: cs) = rewriteGroups outer (current.map (· ++ [c])) cs := by
  conv => lhs; unfold rewriteGroups
  rw [if_neg h1, if_neg h2]

end Characters

end DocumentPath.Filter
