import DocumentPath.Proofs.Infix.Parsing
import DocumentPath.Proofs.Literals.Quotations

namespace DocumentPath.Infix

open DocumentPath.Filter

/-- An expression of the infix grammar with a gap for one operand. -/
inductive Frame
  | gap
  | negate (operand : Frame)
  | joinLeft (op : Operator) (isInfix : 0 < rank op) (left : Frame) (right : Tree)
  | joinRight (op : Operator) (isInfix : 0 < rank op) (left : Tree) (right : Frame)

namespace Frame

/-- The expression with an operand in the gap. -/
def fill : Frame → Expression → Expression
  | gap, e => e
  | negate operand, e => .call .not [operand.fill e]
  | joinLeft op _ left right, e => .call op [left.fill e, right.expression]
  | joinRight op _ left right, e => .call op [left.expression, right.fill e]

section Outcomes

variable (outcome : Except ExpressionFault Expression)

theorem map_gap : outcome.map gap.fill = outcome := by
  cases outcome <;> rfl

theorem map_negate (operand : Frame) :
    (outcome.map operand.fill).map (fun e => .call .not [e]) = outcome.map operand.negate.fill := by
  cases outcome <;> rfl

theorem map_joinLeft {op : Operator} (h : 0 < rank op) (left : Frame) (right : Tree) :
    ((outcome.map left.fill).bind fun a =>
        (Except.ok right.expression).map fun b => .call op [a, b]) =
      outcome.map (left.joinLeft op h right).fill := by
  cases outcome <;> rfl

theorem map_joinRight {op : Operator} (h : 0 < rank op) (left : Tree) (right : Frame) :
    ((Except.ok left.expression).bind fun a =>
        (outcome.map right.fill).map fun b => .call op [a, b]) =
      outcome.map (right.joinRight op h left).fill := by
  cases outcome <;> rfl

end Outcomes

/-- The tokens in front of the gap and behind it, where operators up to a rank may stand free. -/
inductive Surrounds : Nat → Frame → List Token → List Token → Prop
  | gap (k : Nat) : Surrounds k gap [] []
  | negate (k : Nat) {operand : Frame} {before after : List Token} :
    Surrounds 0 operand before after →
    Surrounds k (negate operand) (.operator .not :: before) after
  | joinLeft {k : Nat} {op : Operator} {left : Frame} {right : Tree} {before after rs : List Token}
    (h : 0 < rank op) : rank op ≤ k → Surrounds (rank op) left before after →
    Writes (rank op - 1) right rs →
    Surrounds k (joinLeft op h left right) before (after ++ .operator op :: rs)
  | joinRight {k : Nat} {op : Operator} {left : Tree} {right : Frame} {ls before after : List Token}
    (h : 0 < rank op) : rank op ≤ k → Writes (rank op) left ls →
    Surrounds (rank op - 1) right before after →
    Surrounds k (joinRight op h left right) (ls ++ .operator op :: before) after
  | group (k : Nat) {frame : Frame} {before after : List Token} :
    Surrounds loosest frame before after →
    Surrounds k frame (.opening :: before) (after ++ [.closing])

variable {k : Nat} {f : Frame} {before after : List Token}

/-- In the gap an operand is due. -/
theorem Surrounds.follows (h : f.Surrounds k before after) (l : Leaf) {rest : List Token}
    (hr : Follows false rest) : Follows true (before ++ .leaf l :: (after ++ rest)) := by
  induction h generalizing rest with
  | gap k => exact hr
  | negate k _ ih => exact ⟨rfl, ih hr⟩
  | joinLeft hop _ _ hw ih =>
    rw [List.append_assoc]
    exact ih ⟨hop, hw.follows hr⟩
  | joinRight hop _ hw _ ih =>
    rw [List.append_assoc]
    exact hw.follows ⟨hop, ih hr⟩
  | group k _ ih =>
    rw [List.append_assoc]
    exact ih hr

/-- Where any word stands in the gap, the outcome of reading it decides what all is read as. -/
theorem Surrounds.flattensTo {table : List Value} {lws rws : List (List Char)} {w : List Char}
    {outcome : Except ExpressionFault Expression} (h : f.Surrounds k before after)
    (hl : List.Forall₂ (Denotes table) before lws) (hr : List.Forall₂ (Denotes table) after rws)
    (hw : ∀ c ∈ w, c ≠ '(' ∧ c ≠ ')') (yields : Yields table w outcome) :
    ∃ c v, FlattensTo table k (outcome.map f.fill) (lws ++ w :: rws) c v := by
  induction h generalizing lws rws with
  | gap k =>
    cases hl
    cases hr
    rw [map_gap]
    exact ⟨_, _, flattensTo_word hw yields⟩
  | @negate k operand _ _ _ ih =>
    cases hl with
    | cons hd hl =>
      cases hd
      obtain ⟨c, v, flat⟩ := ih hl hr
      obtain ⟨d, flat⟩ := flattensTo_negate (k := k) flat
      rw [map_negate] at flat
      exact ⟨d, _, flat⟩
  | @joinLeft k op left right _ _ _ hop hk _ hwrites ih =>
    obtain ⟨rws, ws, rfl, hinner, hrest⟩ := forall₂_append hr
    cases hrest with
    | cons hd hrest =>
      cases hd
      obtain ⟨c, v, flat⟩ := ih hl hinner
      obtain ⟨d, u, other⟩ := flattensTo_of_writes hwrites hrest
      have joined := flattensTo_join hop hk flat other
      rw [map_joinLeft outcome hop, List.append_assoc, List.cons_append] at joined
      exact ⟨_, _, joined⟩
  | @joinRight k op left right _ _ _ hop hk hwrites _ ih =>
    obtain ⟨lls, ls, rfl, hleft, hrest⟩ := forall₂_append hl
    cases hrest with
    | cons hd hrest =>
      cases hd
      obtain ⟨c, v, flat⟩ := ih hrest hr
      obtain ⟨d, u, other⟩ := flattensTo_of_writes hwrites hleft
      have joined := flattensTo_join hop hk other flat
      rw [map_joinRight outcome hop] at joined
      rw [List.append_assoc, List.cons_append]
      exact ⟨_, _, joined⟩
  | group k _ ih =>
    cases hl with
    | cons hd hl =>
      cases hd
      obtain ⟨rws, last, rfl, hinner, hlast⟩ := forall₂_append hr
      cases hlast with
      | cons hd hnil =>
        cases hd
        cases hnil
        obtain ⟨c, v, flat⟩ := ih hl hinner
        have grouped := flattensTo_group (k := k) flat
        rw [List.append_assoc, List.cons_append] at grouped
        exact ⟨_, _, grouped⟩

end Frame

section Gap

variable {vs ws : List (List Char)} {w front back : List Char}

theorem Spaced.split {cs : List Char} (hw : IsWord w) (h : Spaced (vs ++ w :: ws) cs) :
    ∃ front back, cs = front ++ (w ++ back) ∧ Spaced vs front ∧ Spaced ws back := by
  induction vs generalizing cs with
  | nil =>
    cases h with
    | @cons gap _ rest _ hgap _ hrest => exact ⟨gap, rest, rfl, .nil hgap, hrest⟩
  | cons v vs ih =>
    cases h with
    | @cons gap _ rest _ hgap hin hrest =>
      obtain ⟨front, back, rfl, hfront, hback⟩ := ih hrest
      refine ⟨gap ++ (v ++ front), back, by simp, .cons hgap (fun hi => ⟨(hin hi).1, ?_⟩) hfront, hback⟩
      have blank := (hin hi).2
      cases front with
      | nil =>
        rw [List.nil_append, hw.head_noBlank] at blank
        cases blank
      | cons c front => exact blank

theorem Spaced.insert (hw : w ≠ inWord) (h : Spaced vs front) (h' : Spaced ws back) :
    Spaced (vs ++ w :: ws) (front ++ (w ++ back)) := by
  induction h with
  | nil hgap => exact .cons hgap (fun hi => absurd hi hw) h'
  | @cons gap v cs vs hgap hin _ ih =>
    rw [List.append_assoc, List.append_assoc]
    refine .cons hgap (fun hi => ⟨(hin hi).1, ?_⟩) ih
    have blank := (hin hi).2
    cases cs with
    | nil => cases blank
    | cons c cs => exact blank

theorem Parted.replace {v : List Char} (hw : w ≠ inWord) (h : Parted (vs ++ v :: ws)) :
    Parted (vs ++ w :: ws) := by
  induction vs with
  | nil =>
    cases ws with
    | nil => trivial
    | cons x ws => exact ⟨fun hi => absurd hi hw, h.2⟩
  | cons x vs ih =>
    cases vs with
    | nil => exact ⟨fun _ => hw, ih h.2⟩
    | cons y vs => exact ⟨h.1, ih h.2⟩

end Gap

section Parsing

variable {f : Frame} {before after : List Token} {w : List Char}

/-- Taking out the strings and joining the words of a text leave a word of it as it is, unless it has
quotes. -/
theorem exists_joined {cs : List Char} (hw : IsWord w) (hne : w ≠ inWord)
    (unquoted : ∀ c ∈ w, isQuote c = false) (hf : Follows true (before ++ .leaf .null :: after))
    (h : Spaced (before.map Token.chars ++ w :: after.map Token.chars) cs) :
    ∃ lws rws e, extract cs = .ok e ∧
      joinWords e.text = lws.flatMap mark ++ (w ++ rws.flatMap mark) ∧
      List.Forall₂ (Extracted (e.strings.map .string)) before lws ∧
      List.Forall₂ (Extracted (e.strings.map .string)) after rws := by
  obtain ⟨front, back, rfl, hfront, hback⟩ := h.split hw
  obtain ⟨lws, strings, text, taken, spaced, left⟩ := extractFrom_spaced hfront []
  obtain ⟨rws, strings', text', taken', spaced', right⟩ :=
    extractFrom_spaced hback (strings.map .string)
  rw [List.length_nil] at taken
  rw [List.length_map] at taken'
  rw [← List.map_append] at right
  have left : List.Forall₂ (Extracted ((strings ++ strings').map .string)) before lws := by
    rw [List.map_append]
    exact left.imp fun _ _ h => h.mono
  refine ⟨lws, rws, ⟨text ++ (w ++ text'), strings ++ strings'⟩, ?_, ?_, left, right⟩
  · rw [extract, extractFrom_append taken, extractFrom_plain unquoted, Nat.zero_add, taken']
    rfl
  · have null : Extracted ((strings ++ strings').map .string) (.leaf .null) Leaf.null.chars :=
      .plain fun s hs => by cases hs
    have parted := (parted_of_follows hf (List.rel_append left (.cons null right))).replace hne
    have isWord : ∀ v ∈ lws ++ w :: rws, IsWord v := by
      intro v hv
      rcases List.mem_append.mp hv with hv | hv
      · exact isWord_of_extracted left v hv
      · rcases List.mem_cons.mp hv with rfl | hv
        · exact hw
        · exact isWord_of_extracted right v hv
    rw [(joinWords_spaced (spaced.insert hne spaced') isWord parted).1, List.flatMap_append,
      List.flatMap_cons, mark, if_neg hne]

/-- The word `w` with blanks around it, in a gap. -/
structure InGap (f : Frame) (before after : List Token) (w : List Char) (text : String) : Prop where
  surrounds : f.Surrounds loosest before after
  isWord : IsWord w
  ne_inWord : w ≠ inWord
  unquoted : ∀ c ∈ w, isQuote c = false
  spaced : Spaced (before.map Token.chars ++ w :: after.map Token.chars) text.toList

variable {text : String} {outcome : Except ExpressionFault Expression}

/-- Parsing comes to lifting the word in the gap, where an operand is due and nothing behind the word
goes on with a number. -/
theorem InGap.exists_parse_eq (h : InGap f before after w text) :
    ∃ table last lws rws, startsOperand last = true ∧ Follows false after ∧
      (rws.flatMap mark).head?.any isNumberChar = false ∧
      (∀ extra, List.Forall₂ (Denotes (table ++ extra)) before lws) ∧
      List.Forall₂ (Extracted table) after rws ∧
      Expression.parse text = (liftNumbers table last (w ++ rws.flatMap mark)).bind fun lifted =>
        (rewrite (lws.flatten ++ lifted.1)).bind (readCall lifted.2) := by
  have follows : Follows true (before ++ .leaf .null :: after) := by
    have nothing : Follows false [] := trivial
    have whole := h.surrounds.follows .null nothing
    rwa [List.append_nil] at whole
  obtain ⟨lws, rws, e, taken, joined, left, right⟩ :=
    exists_joined h.isWord h.ne_inWord h.unquoted follows h.spaced
  have lifts : LiftsOver _ none before (.leaf .null :: after) lws (w ++ rws.flatMap mark) :=
    liftsOver_of_follows follows rfl left False.elim
  obtain ⟨ls, more, last, due, lifted, denoted⟩ := lifts
  have starts : startsOperand last = true := by
    cases hs : startsOperand last with
    | true => rfl
    | false =>
      rw [hs] at due
      exact absurd due id
  have behind : Follows false after := by
    rw [starts] at due
    exact due
  have ends : (rws.flatMap mark ++ []).head?.any isNumberChar = false := by
    rw [← List.append_nil after] at behind
    exact head?_of_follows behind right fun _ => rfl
  rw [List.append_nil] at ends
  refine ⟨e.strings.map .string ++ more, last, ls, rws, starts, behind, ends, denoted,
    right.imp fun _ _ h => h.mono, ?_⟩
  simp only [Expression.parse, taken, joined, lifted, bind, Except.bind]
  cases liftNumbers (e.strings.map .string ++ more) last (w ++ rws.flatMap mark) <;> rfl

/-- Where an operand is due, lifting turns the word into one that is read with this outcome. -/
def Becomes (w : List Char) (outcome : Except ExpressionFault Expression) : Prop :=
  ∀ table previous, startsOperand previous = true → ∃ v more, (∀ c ∈ v, isWordChar c = true) ∧
    (∀ extra, Yields (table ++ more ++ extra) v outcome) ∧
    ∀ cs : List Char, cs.head?.any isNumberChar = false →
      liftNumbers table previous (w ++ cs) =
        (liftNumbers (table ++ more) v.getLast? cs).map (leadWith v)

/-- An expression with a word in its gap is read as the word is. -/
theorem InGap.parse (h : InGap f before after w text) (becomes : Becomes w outcome) :
    Expression.parse text = outcome.map f.fill := by
  obtain ⟨table, last, lws, rws, starts, behind, ends, left, right, parsed⟩ := h.exists_parse_eq
  obtain ⟨v, more, plain, yields, word⟩ := becomes table last starts
  have after_word := startsOperand_of_word (yields []).ne_nil plain
  have lifts : Lifts (table ++ more) v.getLast? after rws :=
    lifts_of_follows behind after_word (right.imp fun _ _ h => h.mono)
  obtain ⟨rs, more', lifted, denoted⟩ := lifts
  have before_word := left (more ++ more')
  rw [← List.append_assoc] at before_word
  obtain ⟨c, x, flat⟩ := h.surrounds.flattensTo before_word denoted
    (fun c hc => ⟨ne_of_isWordChar (plain c hc) rfl, ne_of_isWordChar (plain c hc) rfl⟩) (yields more')
  have rewritten := flat.rewrite
  rw [List.flatten_append, List.flatten_cons] at rewritten
  rw [parsed, word _ ends, lifted]
  change (rewrite (lws.flatten ++ (v ++ rs.flatten))).bind _ = _
  rw [rewritten]
  exact flat.yields.read

/-- An expression is not read where the word in its gap cannot be lifted. -/
theorem InGap.parse_error {fault : ExpressionFault} (h : InGap f before after w text)
    (fails : ∀ table previous, startsOperand previous = true → ∀ cs : List Char,
      cs.head?.any isNumberChar = false → liftNumbers table previous (w ++ cs) = .error fault) :
    Expression.parse text = .error fault := by
  obtain ⟨table, last, lws, rws, starts, _, ends, _, _, parsed⟩ := h.exists_parse_eq
  rw [parsed, fails table last starts _ ends]
  rfl

end Parsing

end DocumentPath.Infix
