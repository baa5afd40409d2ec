import DocumentPath.Proofs.Adjacency.Leaves
import DocumentPath.Proofs.Literals.Renumbering

namespace DocumentPath.Filter

section Reading

variable {table : List Value} {x y : List Char} {e : Expression}

theorem opening_not_mem_name (op : Operator) : '(' ∉ op.name.toList := fun h =>
  (Infix.isOperandChar_of_mem_name op _ h).2.1 rfl

/-- In front of its first parenthesis a text has the name of one operator only. -/
theorem name_eq_of_append_callText {w inner inner' : List Char} {op op' : Operator} (hw : '(' ∉ w)
    (h : w ++ callText op inner = callText op' inner') :
    op'.name.toList = w ++ op.name.toList := by
  have cut : (w ++ op.name.toList) ++ '(' :: (inner ++ [')']) =
      op'.name.toList ++ '(' :: (inner' ++ [')']) := by
    rw [List.append_assoc]
    exact h
  have front : '(' ∉ w ++ op.name.toList := fun hmem =>
    (List.mem_append.mp hmem).elim hw (opening_not_mem_name op)
  obtain ⟨rest, name, behind⟩ := exists_of_append_eq_cut front cut
  cases rest with
  | nil => rw [name, List.append_nil]
  | cons c rest =>
    obtain ⟨rfl, _⟩ := List.cons.inj behind
    exact absurd (by rw [name]; simp) (opening_not_mem_name op')

theorem exists_call_of_readCall {text : List Char} (h : readCall table text = .ok e)
    (opening : '(' ∈ text) :
    ∃ op inner es, text = callText op inner ∧
      readCalls table (splitOperands 0 inner) = .ok es ∧ e = .call op es := by
  rcases readCall_cases h with ⟨number, _, _⟩ | call | ⟨flat, _⟩
  · exact absurd rfl (no_parens_of_isNumber number _ opening).1
  · exact call
  · exact absurd opening flat

theorem exists_of_append_eq_callText {op : Operator} {inner : List Char} (hx : '(' ∈ x)
    (h : x ++ y = callText op inner) :
    ∃ k, x = op.name.toList ++ '(' :: k ∧ inner ++ [')'] = k ++ y := by
  obtain ⟨before, m, rfl⟩ := List.append_of_mem hx
  have cut : op.name.toList ++ '(' :: (inner ++ [')']) = before ++ '(' :: (m ++ y) := by
    rw [List.append_assoc] at h
    exact h.symm
  obtain ⟨rest, rfl, behind⟩ := exists_of_append_eq_cut (opening_not_mem_name op) cut
  cases rest with
  | nil => exact ⟨m, by simp, (List.cons.inj behind).2⟩
  | cons c rest =>
    obtain ⟨rfl, inside⟩ := List.cons.inj behind
    exact ⟨rest ++ '(' :: m, by simp, by rw [inside, List.append_assoc]; rfl⟩

/-- Behind a call that is closed nothing else can stand. -/
theorem opening_not_mem_of_readCall (h : readCall table (x ++ y) = .ok e) (hx : Nested x)
    (hy : Nested y) (hne : y ≠ []) : '(' ∉ x := by
  intro hmem
  obtain ⟨op, inner, es, text, read, _⟩ := exists_call_of_readCall h (List.mem_append_left y hmem)
  have flat : depth inner = 0 := by
    rw [← depth_callText op, ← text]
    exact (hx.append hy).closed
  have nested := (confined_call flat (confined_of_readCalls flat read)).1
  obtain ⟨k, rfl, parts⟩ := exists_of_append_eq_callText hmem text
  -- the text up to the end of the first call would close more than it opens
  have closing : depth k = -1 := by
    have closed := hx.closed
    rw [depth_append, (nested_name op).closed, depth_opening] at closed
    omega
  have inside : ∃ m, inner = k ++ m := by
    rcases List.append_eq_append_iff.mp parts with ⟨m, rfl, hm⟩ | ⟨m, hm, _⟩
    · rcases List.singleton_eq_append_iff.mp hm with ⟨rfl, _⟩ | ⟨_, rfl⟩
      · exact ⟨[], by simp⟩
      · exact absurd rfl hne
    · exact ⟨m, hm⟩
  obtain ⟨m, hm⟩ := inside
  have := nested.opened k m hm
  omega

/-- No call follows an operand, however the literals of the operand are counted. -/
theorem opening_not_mem_behind_leaf {table' : List Value} {z : List Char} {e' : Expression}
    (h : readCall table (x ++ y) = .ok e) (flat : '(' ∉ x) (leaf : LeafText table' z e')
    (same : '#' ∉ x → z = x) : '(' ∉ y := by
  intro hmem
  obtain ⟨op, inner, es, text, _, _⟩ := exists_call_of_readCall h (List.mem_append_right x hmem)
  obtain ⟨rest, name, _⟩ := exists_of_append_eq_cut flat text
  have sharp : '#' ∉ x := fun hmem =>
    absurd (name ▸ List.mem_append_left rest hmem : '#' ∈ op.name.toList) (by cases op <;> decide)
  exact (same sharp ▸ leaf).not_infix_name ⟨[], rest, name.symm⟩

end Reading

section Preparing

variable {ws : List Written} {gs hs : List Glyph} {vs : List Value}

theorem extractFrom_group (s n : Nat) (ws : List Written) (cs : List Char) :
    extractFrom s .plain ('(' :: (writtenChars ws ++ ')' :: cs)) =
      (extractFrom (s + (quotedStrings ws).length) .plain cs).map fun e =>
        ⟨'(' :: (spell s n (glyphsFrom 0 ws) ++ ')' :: e.text), quotedStrings ws ++ e.strings⟩ := by
  have inside := extractFrom_written s n 0 ws (')' :: cs)
  rw [Nat.add_zero] at inside
  rw [extractFrom, if_neg (by decide), inside, extractFrom, if_neg (by decide)]
  cases extractFrom (s + (quotedStrings ws).length) .plain cs <;> rfl

theorem joinWords_group (h : Joins gs hs) (s n : Nat) (cs : List Char) :
    joinWords ('(' :: (spell s n gs ++ ')' :: cs)) =
      '(' :: (spell s n hs ++ ')' :: joinWords cs) := by
  have closes : Closes (')' :: cs) := by simp [Closes]
  rw [Infix.joinWords_cons rfl, joinWords_spell h s n closes, Infix.joinWords_cons rfl]

theorem liftNumbers_group (h : Lifts true 0 gs hs vs) (s m : Nat) {n : Nat} {literals : List Value}
    (count : literals.length = n) (previous : Option Char) (cs : List Char) :
    liftNumbers literals previous ('(' :: (spell s m gs ++ ')' :: cs)) =
      (liftNumbers (literals ++ vs) (some ')') cs).map
        (Infix.leadWith ('(' :: (spell s n hs ++ [')']))) := by
  have ready : startsOperand (some '(') = true := rfl
  have stop : (')' :: cs).head?.any isNumberChar = false := rfl
  obtain ⟨last, inside⟩ := liftNumbers_spell h s m ready count stop
  rw [Infix.liftNumbers_cons (by simp), inside, Infix.liftNumbers_cons (by simp),
    Infix.map_leadWith_append, Infix.map_leadWith_append]
  simp

end Preparing

theorem operators_of_word {w : List Char} (h : ∀ c ∈ w, Infix.isWordChar c = true) :
    operators w = [] := by
  have none := operators_word (fun c hc => not_isOperatorChar_of_isOperandChar
    (Infix.isOperandChar_of_isWordChar (h c hc))) []
  rw [List.append_nil] at none
  rw [none, operators, scan]
  rfl

theorem not_paren_of_word {w : List Char} (h : ∀ c ∈ w, Infix.isWordChar c = true) :
    ∀ c ∈ w, c ≠ '(' ∧ c ≠ ')' := fun c hc =>
  ⟨Infix.ne_of_isWordChar (h c hc) rfl, Infix.ne_of_isWordChar (h c hc) rfl⟩

theorem Resolves.eq_of_plain {w flat : List Char} (h : Resolves w flat)
    (plain : ∀ c ∈ w, c ≠ '(' ∧ c ≠ ')') : flat = w := by
  rw [← List.append_nil w] at h
  obtain ⟨rest, rfl, none⟩ := h.of_append plain
  cases none
  exact List.append_nil w

section Stages

variable {t : List Char} {e : Expression}

theorem Stages.nested (s : Stages t e) : Nested s.normal ∧ Nested s.call := by
  obtain ⟨flat, resolved, _⟩ := exists_resolves_of_rewrite s.rewritten
  exact ⟨resolved.nested, s.tidy.1.isSealed.nested⟩

theorem exists_cons_of_readCall {table : List Value} {text : List Char}
    (h : readCall table text = .ok e) : ∃ c cs, text = c :: cs ∧ isLone c = false := by
  rcases readCall_cases h with ⟨number, _, _⟩ | ⟨op, inner, es, rfl, _, _⟩ | ⟨opening, _⟩
  · have opening : '(' ∉ text := fun hmem => (no_parens_of_isNumber number _ hmem).1 rfl
    obtain ⟨c, cs, rfl, _, lone⟩ := (leafText_of_readCall opening h).exists_cons
    exact ⟨c, cs, rfl, lone⟩
  · obtain ⟨c, cs, hname, _, _⟩ := Infix.name_eq_cons op
    have operand := (Infix.isOperandChar_of_mem_name op c (by simp [hname])).1
    refine ⟨c, cs ++ '(' :: (inner ++ [')']), ?_, not_isLone_of_isOperandChar operand⟩
    rw [callText, hname]
    rfl
  · obtain ⟨c, cs, rfl, _, lone⟩ := (leafText_of_readCall opening h).exists_cons
    exact ⟨c, cs, rfl, lone⟩

theorem head?_of_readCall {table : List Value} {text : List Char}
    (h : readCall table text = .ok e) : text.head?.any isLone = false := by
  obtain ⟨c, cs, rfl, lone⟩ := exists_cons_of_readCall h
  exact lone

section Surrounded

variable {a b : List Char} {e' : Expression}

theorem Stages.normal_surrounded (s : Stages t e) (s' : Stages (a ++ '(' :: (t ++ ')' :: b)) e')
    (ha : ∀ c ∈ a, Infix.isWordChar c = true) (hb : ∀ c ∈ b, Infix.isWordChar c = true) :
    s'.normal = a ++ '(' :: (s.normal ++ ')' :: b) ∧ s'.table = s.table := by
  obtain ⟨ws, rfl⟩ := exists_written s.extracted
  obtain ⟨hs, vs, ⟨gs, joins, lifts⟩, normal, table⟩ := s.normalizes
  let pool := quotedStrings ws
  have extracted : extract (a ++ '(' :: (writtenChars ws ++ ')' :: b)) =
      .ok ⟨a ++ '(' :: (spell 0 pool.length (glyphsFrom 0 ws) ++ ')' :: b), pool⟩ := by
    rw [extract, Infix.extractFrom_plain fun c hc => Infix.isQuote_of_isWordChar (ha c hc),
      extractFrom_group 0 pool.length,
      extractFrom_unquoted fun c hc => Infix.isQuote_of_isWordChar (hb c hc)]
    simp [Except.map, pool]
  have joined : joinWords (a ++ '(' :: (spell 0 pool.length (glyphsFrom 0 ws) ++ ')' :: b)) =
      a ++ '(' :: (spell 0 pool.length gs ++ ')' :: b) := by
    rw [Infix.joinWords_word fun c hc => Infix.isBlank_of_isWordChar (ha c hc),
      joinWords_group joins,
      joinWords_of_no_blank fun c hc => Infix.isBlank_of_isWordChar (hb c hc)]
  have lifted : liftNumbers (pool.map .string) none
      (a ++ '(' :: (spell 0 pool.length gs ++ ')' :: b)) =
      .ok (a ++ '(' :: (s.normal ++ ')' :: b), s.table) := by
    obtain ⟨last, front⟩ := exists_liftNumbers_append (Infix.minus_not_mem_word ha)
      (pool.map Value.string) none ('(' :: (spell 0 pool.length gs ++ ')' :: b))
    rw [front, liftNumbers_group lifts 0 pool.length (n := pool.length) (List.length_map _),
      liftNumbers_of_unsigned (Infix.minus_not_mem_word hb), normal, table]
    simp [Except.map, Infix.leadWith, tableOf, pool]
  have same := s'.lifted
  rw [Except.ok.inj (s'.extracted.symm.trans extracted)] at same
  simp only [joined, lifted] at same
  obtain ⟨normal', table'⟩ := Prod.mk.inj (Except.ok.inj same)
  exact ⟨normal'.symm, table'.symm⟩

/-- A group in a word gives its call form to the word. -/
theorem Stages.call_surrounded (s : Stages t e) (s' : Stages (a ++ '(' :: (t ++ ')' :: b)) e')
    (ha : ∀ c ∈ a, Infix.isWordChar c = true) (hb : ∀ c ∈ b, Infix.isWordChar c = true) :
    s'.call = a ++ (s.call ++ b) := by
  have rewritten := s'.rewritten
  rw [(s.normal_surrounded s' ha hb).1] at rewritten
  obtain ⟨flat, whole, done⟩ := exists_resolves_of_rewrite rewritten
  obtain ⟨behind, rfl, group⟩ := whole.of_append (not_paren_of_word ha)
  obtain ⟨u, rest, rfl, hu, last⟩ := group.of_group s.nested.1
  obtain rfl := Except.ok.inj (s.rewritten.symm.trans hu)
  rw [last.eq_of_plain (not_paren_of_word hb)] at done
  have operand {w : List Char} (h : ∀ c ∈ w, Infix.isWordChar c = true) :
      ∀ c ∈ w, isOperandChar c = true := fun c hc => Infix.isOperandChar_of_isWordChar (h c hc)
  have free : operators (a ++ (s.call ++ b)) = [] := by
    have front : b.head?.any isLone = false := by
      cases b with
      | nil => rfl
      | cons c b => exact not_isLone_of_isOperandChar (operand hb c List.mem_cons_self)
    rw [operators_word fun c hc => not_isOperatorChar_of_isOperandChar (operand ha c hc)]
    exact operators_append_eq_nil s.tidy.2 (operators_of_word hb) front
  exact Except.ok.inj (done.symm.trans (rewriteFlat_of_no_operators free))

theorem Stages.read_surrounded (s : Stages t e) (s' : Stages (a ++ '(' :: (t ++ ')' :: b)) e')
    (ha : ∀ c ∈ a, Infix.isWordChar c = true) (hb : ∀ c ∈ b, Infix.isWordChar c = true) :
    readCall s.table (a ++ (s.call ++ b)) = .ok e' := by
  have read := s'.read
  rwa [s.call_surrounded s' ha hb, (s.normal_surrounded s' ha hb).2] at read

end Surrounded

section Beside

/-- The call forms of two groups side by side stand side by side. -/
theorem rewrite_beside {g g' w : List Char} (nested : Nested g) (nested' : Nested g')
    (clean : ∀ c ∈ g, IsClean c) (clean' : ∀ c ∈ g', IsClean c)
    (front : (bare g').head?.any isLone = false)
    (h : rewrite ('(' :: (g ++ ')' :: '(' :: (g' ++ [')']))) = .ok w) :
    ∃ x y, rewrite g = .ok x ∧ rewrite g' = .ok y ∧ w = x ++ y := by
  obtain ⟨flat, whole, done⟩ := exists_resolves_of_rewrite h
  obtain ⟨x, rest, rfl, hx, behind⟩ := whole.of_group nested
  obtain ⟨y, rest', rfl, hy, last⟩ := behind.of_group nested'
  cases last
  rw [List.append_nil] at done
  refine ⟨x, y, hx, hy, ?_⟩
  have head : y.head?.any isLone = false := (sameFront_of_rewrite hy).lone.symm.trans front
  have free := operators_append_eq_nil (rewrite_spec hx clean).2 (rewrite_spec hy clean').2 head
  exact Except.ok.inj (done.symm.trans (rewriteFlat_of_no_operators free))

/-- The glyphs of a text, and the literals in their places. -/
structure Spelling (s : Stages t e) where
  glyphs : List Glyph
  pool : List String
  numbers : List Value
  normal : s.normal = spell 0 pool.length glyphs
  table : s.table = tableOf pool numbers

/-- Two groups side by side have the glyphs of both, and their literals are counted together. -/
theorem Stages.normal_beside {u : List Char} {f g : Expression} (s : Stages t e) (s' : Stages u f)
    (both : Stages ('(' :: (t ++ ')' :: '(' :: (u ++ [')']))) g) :
    ∃ (a : Spelling s) (b : Spelling s'),
      both.normal = '(' :: (spell 0 (a.pool.length + b.pool.length) a.glyphs ++ ')' ::
        '(' :: (spell a.pool.length (a.pool.length + b.pool.length + a.numbers.length) b.glyphs ++
          [')'])) ∧
      both.table = tableOf (a.pool ++ b.pool) (a.numbers ++ b.numbers) := by
  obtain ⟨ws, rfl⟩ := exists_written s.extracted
  obtain ⟨us, rfl⟩ := exists_written s'.extracted
  obtain ⟨hs, vs, ⟨gs, joins, lifts⟩, normal, table⟩ := s.normalizes
  obtain ⟨hs', vs', ⟨gs', joins', lifts'⟩, normal', table'⟩ := s'.normalizes
  let first := quotedStrings ws
  let second := quotedStrings us
  let n := first.length + second.length
  refine ⟨⟨hs, first, vs, normal, table⟩, ⟨hs', second, vs', normal', table'⟩, ?_⟩
  have extracted : extract ('(' :: (writtenChars ws ++ ')' :: '(' :: (writtenChars us ++ [')']))) =
      .ok ⟨'(' :: (spell 0 n (glyphsFrom 0 ws) ++ ')' ::
        '(' :: (spell first.length n (glyphsFrom 0 us) ++ [')'])), first ++ second⟩ := by
    rw [extract, extractFrom_group 0 n, Nat.zero_add, extractFrom_group first.length n, extractFrom]
    simp [Except.map, first, second]
  have joined : joinWords ('(' :: (spell 0 n (glyphsFrom 0 ws) ++ ')' ::
      '(' :: (spell first.length n (glyphsFrom 0 us) ++ [')']))) =
      '(' :: (spell 0 n gs ++ ')' :: '(' :: (spell first.length n gs' ++ [')'])) := by
    rw [joinWords_group joins, joinWords_group joins', Infix.joinWords_nil]
  have lifted : liftNumbers ((first ++ second).map .string) none
      ('(' :: (spell 0 n gs ++ ')' :: '(' :: (spell first.length n gs' ++ [')']))) =
      .ok ('(' :: (spell 0 n hs ++ ')' :: '(' :: (spell first.length (n + vs.length) hs' ++ [')'])),
        tableOf (first ++ second) (vs ++ vs')) := by
    have count : ((first ++ second).map Value.string).length = n := by simp [n]
    have count' : ((first ++ second).map Value.string ++ vs).length = n + vs.length := by
      rw [List.length_append, count]
    rw [liftNumbers_group lifts 0 n count, liftNumbers_group lifts' first.length n count',
      liftNumbers]
    simp [Except.map, Infix.leadWith, tableOf]
  have same := both.lifted
  rw [Except.ok.inj (both.extracted.symm.trans extracted)] at same
  simp only [joined, lifted] at same
  obtain ⟨normal'', table''⟩ := Prod.mk.inj (Except.ok.inj same)
  exact ⟨normal''.symm, table''.symm⟩

end Beside

end Stages

end DocumentPath.Filter
