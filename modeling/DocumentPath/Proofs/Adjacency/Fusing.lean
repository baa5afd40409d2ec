import DocumentPath.Proofs.Adjacency.Segments
import DocumentPath.Proofs.References.Keys

namespace DocumentPath

namespace Filter

section Places

variable {t : List Char} {e : Expression}

theorem count_bare (cs : List Char) : (bare cs).count '#' = cs.count '#' :=
  List.count_filter (by decide)

/-- An operand that is no call has the places of all literals in it. -/
theorem Stages.length_table_le (s : Stages t e) (flat : '(' ∉ s.call) :
    s.table.length ≤ s.call.count '#' := by
  obtain ⟨ws, rfl⟩ := exists_written s.extracted
  obtain ⟨hs, vs, normalizes, normal, table⟩ := s.normalizes
  rw [eq_bare_of_rewrite s.rewritten flat, count_bare, normal, table, ← normalizes.countP_eq]
  exact countP_isLiteral_le _ _ hs

theorem Stages.leafText (s : Stages t e) (flat : '(' ∉ s.call) : LeafText s.table s.call e :=
  leafText_of_readCall flat s.read

end Places

section Words

variable {t w : List Char} {e e' : Expression}

/-- A word behind a group is rejected unless the text of the operand in it goes on with the word. -/
theorem Stages.fuses_behind (s : Stages t e) (s' : Stages ('(' :: (t ++ ')' :: w)) e')
    (hne : w ≠ []) (hw : ∀ c ∈ w, Infix.isWordChar c = true)
    (clear : ¬Blurs s.table s.call w) :
    LeafText [] s.call e ∧ Fuses s.call w e' := by
  have read : readCall s.table (s.call ++ w) = .ok e' :=
    s.read_surrounded s' (List.forall_mem_nil _) hw
  have flat := opening_not_mem_of_readCall read s.nested.2
    (nested_of_no_parens (not_paren_of_word hw)) hne
  have word : '(' ∉ w := Infix.opening_not_mem_word hw
  have whole := leafText_of_readCall (List.not_mem_append flat word) read
  have leaf := s.leafText flat
  have few := s.length_table_le flat
  have empty : s.table = [] := by
    by_contra ne
    refine clear ⟨ne, word, ?_⟩
    rcases leaf.path_or_place (sharp_mem_of_few few ne) with path | place
    · exact .inl path
    · have more : s.table.length ≤ (s.call ++ w).count '#' := by
        rw [List.count_append]
        omega
      exact .inr ⟨place, (leaf.zeros_behind whole place rfl more le_rfl fun _ => rfl).2⟩
  rw [empty] at leaf whole
  exact ⟨leaf, whole.fuses leaf.ne_nil hne (.inl ⟨e, leaf⟩)⟩

/-- A word in front of a group is rejected unless it goes on with the text of the operand in it, or
makes the name of the operator of a call in it another one. -/
theorem Stages.fuses_front (s : Stages t e) (s' : Stages (w ++ '(' :: (t ++ [')'])) e')
    (hne : w ≠ []) (hw : ∀ c ∈ w, Infix.isWordChar c = true)
    (clear : ¬Blurs s.table w s.call) (named : ¬Renames w e) : LeafText [] s.call e ∧ Fuses w s.call e' := by
  have read := s.read_surrounded s' hw (List.forall_mem_nil _)
  rw [List.append_nil] at read
  have word : '(' ∉ w := Infix.opening_not_mem_word hw
  have flat : '(' ∉ s.call := by
    intro opening
    obtain ⟨op, inner, es, text, _, he⟩ := exists_call_of_readCall s.read opening
    obtain ⟨op', inner', es', text', _, _⟩ :=
      exists_call_of_readCall read (List.mem_append_right w opening)
    rw [text] at text'
    exact named ⟨op, op', es, he, name_eq_of_append_callText word text'⟩
  have whole := leafText_of_readCall (List.not_mem_append word flat) read
  have leaf := s.leafText flat
  have few := s.length_table_le flat
  have empty : s.table = [] := by
    by_contra ne
    have sharp := sharp_mem_of_few few ne
    exact clear ⟨ne, flat, .inl (whole.path_of_sharp hne sharp leaf.head?_ne_point)⟩
  rw [empty] at leaf whole
  exact ⟨leaf, whole.fuses hne leaf.ne_nil (.inr ⟨e, leaf⟩)⟩

end Words

section Operands

variable {t u : List Char} {e f g : Expression}

theorem opening_not_mem_bare (cs : List Char) : '(' ∉ bare cs := fun h =>
  (of_decide_eq_true (List.mem_filter.mp h).2).1 rfl

/-- A text without parentheses in call form has just its own glyphs, and so it has however they are
spelled. -/
theorem call_renumbered {s n s' n' : Nat} {hs : List Glyph} {x x' : List Char}
    (h : rewrite (spell s n hs) = .ok x) (flat : '(' ∉ x) (free : operators x = [])
    (h' : rewrite (spell s' n' hs) = .ok x') :
    x = spell s n (bareGlyphs hs) ∧ x' = spell s' n' (bareGlyphs hs) ∧ '(' ∉ x' := by
  have here : x = spell s n (bareGlyphs hs) := by
    rw [eq_bare_of_rewrite h flat, bare_spell]
  obtain ⟨flat', resolved, _⟩ := exists_resolves_of_rewrite h'
  have free' : operators (bare (spell s' n' hs)) = [] := by
    rw [bare_spell]
    exact operators_renumbered (here ▸ free) s' n'
  rw [rewrite_eq_bare resolved free'] at h'
  have same := (Except.ok.inj h').symm
  exact ⟨here, same.trans (bare_spell s' n' hs), same ▸ opening_not_mem_bare _⟩

/-- Operands side by side that do not blur have no places, if they are read as one operand. -/
theorem tables_eq_nil {pool pool' : List String} {vs vs' : List Value} {hs hs' : List Glyph}
    (left : LeafText (tableOf pool vs) (spell 0 pool.length hs) e)
    (right : LeafText (tableOf pool' vs') (spell 0 pool'.length hs') f)
    (whole : LeafText (tableOf (pool ++ pool') (vs ++ vs'))
      (spell 0 (pool.length + pool'.length) hs ++
        spell pool.length (pool.length + pool'.length + vs.length) hs') g)
    (few : (tableOf (pool ++ pool') (vs ++ vs')).length ≤
      (spell 0 (pool.length + pool'.length) hs ++
        spell pool.length (pool.length + pool'.length + vs.length) hs').count '#')
    (flat : '(' ∉ spell 0 pool'.length hs')
    (clear : ¬Blurs (tableOf pool vs ++ tableOf pool' vs') (spell 0 pool.length hs)
      (spell 0 pool'.length hs')) : tableOf pool vs ++ tableOf pool' vs' = [] := by
  have length : (tableOf (pool ++ pool') (vs ++ vs')).length =
      (tableOf pool vs).length + (tableOf pool' vs').length := by
    simp only [tableOf, List.length_append, List.length_map]
    omega
  by_contra ne
  refine clear ⟨ne, flat, ?_⟩
  by_cases sharp : '#' ∈ spell 0 pool.length hs
  · rcases left.path_or_place sharp with path | place
    · exact .inl path
    have alone (same : (tableOf (pool ++ pool') (vs ++ vs')).length = (tableOf pool vs).length) :
        spell 0 (pool.length + pool'.length) hs = spell 0 pool.length hs := by
      simp only [tableOf, List.length_append, List.length_map] at same
      obtain rfl : pool' = [] := List.eq_nil_of_length_eq_zero (by omega)
      rfl
    obtain ⟨none, zeros⟩ :=
      left.zeros_behind whole place (head?_renumbered ..) few (by omega) alone
    rw [← spell_of_no_sharp none 0 pool'.length] at zeros
    exact .inr ⟨place, zeros⟩
  · rw [spell_of_no_sharp sharp 0 (pool.length + pool'.length)] at whole few
    have more := List.length_pos_iff.mpr ne
    rw [List.length_append, ← length] at more
    have inside := sharp_mem_of_few few (List.length_pos_iff.mp more)
    have point := right.head?_ne_point
    rw [head?_renumbered 0 pool'.length pool.length (pool.length + pool'.length + vs.length)]
      at point
    have behind := (List.mem_append.mp inside).resolve_left sharp
    exact .inl (whole.path_of_sharp left.ne_nil behind point)

/-- Two groups side by side that are read hold no calls. Their texts stand side by side, with the
literals of both counted together. -/
theorem Stages.call_beside (s : Stages t e) (s' : Stages u f)
    (both : Stages ('(' :: (t ++ ')' :: '(' :: (u ++ [')']))) g) :
    ∃ (a : Spelling s) (b : Spelling s'), '(' ∉ s.call ∧ '(' ∉ s'.call ∧ '(' ∉ both.call ∧
      s.call = spell 0 a.pool.length (bareGlyphs a.glyphs) ∧
      s'.call = spell 0 b.pool.length (bareGlyphs b.glyphs) ∧
      both.call = spell 0 (a.pool.length + b.pool.length) (bareGlyphs a.glyphs) ++
        spell a.pool.length (a.pool.length + b.pool.length + a.numbers.length)
          (bareGlyphs b.glyphs) ∧
      both.table = tableOf (a.pool ++ b.pool) (a.numbers ++ b.numbers) := by
  obtain ⟨a, b, normal, table⟩ := s.normal_beside s' both
  have rewritten := both.rewritten
  have clean := both.isClean
  have nested := s.nested.1
  have nested' := s'.nested.1
  have first := s.rewritten
  have second := s'.rewritten
  rw [normal] at rewritten clean
  rw [a.normal] at nested first
  rw [b.normal] at nested' second
  simp only [List.forall_mem_cons, List.forall_mem_append] at clean
  obtain ⟨_, clean, _, _, clean', _⟩ := clean
  have front (s n : Nat) : SameFront (bare (spell s n b.glyphs)) s'.call := by
    rw [bare_spell]
    refine (sameFront_renumbered s n 0 b.pool.length _).trans ?_
    rw [← bare_spell]
    exact sameFront_of_rewrite second
  obtain ⟨x, y, hx, hy, call⟩ := rewrite_beside (nested_renumbered nested _ _)
    (nested_renumbered nested' _ _) clean clean'
    ((front _ _).lone.trans (head?_of_readCall s'.read)) rewritten
  have tidy := rewrite_spec hx clean
  have tidy' := rewrite_spec hy clean'
  have hne : y ≠ [] := by
    intro hy'
    obtain ⟨c, cs, hcons, _⟩ := exists_cons_of_readCall s'.read
    have empty := (front _ _).empty.mp ((sameFront_of_rewrite hy).empty.mpr hy')
    cases hcons.symm.trans empty
  have read := both.read
  rw [call] at read
  have flat := opening_not_mem_of_readCall read tidy.1.isSealed.nested tidy'.1.isSealed.nested hne
  obtain ⟨hx, hcall, here⟩ := call_renumbered hx flat tidy.2 first
  have flat' : '(' ∉ y := opening_not_mem_behind_leaf read flat (s.leafText here) fun sharp => by
    rw [hcall, hx]
    exact spell_of_no_sharp (hx ▸ sharp) _ _
  obtain ⟨hy, hcall', here'⟩ := call_renumbered hy flat' tidy'.2 second
  exact ⟨a, b, here, here', call ▸ List.not_mem_append flat flat', hcall, hcall',
    by rw [call, hx, hy], table⟩

/-- Two groups side by side are rejected unless the texts of the operands in them fuse. -/
theorem Stages.fuses_beside (s : Stages t e) (s' : Stages u f)
    (both : Stages ('(' :: (t ++ ')' :: '(' :: (u ++ [')']))) g)
    (clear : ¬Blurs (s.table ++ s'.table) s.call s'.call) :
    LeafText [] s.call e ∧ LeafText [] s'.call f ∧ Fuses s.call s'.call g := by
  obtain ⟨a, b, flat, flat', opening, call, call', together, table⟩ := s.call_beside s' both
  have left := s.leafText flat
  have right := s'.leafText flat'
  have whole := both.leafText opening
  have few := both.length_table_le opening
  rw [table, together] at whole few
  rw [call, a.table] at left
  rw [call', b.table] at right
  rw [a.table, b.table, call, call'] at clear
  have empty := tables_eq_nil left right whole few (call' ▸ flat') clear
  -- without places the texts are the same in the whole as by themselves
  obtain ⟨none, none'⟩ := List.append_eq_nil_iff.mp empty
  obtain ⟨pool, numbers⟩ := tableOf_eq_nil none
  obtain ⟨pool', numbers'⟩ := tableOf_eq_nil none'
  rw [call, call']
  simp only [pool, numbers, pool', numbers', List.length_nil, Nat.add_zero, List.append_nil]
    at left right whole ⊢
  exact ⟨left, right, whole.fuses left.ne_nil right.ne_nil (.inl ⟨e, left⟩)⟩

end Operands

section Gaps

variable {t v w gap : List Char} {e f g : Expression}

/-- Text without anything to take out or to put into call form is read as it stands. -/
theorem Stages.of_plain (s : Stages t e) (unquoted : ∀ c ∈ t, isQuote c = false)
    (joined : joinWords t = w) (unsigned : '-' ∉ w) (plain : ∀ c ∈ w, c ≠ '(' ∧ c ≠ ')')
    (free : operators w = []) : s.table = [] ∧ s.call = w := by
  have lifted := s.lifted
  rw [Except.ok.inj (s.extracted.symm.trans (extract_of_unquoted unquoted))] at lifted
  simp only [joined, List.map_nil, liftNumbers_of_unsigned unsigned] at lifted
  obtain ⟨normal, table⟩ := Prod.mk.inj (Except.ok.inj lifted)
  have rewritten := s.rewritten
  rw [← normal, (Resolves.plain plain).rewrite, rewriteFlat_of_no_operators free] at rewritten
  exact ⟨table.symm, (Except.ok.inj rewritten).symm⟩

theorem Stages.of_unbroken (s : Stages t e) (h : Unbroken t) : s.table = [] ∧ s.call = t :=
  s.of_plain (fun c hc => (h.isClean c hc).2) (joinWords_of_no_blank fun c hc => (h.isClean c hc).1)
    h.minus_not_mem h.noParens (operators_eq_nil h.noOperator)

theorem joinWords_of_gap (hv : Unbroken v) (hw : Unbroken w)
    (blank : ∀ c ∈ gap, Text.isBlank c = true) : joinWords (v ++ (gap ++ w)) = v ++ w := by
  have front : w.head?.any Text.isBlank = false := by
    cases w with
    | nil => rfl
    | cons c w => exact (hw.isClean c List.mem_cons_self).1
  have word : afterWord? w = none := by
    cases hr : afterWord? w with
    | none => rfl
    | some r =>
      obtain ⟨b, rest, hb, rfl⟩ := exists_of_afterWord? hr
      have clean := (hw.isClean b (by simp)).1
      rw [hb] at clean
      cases clean
  rw [Infix.joinWords_word fun c hc => (hv.isClean c hc).1, Infix.joinWords_gap blank front word,
    joinWords_of_no_blank fun c hc => (hw.isClean c hc).1]

/-- Operands with only blanks between them are rejected unless their texts fuse. -/
theorem Stages.fuses_across (s : Stages v e) (s' : Stages w f) (both : Stages (v ++ (gap ++ w)) g)
    (hv : Unbroken v) (hw : Unbroken w) (blank : ∀ c ∈ gap, Text.isBlank c = true) :
    LeafText [] v e ∧ LeafText [] w f ∧ Fuses v w g := by
  obtain ⟨table, call⟩ := s.of_unbroken hv
  obtain ⟨table', call'⟩ := s'.of_unbroken hw
  have flat {t : List Char} (h : Unbroken t) : '(' ∉ t := fun hmem => (h.noParens _ hmem).1 rfl
  have left := s.leafText (by rw [call]; exact flat hv)
  have right := s'.leafText (by rw [call']; exact flat hw)
  rw [call, table] at left
  rw [call', table'] at right
  obtain ⟨c, cs, hcons, _, lone⟩ := right.exists_cons
  have unquoted : ∀ c ∈ v ++ (gap ++ w), isQuote c = false := by
    simp only [List.forall_mem_append]
    exact ⟨fun c hc => (hv.isClean c hc).2, fun c hc => Infix.isQuote_of_isBlank (blank c hc),
      fun c hc => (hw.isClean c hc).2⟩
  have unsigned := List.not_mem_append hv.minus_not_mem hw.minus_not_mem
  have front : w.head?.any isLone = false := by rwa [hcons]
  have free := operators_append_eq_nil (operators_eq_nil hv.noOperator)
    (operators_eq_nil hw.noOperator) front
  obtain ⟨table'', call''⟩ := both.of_plain unquoted (joinWords_of_gap hv hw blank) unsigned
    (List.forall_mem_append.mpr ⟨hv.noParens, hw.noParens⟩) free
  have read := both.read
  rw [call'', table''] at read
  have whole := leafText_of_readCall (List.not_mem_append (flat hv) (flat hw)) read
  exact ⟨left, right, whole.fuses left.ne_nil right.ne_nil (.inl ⟨e, left⟩)⟩

end Gaps

end Filter

namespace Expression

open DocumentPath.Filter

/-- With another operand or a word next to it an accepted text is rejected, unless the two texts run
together into the text of one operand, and then they become this operand. The text of an operand is
its call form, without blanks and without parentheses around it. Anywhere in an accepted text,
operands with nothing but parentheses between them are within one leaf, and no word stands in front
of a call. Left open are places of literals that run into other text, and words that make another
name of the name of an operator. -/
theorem parse_adjacent {t : String} {e : Expression} (s : Stages t.toList e) :
    (∀ (u : String) f g (s' : Stages u.toList f), parse ("(" ++ t ++ ")(" ++ u ++ ")") = .ok g →
      ¬Blurs (s.table ++ s'.table) s.call s'.call →
      LeafText [] s.call e ∧ LeafText [] s'.call f ∧ Fuses s.call s'.call g) ∧
    (∀ w : String, w ≠ "" → (∀ c ∈ w.toList, Infix.isWordChar c = true) →
      (∀ g, parse ("(" ++ t ++ ")" ++ w) = .ok g → ¬Blurs s.table s.call w.toList →
        LeafText [] s.call e ∧ Fuses s.call w.toList g) ∧
      ∀ g, parse (w ++ "(" ++ t ++ ")") = .ok g → ¬Blurs s.table w.toList s.call →
        ¬Renames w.toList e → LeafText [] s.call e ∧ Fuses w.toList s.call g) ∧
    (∀ gap u f g, Unbroken t.toList → Unbroken u.toList →
      (∀ c ∈ gap.toList, Text.isBlank c = true) → parse u = .ok f →
      parse (t ++ gap ++ u) = .ok g →
      LeafText [] t.toList e ∧ LeafText [] u.toList f ∧ Fuses t.toList u.toList g) ∧
    (∀ a m m' b l l', s.normal = a ++ (m ++ m' ++ b) → Nested m → Nested m' →
      (∀ c ∈ bare m, Infix.isWordChar c = true) → (∀ c ∈ bare m', Infix.isWordChar c = true) →
      LeafText s.table (bare m) l → LeafText s.table (bare m') l' →
      ∃ y k, bare m ++ bare m' <:+: y ∧ LeafAt s.table s.call e y k ∧
        (y.head? ≠ some '#' → IsSpan y)) ∧
    ∀ a w g b v d, Nested g → (∀ c ∈ w, Infix.isWordChar c = true) →
      rewrite g = .ok (v ++ '(' :: d) → (∀ c ∈ v, Infix.isWordChar c = true) →
      (∀ op : Operator, ¬w ++ v <:+ op.name.toList) →
      s.normal ≠ a ++ (w ++ '(' :: (g ++ [')']) ++ b) := by
  refine ⟨?_, ?_, ?_, ?_, ?_⟩
  · intro u f g s' hg
    obtain ⟨both⟩ := parse_eq_ok_iff.mp hg
    exact s.fuses_beside s' (by simpa using both)
  · intro w hne hw
    have hne : w.toList ≠ [] := fun none => hne (String.toList_eq_nil_iff.mp none)
    refine ⟨fun g hg => ?_, fun g hg clear named => ?_⟩
    · obtain ⟨both⟩ := parse_eq_ok_iff.mp hg
      exact s.fuses_behind (by simpa using both) hne hw
    · obtain ⟨both⟩ := parse_eq_ok_iff.mp hg
      exact s.fuses_front (by simpa using both) hne hw clear named
  · intro gap u f g ht hu blank hf hg
    obtain ⟨s'⟩ := parse_eq_ok_iff.mp hf
    obtain ⟨both⟩ := parse_eq_ok_iff.mp hg
    exact s.fuses_across s' (by simpa using both) ht hu blank
  · intro a m m' b l l' hs nested nested' hm hm' left right
    exact s.exists_leaf_of_operands hs nested nested' hm hm' left right
  · intro a w g b v d nested hw hv word none hs
    obtain ⟨op, name⟩ := s.exists_name_of_group hs nested hw hv rfl word
    exact none op name

theorem parse_adjacent_reference :
    (parse "(@.a)(1)" = .ok (.element "a1") ∧ Fuses ['@', '.', 'a'] ['1'] (.element "a1")) ∧
    (parse "(@.a).b" = .ok (.element "a.b") ∧
      Fuses ['@', '.', 'a'] ['.', 'b'] (.element "a.b")) ∧
    (parse "$.b(@.a)" = .ok (.context "b@.a") ∧
      Fuses ['$', '.', 'b'] ['@', '.', 'a'] (.context "b@.a")) ∧
    (parse "@.a 1" = .ok (.element "a1") ∧ Fuses ['@', '.', 'a'] ['1'] (.element "a1")) ∧
    (∃ y k, "@.a1".toList <:+: y ∧ LeafAt [] "@.a1".toList (.element "a1") y k ∧
      (y.head? ≠ some '#' → IsSpan y)) ∧
    "@.a".toList ≠ "x(@.a==1)".toList := by
  let s : Stages "@.a".toList (element "a") :=
    ⟨⟨"@.a".toList, []⟩, "@.a".toList, [], "@.a".toList, by with_unfolding_all rfl,
      by with_unfolding_all rfl, by with_unfolding_all rfl, by with_unfolding_all rfl⟩
  let one : Stages "1".toList (literal (.integer 1)) :=
    ⟨⟨"1".toList, []⟩, "1".toList, [], "1".toList, by with_unfolding_all rfl,
      by with_unfolding_all rfl, by with_unfolding_all rfl, by with_unfolding_all rfl⟩
  let both : Stages "(@.a)(1)".toList (element "a1") :=
    ⟨⟨"(@.a)(1)".toList, []⟩, "(@.a)(1)".toList, [], "@.a1".toList, by with_unfolding_all rfl,
      by with_unfolding_all rfl, by with_unfolding_all rfl, by with_unfolding_all rfl⟩
  have clear (x y : List Char) : ¬Blurs [] x y := fun blurs => blurs.1 rfl
  have groups : parse "(@.a)(1)" = .ok (.element "a1") := by with_unfolding_all rfl
  have front : parse "$.b(@.a)" = .ok (.context "b@.a") := by with_unfolding_all rfl
  have behind : parse "(@.a).b" = .ok (.element "a.b") := by with_unfolding_all rfl
  have gap : parse "@.a 1" = .ok (.element "a1") := by with_unfolding_all rfl
  have number : parse "1" = .ok (.literal (.integer 1)) := by with_unfolding_all rfl
  have root : Unbroken "@.a".toList := by
    refine ⟨by decide, ?_, List.all_iff_forall_prop.mp rfl⟩
    exact List.forall_mem_cons.mpr ⟨⟨rfl, rfl⟩, List.forall_mem_cons.mpr ⟨⟨rfl, rfl⟩,
      List.forall_mem_singleton.mpr ⟨rfl, rfl⟩⟩⟩
  have digit : Unbroken "1".toList :=
    ⟨by decide, List.forall_mem_singleton.mpr ⟨rfl, rfl⟩, List.all_iff_forall_prop.mp rfl⟩
  obtain ⟨beside, words, gaps, _, names⟩ := parse_adjacent s
  refine ⟨⟨groups, (beside "1" _ _ one groups (clear _ _)).2.2⟩, ⟨behind, ?_⟩, ⟨front, ?_⟩,
    ⟨gap, ?_⟩, ?_, ?_⟩
  · exact ((words ".b" (by decide) (List.all_eq_true.mp rfl)).1 _ behind (clear _ _)).2
  · refine ((words "$.b" (by decide) (List.all_eq_true.mp rfl)).2 _ front (clear _ _) ?_).2
    rintro ⟨op, op', es, call, _⟩
    cases call
  · exact (gaps " " "1" _ _ root digit (List.all_eq_true.mp rfl) number gap).2.2
  · have first : Nested "(@.a)".toList :=
      (nested_of_no_parens (List.all_iff_forall_prop.mp rfl) : Nested ['@', '.', 'a']).parens
    have second : Nested "(1)".toList :=
      (nested_of_no_parens (List.all_iff_forall_prop.mp rfl) : Nested ['1']).parens
    exact (parse_adjacent both).2.2.2.1 [] "(@.a)".toList "(1)".toList [] (element "a")
      (literal (.integer 1)) rfl first second (List.all_eq_true.mp rfl)
      (List.all_eq_true.mp rfl) (.path (.inl rfl)) (.number (by rfl) (by with_unfolding_all rfl))
  · have inside : Nested "@.a==1".toList := nested_of_no_parens (List.all_iff_forall_prop.mp rfl)
    exact names [] ['x'] "@.a==1".toList [] ['e', 'q'] "@.a,1)".toList inside
      (List.all_eq_true.mp rfl) (by with_unfolding_all rfl) (List.all_eq_true.mp rfl)
      (fun op => by cases op <;> decide)

/-- Texts that stand apart only by their parentheses or a blank run together: two numbers, a number
and a word, a word and the name of an operator, and the place of a string with a path in front of it
or zeros behind it. -/
theorem parse_adjacent_accepted :
    parse "1" = .ok (.literal (.integer 1)) ∧ parse "2" = .ok (.literal (.integer 2)) ∧
      parse "(1)(2)" = .ok (.literal (.integer 12)) ∧
      parse "(1)2" = .ok (.literal (.integer 12)) ∧
      parse "1 2" = .ok (.literal (.integer 12)) ∧
      parse "@.a==1" = .ok (.call .looseEq [.element "a", .literal (.integer 1)]) ∧
      parse "e(@.a==1)" = .ok (.call .strictEq [.element "a", .literal (.integer 1)]) ∧
      parse "(@.a)(\"b\")" = .ok (.element "a#0") ∧
      parse "(\"a\")(0)" = .ok (.literal (.string "a")) := by
  refine ⟨?_, ?_, ?_, ?_, ?_, ?_, ?_, ?_, ?_⟩ <;> with_unfolding_all rfl

end Expression

end DocumentPath
