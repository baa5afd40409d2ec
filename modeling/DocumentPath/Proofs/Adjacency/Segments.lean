import DocumentPath.Proofs.Adjacency.Groups

namespace DocumentPath.Filter

section Infixes

variable {x y z : List Char} {c : Char}

theorem not_mem_of_outside {p : Char → Bool} (hz : ∀ c ∈ z, p c = true) (outside : p c = false) :
    c ∉ z := by
  intro hmem
  rw [hz c hmem] at outside
  cases outside

/-- A part of a text that does not have some character lies on one side of it. -/
theorem infix_of_cut (hc : c ∉ z) (h : z <:+: x ++ c :: y) : z <:+: x ∨ z <:+: y := by
  obtain ⟨u, v, he⟩ := h
  rw [List.append_assoc] at he
  rcases List.append_eq_append_iff.mp he with ⟨m, hx, hm⟩ | ⟨m, _, hm⟩
  · obtain ⟨rest, rfl, _⟩ := exists_of_append_eq_cut hc hm
    exact .inl ⟨u, rest, by rw [hx, List.append_assoc]⟩
  · cases m with
    | nil =>
      cases z with
      | nil => exact .inl (List.nil_infix)
      | cons d z =>
        obtain ⟨rfl, _⟩ := List.cons.inj hm
        exact absurd List.mem_cons_self hc
    | cons d m =>
      obtain ⟨_, rfl⟩ := List.cons.inj hm
      exact .inr ⟨m, v, List.append_assoc ..⟩

theorem exists_of_cut {u : List Char} (hc : c ∉ z) (h : u ++ z = x ++ c :: y) :
    ∃ k, y = k ++ z := by
  rcases List.append_eq_append_iff.mp h with ⟨m, _, rfl⟩ | ⟨m, _, hm⟩
  · exact absurd (List.mem_append_right m List.mem_cons_self) hc
  · cases m with
    | nil =>
      have same : c :: y = z := hm
      exact absurd (same ▸ List.mem_cons_self) hc
    | cons d m => exact ⟨m, (List.cons.inj hm).2⟩

theorem infix_of_cuts {t : List Char} (hne : t ≠ []) (ht : ∀ c ∈ t, c ∉ z)
    (h : z <:+: x ++ (t ++ y)) : z <:+: x ∨ z <:+: y := by
  induction t generalizing x with
  | nil => exact absurd rfl hne
  | cons c t ih =>
    obtain ⟨here, rest⟩ := List.forall_mem_cons.mp ht
    rcases infix_of_cut here h with left | right
    · exact .inl left
    · by_cases more : t = []
      · rw [more] at right
        exact .inr right
      · rcases ih more rest (x := []) right with none | right
        · exact .inl (List.infix_nil.mp none ▸ List.nil_infix)
        · exact .inr right

theorem infix_of_ends {a : List Char} (ends : Infix.EndsOperand a)
    (hz : ∀ c ∈ z, isOperandChar c = true) (h : z <:+: a ++ x) : z <:+: a ∨ z <:+: x := by
  rcases List.eq_nil_or_concat' a with rfl | ⟨b, c, rfl⟩
  · exact .inr h
  · rw [Infix.EndsOperand, List.getLast?_concat] at ends
    rw [List.append_assoc, List.singleton_append] at h
    exact (infix_of_cut (not_mem_of_outside hz ends) h).imp
      (fun h => h.trans (List.prefix_append _ _).isInfix) id

theorem infix_of_starts {b : List Char} (starts : Infix.StartsBehind b)
    (hz : ∀ c ∈ z, isOperandChar c = true) (h : z <:+: x ++ b) : z <:+: x ∨ z <:+: b := by
  cases b with
  | nil =>
    rw [List.append_nil] at h
    exact .inl h
  | cons c b =>
    exact (infix_of_cut (not_mem_of_outside hz starts) h).imp id
      fun h => h.trans (List.suffix_cons c b).isInfix

end Infixes

section Rounds

variable {z : List Char}

theorem token_not_mem {op : Operator} (hz : ∀ c ∈ z, isOperandChar c = true) :
    ∀ c ∈ token op, c ∉ z := fun c hc =>
  not_mem_of_outside hz (not_isOperandChar_of_mem_token c hc)

/-- Text of operands stays together in every round. -/
theorem Round.isInfix {cs ds : List Char} (h : Round cs ds) (hz : ∀ c ∈ z, isOperandChar c = true)
    (hi : z <:+: cs) : z <:+: ds := by
  cases h with
  | @negate a w b _ starts =>
    rcases infix_of_cuts (token_ne_nil .not) (token_not_mem hz) hi with here | behind
    · exact here.trans ⟨[], _, rfl⟩
    rcases infix_of_starts starts hz behind with here | behind
    · refine here.trans ⟨a ++ (Operator.name .not).toList ++ ['('], [')'] ++ b, ?_⟩
      simp [callText]
    · exact behind.trans ⟨a ++ callText .not w, [], by simp⟩
  | @join a v w b op _ ends _ _ starts =>
    rcases infix_of_ends ends hz hi with here | behind
    · exact here.trans ⟨[], _, rfl⟩
    rcases infix_of_cuts (token_ne_nil op) (token_not_mem hz) behind with here | behind
    · refine here.trans ⟨a ++ op.name.toList ++ ['('], ',' :: w ++ [')'] ++ b, ?_⟩
      simp [callText]
    rcases infix_of_starts starts hz behind with here | behind
    · refine here.trans ⟨a ++ op.name.toList ++ '(' :: v ++ [','], [')'] ++ b, ?_⟩
      simp [callText]
    · exact behind.trans ⟨a ++ callText op (v ++ ',' :: w), [], by simp⟩

theorem Rounds.isInfix {cs w : List Char} (h : Rounds cs w) (hz : ∀ c ∈ z, isOperandChar c = true)
    (hi : z <:+: cs) : z <:+: w :=
  h.invariant (P := fun ds => z <:+: ds) (fun _ _ round hi => round.isInfix hz hi) hi

end Rounds

section Segments

theorem Nested.behind {u v : List Char} (h : Nested (u ++ v)) (hu : Nested u) : Nested v := by
  have closed := h.closed
  rw [depth_append, hu.closed] at closed
  refine ⟨by omega, ?_⟩
  rintro p q rfl
  have := h.opened (u ++ p) q (by simp)
  rw [depth_append, hu.closed] at this
  omega

/-- A group that begins in a nested text ends in it. -/
theorem Nested.exists_group {g m b cs : List Char} (h : Nested ('(' :: m)) (hg : Nested g)
    (he : m ++ b = g ++ ')' :: cs) : ∃ k, m = g ++ ')' :: k ∧ cs = k ++ b := by
  have closed := h.closed
  rw [depth_opening] at closed
  rcases List.append_eq_append_iff.mp he with ⟨k, hk, _⟩ | ⟨k, hk, hb⟩
  · have := hg.opened m k hk
    omega
  · cases k with
    | nil =>
      rw [hk, List.append_nil, hg.closed] at closed
      omega
    | cons c k =>
      obtain ⟨rfl, rfl⟩ := List.cons.inj hb
      exact ⟨k, hk, rfl⟩

/-- A nested text lies wholly inside a group or wholly outside. -/
theorem Nested.inside_or_behind {g a m b cs : List Char} (h : Nested m) (hne : m ≠ [])
    (hg : Nested g) (he : g ++ ')' :: cs = a ++ (m ++ b)) :
    (∃ d, g = a ++ (m ++ d)) ∨ ∃ d, cs = d ++ (m ++ b) := by
  rcases List.append_eq_append_iff.mp he with ⟨k, rfl, hk⟩ | ⟨k, rfl, hk⟩
  · right
    cases k with
    | nil =>
      cases m with
      | nil => exact absurd rfl hne
      | cons c m =>
        obtain ⟨rfl, _⟩ := List.cons.inj hk
        have := h.opened [')'] m rfl
        exact absurd this (by decide)
    | cons c k =>
      obtain ⟨_, rfl⟩ := List.cons.inj hk
      exact ⟨k, rfl⟩
  · rcases List.append_eq_append_iff.mp hk with ⟨d, rfl, _⟩ | ⟨d, rfl, hd⟩
    · exact .inl ⟨d, rfl⟩
    · cases d with
      | nil => exact .inl ⟨[], by simp⟩
      | cons c d =>
        -- the text would close the group around it
        obtain ⟨rfl, _⟩ := List.cons.inj hd
        have closing : depth [')'] = -1 := rfl
        have here := h.opened (k ++ [')']) d (by simp)
        have front := hg.opened a k rfl
        have closed := hg.closed
        rw [depth_append] at here closed
        omega

/-- A part of a text whose parentheses are nested resolves by itself. -/
theorem Resolves.split {m b flat : List Char} (nested : Nested m) (h : Resolves (m ++ b) flat) :
    ∃ x y, flat = x ++ y ∧ Resolves m x ∧ Resolves b y := by
  induction hl : m.length using Nat.strong_induction_on generalizing m flat with
  | _ size ih =>
    cases m with
    | nil => exact ⟨[], flat, rfl, .nil, h⟩
    | cons c m =>
      rw [List.cons_append] at h
      generalize hds : m ++ b = ds at h
      cases h with
      | @char _ _ flat h1 h2 behind =>
        have first : Nested [c] :=
          nested_of_no_parens (List.forall_mem_singleton.mpr ⟨h1, h2⟩)
        have rest : Nested m := Nested.behind (u := [c]) nested first
        obtain ⟨x, y, rfl, hx, hy⟩ := ih m.length (by simp [← hl]) rest (hds ▸ behind) rfl
        exact ⟨c :: x, y, rfl, .char h1 h2 hx, hy⟩
      | @group g inner w cs flat inside hw behind =>
        obtain ⟨k, rfl, rfl⟩ := nested.exists_group inside.nested hds
        have group : Nested ('(' :: (g ++ [')'])) := inside.nested.parens
        have rest : Nested k :=
          Nested.behind (u := '(' :: (g ++ [')'])) (by simpa using nested) group
        have shorter : k.length < size := by
          simp only [← hl, List.length_cons, List.length_append]
          omega
        obtain ⟨x, y, rfl, hx, hy⟩ := ih k.length shorter rest behind rfl
        exact ⟨w ++ x, y, by simp, .group inside hw hx, hy⟩

theorem Resolves.front {m b flat : List Char} (nested : Nested m) (h : Resolves (m ++ b) flat) :
    ∃ x, Resolves m x ∧ x <+: flat := by
  obtain ⟨x, y, rfl, hx, _⟩ := h.split nested
  exact ⟨x, hx, List.prefix_append x y⟩

/-- Wherever it stands, the text of operands that a nested part of a text resolves to is kept. -/
theorem Resolves.segment {cs flat a m b : List Char} (h : Resolves cs flat)
    (hcs : cs = a ++ (m ++ b)) (nested : Nested m) (hne : m ≠ []) :
    ∃ x, Resolves m x ∧ ∀ z, (∀ c ∈ z, isOperandChar c = true) → z <:+: x → z <:+: flat := by
  induction h generalizing a b with
  | nil =>
    have empty := (List.append_eq_nil_iff.mp (List.append_eq_nil_iff.mp hcs.symm).2).1
    exact absurd empty hne
  | @char c cs flat h1 h2 behind ih =>
    cases a with
    | nil =>
      have whole : Resolves (m ++ b) (c :: flat) := hcs ▸ .char h1 h2 behind
      obtain ⟨x, hx, first⟩ := whole.front nested
      exact ⟨x, hx, fun z _ hz => hz.trans first.isInfix⟩
    | cons d a =>
      obtain ⟨x, hx, kept⟩ := ih (List.cons.inj hcs).2
      exact ⟨x, hx, fun z operand hz => (kept z operand hz).trans (List.suffix_cons c flat).isInfix⟩
  | @group g inner w cs flat inside hw behind ih ih' =>
    cases a with
    | nil =>
      have whole : Resolves (m ++ b) (w ++ flat) := hcs ▸ .group inside hw behind
      obtain ⟨x, hx, first⟩ := whole.front nested
      exact ⟨x, hx, fun z _ hz => hz.trans first.isInfix⟩
    | cons d a =>
      rcases nested.inside_or_behind hne inside.nested (List.cons.inj hcs).2 with ⟨k, hk⟩ | ⟨k, hk⟩
      · obtain ⟨x, hx, kept⟩ := ih hk
        refine ⟨x, hx, fun z operand hz => ?_⟩
        have inner := (rounds_of_rewriteFlat hw).isInfix operand (kept z operand hz)
        exact inner.trans (List.prefix_append w flat).isInfix
      · obtain ⟨x, hx, kept⟩ := ih' hk
        exact ⟨x, hx, fun z operand hz =>
          (kept z operand hz).trans (List.suffix_append w flat).isInfix⟩

/-- The text of operands that a nested part of a text resolves to is in the call form. -/
theorem exists_segment_of_rewrite {cs w a m b : List Char} (h : rewrite cs = .ok w)
    (hcs : cs = a ++ (m ++ b)) (nested : Nested m) (hne : m ≠ []) :
    ∃ x, Resolves m x ∧ ∀ z, (∀ c ∈ z, isOperandChar c = true) → z <:+: x → z <:+: w := by
  obtain ⟨flat, resolved, done⟩ := exists_resolves_of_rewrite h
  obtain ⟨x, hx, kept⟩ := resolved.segment hcs nested hne
  exact ⟨x, hx, fun z operand hz =>
    (rounds_of_rewriteFlat done).isInfix operand (kept z operand hz)⟩

end Segments

section Reading

variable {table : List Value} {z : List Char}

theorem infix_piece {q : List Char} {qs : List (List Char)} (comma : ',' ∉ z)
    (h : z <:+: q ++ qs.flatMap (',' :: ·)) : ∃ p ∈ q :: qs, z <:+: p := by
  induction qs generalizing q with
  | nil =>
    rw [List.flatMap_nil, List.append_nil] at h
    exact ⟨q, List.mem_cons_self, h⟩
  | cons r rs ih =>
    rw [List.flatMap_cons, List.cons_append] at h
    rcases infix_of_cut comma h with here | behind
    · exact ⟨q, List.mem_cons_self, here⟩
    · obtain ⟨p, hp, hz⟩ := ih behind
      exact ⟨p, List.mem_cons_of_mem q hp, hz⟩

theorem exists_zip_of_forall₂ {α β : Type} {R : α → β → Prop} {as : List α} {bs : List β}
    (h : List.Forall₂ R as bs) {a : α} (ha : a ∈ as) : ∃ b, (a, b) ∈ as.zip bs ∧ R a b := by
  induction h with
  | nil => cases ha
  | cons first _ ih =>
    rcases List.mem_cons.mp ha with rfl | ha
    · exact ⟨_, List.mem_cons_self, first⟩
    · obtain ⟨b, hb, related⟩ := ih ha
      exact ⟨b, List.mem_cons_of_mem _ hb, related⟩

/-- In a text in call form that is read as an expression, `y` is the text of its leaf `k`. -/
inductive LeafAt (table : List Value) : List Char → Expression → List Char → Expression → Prop
  | self {y : List Char} {k : Expression} : LeafText table y k → LeafAt table y k y k
  | operand {op : Operator} {inner text y : List Char} {es : List Expression} {e k : Expression} :
    (text, e) ∈ (splitOperands 0 inner).zip es → LeafAt table text e y k →
    LeafAt table (callText op inner) (.call op es) y k

/-- A part of the operands of a call is a part of one of them. -/
theorem exists_operand_of_infix {R : List Char → Expression → Prop} {inner : List Char}
    {es : List Expression} (operands : List.Forall₂ R (splitOperands 0 inner) es) (comma : ',' ∉ z)
    (hi : z <:+: inner) :
    ∃ p e, z <:+: p ∧ (p, e) ∈ (splitOperands 0 inner).zip es ∧ R p e := by
  obtain ⟨q, qs, parted⟩ := exists_parted 0 inner
  obtain ⟨p, hp, hz⟩ := infix_piece comma (parted.joined ▸ hi)
  rw [← parted.split] at hp
  obtain ⟨e, he, related⟩ := exists_zip_of_forall₂ operands hp
  exact ⟨p, e, hz, he, related⟩

/-- A word in a text in call form is part of a leaf, or of the name of an operator. -/
theorem exists_leaf_of_infix {text : List Char} {e : Expression} (h : readCall table text = .ok e)
    (hd : depth text = 0) (hne : z ≠ []) (hz : ∀ c ∈ z, Infix.isWordChar c = true) :
    z <:+: text →
    (∃ y k, z <:+: y ∧ LeafAt table text e y k) ∨ ∃ op : Operator, z <:+: op.name.toList := by
  refine readCall_induction (motive := fun text e => z <:+: text →
    (∃ y k, z <:+: y ∧ LeafAt table text e y k) ∨ ∃ op : Operator, z <:+: op.name.toList)
    ?_ ?_ ?_ h hd
  · intro text v number read hi
    exact .inl ⟨text, _, hi, .self (.number number read)⟩
  · intro text e _ read hi
    exact .inl ⟨text, e, hi, .self (leafText_of_readLeaf? read)⟩
  · intro op inner es _ operands hi
    rcases infix_of_cut (not_mem_of_outside hz rfl) hi with here | behind
    · exact .inr ⟨op, here⟩
    rcases infix_of_cut (not_mem_of_outside hz rfl) behind with inside | none
    · obtain ⟨p, e, hp, he, parts⟩ :=
        exists_operand_of_infix operands (not_mem_of_outside hz rfl) inside
      refine (parts hp).imp_left ?_
      rintro ⟨y, k, hy, leaf⟩
      exact ⟨y, k, hy, .operand he leaf⟩
    · exact absurd (List.infix_nil.mp none) hne

/-- A word in front of a parenthesis in a text in call form ends the name of an operator. -/
theorem exists_name_of_infix {text : List Char} {e : Expression} (h : readCall table text = .ok e)
    (hd : depth text = 0) (hz : ∀ c ∈ z, Infix.isWordChar c = true) :
    z ++ ['('] <:+: text → ∃ op : Operator, z <:+ op.name.toList := by
  have leafless {text : List Char} (plain : ∀ c ∈ text, c ≠ '(' ∧ c ≠ ')') :
      ¬z ++ ['('] <:+: text := fun hi => (plain '(' (hi.subset (by simp))).1 rfl
  refine readCall_induction (motive := fun text _ => z ++ ['('] <:+: text →
    ∃ op : Operator, z <:+ op.name.toList) ?_ ?_ ?_ h hd
  · intro text v number _ hi
    exact absurd hi (leafless (no_parens_of_isNumber number))
  · intro text e plain _ hi
    exact absurd hi (leafless plain)
  · intro op inner es _ operands hi
    obtain ⟨u, v, hu⟩ := hi
    have cut : op.name.toList ++ '(' :: (inner ++ [')']) = (u ++ z) ++ '(' :: v := by
      rw [callText] at hu
      rw [← hu]
      simp
    obtain ⟨rest, before, behind⟩ := exists_of_append_eq_cut (opening_not_mem_name op) cut
    cases rest with
    | nil =>
      rw [List.append_nil] at before
      exact ⟨op, u, before⟩
    | cons c rest =>
      obtain ⟨rfl, inside⟩ := List.cons.inj behind
      have outside (c : Char) (other : Infix.isWordChar c = false) (opening : c ≠ '(') :
          c ∉ z ++ ['('] := by
        rw [List.mem_append, List.mem_singleton, not_or]
        exact ⟨not_mem_of_outside hz other, opening⟩
      obtain ⟨k, rfl⟩ := exists_of_cut (not_mem_of_outside hz rfl) before
      have whole : z ++ ['('] <:+: inner ++ ')' :: [] := ⟨k, v, by rw [inside]; simp⟩
      rcases infix_of_cut (outside ')' rfl (by decide)) whole with here | none
      · obtain ⟨p, e, hp, _, named⟩ :=
          exists_operand_of_infix operands (outside ',' rfl (by decide)) here
        exact named hp
      · exact absurd (List.infix_nil.mp none) (by simp)

end Reading

section Stages

variable {t : List Char} {e : Expression}

theorem LeafAt.leafText {table : List Value} {text y : List Char} {e k : Expression}
    (h : LeafAt table text e y k) : LeafText table y k := by
  induction h with
  | self leaf => exact leaf
  | operand _ _ ih => exact ih

/-- A number, or a reference with a path. -/
def IsSpan (y : List Char) : Prop :=
  isNumber y = true ∨ ∃ r p, (r = '@' ∨ r = '$') ∧ y = r :: '.' :: p

/-- No other operands but places can hold two operands side by side. -/
theorem LeafText.isSpan_of_infix {table table' : List Value} {x y z : List Char}
    {l l' k : Expression} (h : LeafText table z k) (left : LeafText table' x l)
    (right : LeafText table' y l') (hi : x ++ y <:+: z) (other : z.head? ≠ some '#') :
    IsSpan z := by
  have hx := List.length_pos_iff.mpr left.ne_nil
  have hy := List.length_pos_iff.mpr right.ne_nil
  have shorter := hi.length_le
  rw [List.length_append] at shorter
  cases h with
  | number number _ => exact .inl number
  | keyword hw =>
    have first := left.eq_of_infix_keyword hw ((List.prefix_append x y).isInfix.trans hi)
    rw [first] at shorter
    omega
  | root _ =>
    rw [List.length_singleton] at shorter
    omega
  | path hr => exact .inr ⟨_, _, hr, rfl⟩
  | place _ _ => exact absurd rfl other

/-- Two operands with nothing but parentheses between them are read within one leaf. -/
theorem Stages.exists_leaf_of_operands (s : Stages t e) {a m m' b : List Char} {l l' : Expression}
    (hs : s.normal = a ++ (m ++ m' ++ b)) (nested : Nested m) (nested' : Nested m')
    (hm : ∀ c ∈ bare m, Infix.isWordChar c = true) (hm' : ∀ c ∈ bare m', Infix.isWordChar c = true)
    (left : LeafText s.table (bare m) l) (right : LeafText s.table (bare m') l') :
    ∃ y k, bare m ++ bare m' <:+: y ∧ LeafAt s.table s.call e y k ∧
      (y.head? ≠ some '#' → IsSpan y) := by
  have word : ∀ c ∈ bare (m ++ m'), Infix.isWordChar c = true := by
    rw [bare_append]
    exact List.forall_mem_append.mpr ⟨hm, hm'⟩
  have operand : ∀ c ∈ bare (m ++ m'), isOperandChar c = true := fun c hc =>
    Infix.isOperandChar_of_isWordChar (word c hc)
  have hne : bare m ++ bare m' ≠ [] := List.append_ne_nil_of_left_ne_nil left.ne_nil _
  have whole : m ++ m' ≠ [] := by
    intro none
    rw [← bare_append, none] at hne
    exact hne rfl
  obtain ⟨x, hx, kept⟩ := exists_segment_of_rewrite s.rewritten hs (nested.append nested') whole
  rw [hx.eq_bare_of_no_operators (operators_of_word word)] at kept
  have inside := kept _ operand List.infix_rfl
  rw [bare_append] at inside word
  rcases exists_leaf_of_infix s.read s.nested.2.closed hne word inside with
    ⟨y, k, hy, leaf⟩ | ⟨op, name⟩
  · exact ⟨y, k, hy, leaf, leaf.leafText.isSpan_of_infix left right hy⟩
  · exact absurd ((List.prefix_append _ _).isInfix.trans name) left.not_infix_name

/-- A word in front of a group is part of the name of an operator where the call form of the group
begins with a name. -/
theorem Stages.exists_name_of_group (s : Stages t e) {a w g b c v d : List Char}
    (hs : s.normal = a ++ (w ++ '(' :: (g ++ [')']) ++ b)) (nested : Nested g)
    (hw : ∀ c ∈ w, Infix.isWordChar c = true) (hc : rewrite g = .ok c) (parts : c = v ++ '(' :: d)
    (hv : ∀ c ∈ v, Infix.isWordChar c = true) : ∃ op : Operator, w ++ v <:+ op.name.toList := by
  have group : Nested (w ++ '(' :: (g ++ [')'])) :=
    (nested_of_no_parens (not_paren_of_word hw)).append nested.parens
  obtain ⟨x, hx, kept⟩ := exists_segment_of_rewrite s.rewritten hs group (by simp)
  obtain ⟨rest, rfl, inside⟩ := hx.of_append (not_paren_of_word hw)
  obtain ⟨u, none, rfl, hu, behind⟩ := inside.of_group nested
  cases behind
  obtain rfl := Except.ok.inj (hc.symm.trans hu)
  have word : ∀ c ∈ w ++ v, Infix.isWordChar c = true := List.forall_mem_append.mpr ⟨hw, hv⟩
  have operand : ∀ c ∈ w ++ v ++ ['('], isOperandChar c = true :=
    List.forall_mem_append.mpr ⟨fun c hc => Infix.isOperandChar_of_isWordChar (word c hc),
      List.forall_mem_singleton.mpr rfl⟩
  have here := kept (w ++ v ++ ['(']) operand ⟨[], d, by rw [parts]; simp⟩
  exact exists_name_of_infix s.read s.nested.2.closed word here

end Stages

end DocumentPath.Filter
