import DocumentPath.Proofs.Groups.Stages

namespace DocumentPath.Filter

/-- The parenthesis that closes a group is the only one that leaves the text before it nested. -/
theorem Nested.eq_of_closing {g g' a b : List Char} (h : Nested g) (h' : Nested g')
    (he : g ++ ')' :: a = g' ++ ')' :: b) : g = g' ∧ a = b := by
  have shorter {u v x y : List Char} (hu : Nested u) (hv : Nested v)
      (he : u ++ ')' :: x = v ++ ')' :: y) (m : List Char) (hm : v = u ++ m) : m = [] := by
    cases m with
    | nil => rfl
    | cons c m =>
      rw [hm, List.append_assoc, List.append_cancel_left_eq] at he
      obtain ⟨rfl, _⟩ := List.cons.inj he
      have prefix_depth := hv.opened (u ++ [')']) m (by rw [hm]; simp)
      have closing : depth [')'] = -1 := rfl
      rw [depth_append, hu.closed, closing] at prefix_depth
      omega
  rcases List.append_eq_append_iff.mp he with ⟨m, hm, _⟩ | ⟨m, hm, _⟩
  · rw [shorter h h' he m hm, List.append_nil] at hm
    subst hm
    exact ⟨rfl, (List.cons.inj (List.append_cancel_left he)).2⟩
  · rw [shorter h' h he.symm m hm, List.append_nil] at hm
    subst hm
    exact ⟨rfl, (List.cons.inj (List.append_cancel_left he)).2⟩

namespace Resolves

/-- A group at the front is put into call form by itself. -/
theorem of_group {g cs flat : List Char} (nested : Nested g)
    (h : Resolves ('(' :: (g ++ ')' :: cs)) flat) :
    ∃ w rest, flat = w ++ rest ∧ Filter.rewrite g = .ok w ∧ Resolves cs rest := by
  generalize hds : g ++ ')' :: cs = ds at h
  cases h with
  | char other _ _ => exact absurd rfl other
  | @group g' inner w cs' rest inside hw behind =>
    obtain ⟨rfl, rfl⟩ := nested.eq_of_closing inside.nested hds
    exact ⟨w, rest, rfl, inside.rewrite.trans hw, behind⟩

end Resolves

/-- A text with the sign of no operator anywhere has no operators. -/
theorem operators_eq_nil {cs : List Char} (h : ∀ op ∈ searchOrder, ¬token op <:+: cs) :
    operators cs = [] := by
  refine List.eq_nil_iff_forall_not_mem.mpr fun op hop => ?_
  obtain ⟨before, behind, hs⟩ := List.append_of_mem (mem_scan_of_mem_operators hop)
  refine h op (mem_searchOrder_of_mem_operators hop) ⟨render before, render behind, ?_⟩
  rw [← render_scan cs, hs]
  simp [render, Lexeme.text]

theorem operators_within {cs ds : List Char} (h : operators ds = []) (hi : cs <:+: ds) :
    operators cs = [] :=
  operators_eq_nil fun _ hop here => not_token_infix h hop (here.trans hi)

theorem rewriteFlat_of_no_operators {cs : List Char} (h : operators cs = []) :
    rewriteFlat cs = .ok cs := by
  have absent (op : Operator) : .operator op ∉ scan cs := fun hmem => by
    have : op ∈ operators cs := List.mem_filterMap.mpr ⟨_, hmem, rfl⟩
    rw [h] at this
    cases this
  have joins (ts : List Tier) :
      ts.foldlM (fun text tier => exhaust tier.joinOnce text) cs = .ok cs := by
    induction ts with
    | nil => rfl
    | cons tier ts ih =>
      rw [List.foldlM_cons, Infix.exhaust_of_none (Infix.joinOnce_of_not_mem fun op _ => absent op)]
      exact ih
  rw [rewriteFlat, Infix.exhaust_of_none (Infix.negateOnce_of_not_mem (absent .not))]
  exact joins tiers

theorem bare_infix_group (g cs : List Char) :
    bare g <:+: bare ('(' :: (g ++ ')' :: cs)) ∧ bare cs <:+: bare ('(' :: (g ++ ')' :: cs)) := by
  rw [bare_group]
  exact ⟨⟨[], bare cs, rfl⟩, ⟨bare g, [], by simp⟩⟩

/-- Where a text without its parentheses has no operators, its groups just lose them. -/
theorem Resolves.eq_bare_of_no_operators {cs flat : List Char} (h : Resolves cs flat)
    (free : operators (bare cs) = []) : flat = bare cs := by
  induction h with
  | nil => rfl
  | char h1 h2 _ ih =>
    rw [bare_cons h1 h2] at free ⊢
    rw [ih (operators_within free (List.suffix_cons _ _).isInfix)]
  | @group g inner w cs flat _ hw _ inside behind =>
    obtain ⟨here, there⟩ := bare_infix_group g cs
    have flatten := inside (operators_within free here)
    rw [flatten, rewriteFlat_of_no_operators (operators_within free here)] at hw
    cases hw
    rw [behind (operators_within free there), bare_group]

theorem rewrite_eq_bare {cs flat : List Char} (h : Resolves cs flat)
    (free : operators (bare cs) = []) : rewrite cs = .ok (bare cs) := by
  rw [h.rewrite, h.eq_bare_of_no_operators free, rewriteFlat_of_no_operators free]

/-- The signs that operators are made of and that are none by themselves. -/
def isLone (c : Char) : Bool := c ∈ ['=', '&', '|']

theorem not_isLone_of_isOperandChar {c : Char} (h : isOperandChar c = true) : isLone c = false := by
  cases hc : isLone c with
  | false => rfl
  | true =>
    simp only [isLone, List.mem_cons, List.not_mem_nil, or_false, decide_eq_true_eq] at hc
    rcases hc with rfl | rfl | rfl <;> exact absurd h (by decide)

/-- In a text without operators, the sign of one that is in front is a lone one. -/
theorem isLone_of_isOperatorChar {c : Char} {cs : List Char} (free : operators (c :: cs) = [])
    (h : isOperatorChar c = true) : isLone c = true := by
  have single (op : Operator) (hop : op ∈ searchOrder) : token op ≠ [c] := fun ht =>
    not_token_infix free hop (ht ▸ ⟨[], cs, rfl⟩)
  simp only [isOperatorChar, List.mem_cons, List.not_mem_nil, or_false, decide_eq_true_eq] at h
  rcases h with rfl | rfl | rfl | rfl | rfl | rfl | rfl | rfl | rfl | rfl | rfl | rfl
  · exact absurd rfl (single .not (by decide))
  · rfl
  · exact absurd rfl (single .lt (by decide))
  · exact absurd rfl (single .gt (by decide))
  · rfl
  · rfl
  · exact absurd rfl (single .add (by decide))
  · exact absurd rfl (single .sub (by decide))
  · exact absurd rfl (single .mul (by decide))
  · exact absurd rfl (single .div (by decide))
  · exact absurd rfl (single .mod (by decide))
  · exact absurd rfl (single .within (by decide))

/-- Two texts begin alike: both are empty or none is, and both begin with a lone sign or none. -/
structure SameFront (cs ds : List Char) : Prop where
  empty : cs = [] ↔ ds = []
  lone : cs.head?.any isLone = ds.head?.any isLone

theorem SameFront.refl (cs : List Char) : SameFront cs cs := ⟨Iff.rfl, rfl⟩

theorem SameFront.trans {cs ds es : List Char} (h : SameFront cs ds) (h' : SameFront ds es) :
    SameFront cs es :=
  ⟨h.empty.trans h'.empty, h.lone.trans h'.lone⟩

theorem SameFront.append {cs ds cs' ds' : List Char} (h : SameFront cs ds)
    (h' : SameFront cs' ds') : SameFront (cs ++ cs') (ds ++ ds') := by
  cases cs with
  | nil =>
    rw [h.empty.mp rfl]
    exact h'
  | cons c cs =>
    cases ds with
    | nil => cases h.empty.mpr rfl
    | cons d ds => exact ⟨by simp, h.lone⟩

theorem sameFront_of_operand {v w cs ds : List Char} (hv : Infix.IsOperand v)
    (hw : Infix.IsOperand w) : SameFront (v ++ cs) (w ++ ds) := by
  have front {u : List Char} (h : Infix.IsOperand u) (ds : List Char) :
      u ++ ds ≠ [] ∧ (u ++ ds).head?.any isLone = false := by
    cases u with
    | nil => exact absurd rfl h.1
    | cons c u => exact ⟨List.cons_ne_nil _ _, not_isLone_of_isOperandChar (h.2 c (by simp))⟩
  obtain ⟨hv, lone⟩ := front hv cs
  obtain ⟨hw, lone'⟩ := front hw ds
  exact ⟨by simp only [hv, hw], lone.trans lone'.symm⟩

theorem isOperand_callText {op : Operator} {inner : List Char}
    (h : ∀ c ∈ inner, isOperandChar c = true) : Infix.IsOperand (callText op inner) :=
  ⟨callText_ne_nil op inner, Infix.isOperandChar_of_mem_callText h⟩

/-- No round changes how a text begins. -/
theorem Round.sameFront {cs ds : List Char} (h : Round cs ds) : SameFront cs ds := by
  cases h with
  | @negate a w b operand _ =>
    have call : Infix.IsOperand (callText .not w) := isOperand_callText operand.2
    refine (SameFront.refl a).append ⟨?_, ?_⟩
    · simp [token, callText]
    · cases hc : callText .not w with
      | nil => exact absurd hc call.1
      | cons c rest =>
        have := not_isLone_of_isOperandChar (call.2 c (by simp [hc]))
        exact this.symm
  | @join a v w b op _ _ left right _ =>
    have operand : ∀ c ∈ v ++ ',' :: w, isOperandChar c = true :=
      List.forall_mem_append.mpr ⟨left.2, List.forall_mem_cons.mpr ⟨rfl, right.2⟩⟩
    exact (SameFront.refl a).append (sameFront_of_operand left (isOperand_callText operand))

theorem Rounds.sameFront {cs w : List Char} (h : Rounds cs w) : SameFront cs w :=
  h.invariant (P := SameFront cs) (fun _ _ round same => same.trans round.sameFront) (.refl cs)

theorem Resolves.sameFront {cs flat : List Char} (h : Resolves cs flat) :
    SameFront (bare cs) flat := by
  induction h with
  | nil => exact .refl []
  | char h1 h2 _ ih =>
    rw [bare_cons h1 h2]
    exact (SameFront.refl [_]).append ih
  | group _ hw _ inside behind =>
    rw [bare_group]
    exact (inside.trans (rounds_of_rewriteFlat hw).sameFront).append behind

/-- A text in call form begins as it did without its parentheses. -/
theorem sameFront_of_rewrite {cs w : List Char} (h : rewrite cs = .ok w) :
    SameFront (bare cs) w := by
  obtain ⟨flat, resolved, done⟩ := exists_resolves_of_rewrite h
  exact resolved.sameFront.trans (rounds_of_rewriteFlat done).sameFront

/-- Texts without operators have none together, unless the second begins with a lone sign. -/
theorem operators_append_eq_nil {v w : List Char} (hv : operators v = []) (hw : operators w = [])
    (front : w.head?.any isLone = false) : operators (v ++ w) = [] := by
  cases w with
  | nil => rwa [List.append_nil]
  | cons c w =>
    have other : isOperatorChar c = false := by
      cases hc : isOperatorChar c with
      | false => rfl
      | true =>
        have : isLone c = true := isLone_of_isOperatorChar hw hc
        rw [List.head?_cons, Option.any_some, this] at front
        cases front
    rw [operators_append (breaks_of_not_isOperatorChar other), hv, hw]
    rfl

end DocumentPath.Filter
