import DocumentPath.Proofs.Infix.Parsing
import DocumentPath.Proofs.References.Operands

namespace DocumentPath.Filter

/-- The second text comes out of the first when every group, once it is in call form, stands where
its parentheses stood. -/
inductive Resolves : List Char → List Char → Prop
  | nil : Resolves [] []
  | char {c : Char} {cs flat : List Char} : c ≠ '(' → c ≠ ')' → Resolves cs flat →
    Resolves (c :: cs) (c :: flat)
  | group {g inner w cs flat : List Char} : Resolves g inner → rewriteFlat inner = .ok w →
    Resolves cs flat → Resolves ('(' :: (g ++ ')' :: cs)) (w ++ flat)

namespace Resolves

theorem append {cs ds s t : List Char} (h : Resolves cs s) (h' : Resolves ds t) :
    Resolves (cs ++ ds) (s ++ t) := by
  induction h with
  | nil => exact h'
  | char h1 h2 _ ih => exact .char h1 h2 ih
  | group hg hw _ _ ih =>
    rw [List.cons_append, List.append_assoc, List.append_assoc]
    exact .group hg hw ih

theorem plain {w : List Char} (h : ∀ c ∈ w, c ≠ '(' ∧ c ≠ ')') : Resolves w w := by
  induction w with
  | nil => exact .nil
  | cons c w ih =>
    obtain ⟨first, rest⟩ := List.forall_mem_cons.mp h
    exact .char first.1 first.2 (ih rest)

theorem of_append {w cs flat : List Char} (hw : ∀ c ∈ w, c ≠ '(' ∧ c ≠ ')')
    (h : Resolves (w ++ cs) flat) : ∃ rest, flat = w ++ rest ∧ Resolves cs rest := by
  induction w generalizing flat with
  | nil => exact ⟨flat, rfl, h⟩
  | cons c w ih =>
    obtain ⟨first, others⟩ := List.forall_mem_cons.mp hw
    rw [List.cons_append] at h
    generalize hcs : w ++ cs = ds at h
    cases h with
    | char _ _ h =>
      obtain ⟨rest, rfl, behind⟩ := ih others (hcs ▸ h)
      exact ⟨rest, rfl, behind⟩
    | group _ _ _ => exact absurd rfl first.1

theorem nested {cs flat : List Char} (h : Resolves cs flat) : Nested cs := by
  induction h with
  | nil => exact nested_nil
  | @char c cs _ h1 h2 _ ih =>
    exact (nested_of_no_parens (List.forall_mem_singleton.mpr ⟨h1, h2⟩)).append ih
  | @group g _ _ cs _ _ _ _ inside behind =>
    have parts : '(' :: (g ++ ')' :: cs) = '(' :: (g ++ [')']) ++ cs := by simp
    rw [parts]
    exact inside.parens.append behind

/-- A resolved text goes on behind the text read before it. -/
theorem rewriteGroups {cs flat : List Char} (h : Resolves cs flat)
    (outer : List (Except ExpressionFault (List Char))) (before rest : List Char) :
    rewriteGroups outer (.ok before) (cs ++ rest) =
      rewriteGroups outer (.ok (before ++ flat)) rest := by
  induction h generalizing outer before rest with
  | nil => simp
  | char h1 h2 _ ih =>
    rw [List.cons_append, Infix.rewriteGroups_char h1 h2, ih, List.append_assoc]
    rfl
  | group _ hw _ inside behind =>
    rw [List.cons_append, List.append_assoc, List.cons_append,
      Infix.rewriteGroups_group inside hw, behind, List.append_assoc]

theorem rewrite {cs flat : List Char} (h : Resolves cs flat) :
    rewrite cs = rewriteFlat flat := by
  have whole := h.rewriteGroups [] [] []
  rw [List.append_nil, List.nil_append] at whole
  rw [Filter.rewrite, whole]
  rfl

end Resolves

/-- Where a whole text is put into call form, none of the texts kept on the way has failed. -/
theorem exists_of_rewriteGroups_ok {outer : List (Except ExpressionFault (List Char))}
    {current : Except ExpressionFault (List Char)} {cs w : List Char}
    (h : rewriteGroups outer current cs = .ok w) :
    (∃ t, current = .ok t) ∧ ∀ before ∈ outer, ∃ t, before = .ok t := by
  induction cs generalizing outer current with
  | nil =>
    rw [rewriteGroups] at h
    split at h
    · rename_i none
      rw [List.getLast?_eq_none_iff.mp none]
      obtain ⟨t, ht, _⟩ := exists_of_bind_ok h
      exact ⟨⟨t, ht⟩, List.forall_mem_nil _⟩
    · obtain ⟨_, _, h⟩ := exists_of_bind_ok h
      cases h
  | cons c cs ih =>
    unfold rewriteGroups at h
    split_ifs at h
    · exact List.forall_mem_cons.mp (ih h).2
    · cases outer with
      | nil =>
        obtain ⟨_, _, h⟩ := exists_of_bind_ok h
        cases h
      | cons before outer =>
        obtain ⟨⟨t, ht⟩, rest⟩ := ih h
        obtain ⟨front, hfront, ht⟩ := exists_of_bind_ok ht
        obtain ⟨group, hgroup, _⟩ := exists_of_bind_ok ht
        obtain ⟨flat, hflat, _⟩ := exists_of_bind_ok hgroup
        exact ⟨⟨flat, hflat⟩, List.forall_mem_cons.mpr ⟨⟨front, hfront⟩, rest⟩⟩
    · obtain ⟨⟨t, ht⟩, rest⟩ := ih h
      obtain ⟨flat, hflat, _⟩ := exists_of_map_ok ht
      exact ⟨⟨flat, hflat⟩, rest⟩

/-- What is kept of the text read so far, where some groups are still open. -/
inductive Kept : List Char → List (Except ExpressionFault (List Char)) → List Char → Prop
  | closed {cs flat : List Char} : Resolves cs flat → Kept cs [] flat
  | opened {cs before g flat : List Char} {outer : List (Except ExpressionFault (List Char))} :
    Kept cs outer before → Resolves g flat → Kept (cs ++ '(' :: g) (.ok before :: outer) flat

theorem Kept.append {cs current ds flat : List Char}
    {outer : List (Except ExpressionFault (List Char))}
    (h : Kept cs outer current) (h' : Resolves ds flat) : Kept (cs ++ ds) outer (current ++ flat) := by
  cases h with
  | closed hcs => exact .closed (hcs.append h')
  | opened before hg =>
    rw [List.append_assoc, List.cons_append]
    exact .opened before (hg.append h')

theorem exists_resolves_of_kept {outer : List (Except ExpressionFault (List Char))}
    {read current cs w : List Char} (h : rewriteGroups outer (.ok current) cs = .ok w)
    (hk : Kept read outer current) :
    ∃ flat, Resolves (read ++ cs) flat ∧ rewriteFlat flat = .ok w := by
  induction cs generalizing outer read current with
  | nil =>
    rw [List.append_nil]
    cases hk with
    | closed resolved => exact ⟨current, resolved, h⟩
    | @opened _ before _ _ outer _ _ =>
      rw [rewriteGroups] at h
      split at h
      · rename_i none
        cases List.getLast?_eq_none_iff.mp none
      · obtain ⟨_, _, h⟩ := exists_of_bind_ok h
        cases h
  | cons c cs ih =>
    rw [List.append_cons]
    by_cases opening : c = '('
    · subst opening
      rw [rewriteGroups_cons_opening] at h
      exact ih h (.opened hk .nil)
    by_cases closing : c = ')'
    · subst closing
      cases hk with
      | closed _ =>
        rw [rewriteGroups] at h
        obtain ⟨_, _, h⟩ := exists_of_bind_ok h
        cases h
      | @opened front before g _ outer kept inside =>
        cases hw : rewriteFlat current with
        | error fault =>
          unfold rewriteGroups at h
          rw [if_neg (by decide), if_pos rfl] at h
          obtain ⟨⟨t, ht⟩, _⟩ := exists_of_rewriteGroups_ok h
          obtain ⟨_, _, ht⟩ := exists_of_bind_ok ht
          obtain ⟨_, hgroup, _⟩ := exists_of_bind_ok ht
          obtain ⟨_, hflat, done⟩ := exists_of_bind_ok hgroup
          cases hflat
          rw [hw] at done
          cases done
        | ok group =>
          rw [Infix.rewriteGroups_closing hw] at h
          have piece : Resolves ('(' :: (g ++ [')'])) group := by
            simpa using Resolves.group inside hw .nil
          have parts : front ++ '(' :: g ++ [')'] = front ++ '(' :: (g ++ [')']) := by simp
          rw [parts]
          exact ih h (kept.append piece)
    · rw [Infix.rewriteGroups_char opening closing] at h
      exact ih h (hk.append (.char opening closing .nil))

/-- A text that can be put into call form resolves to one without parentheses of its own. -/
theorem exists_resolves_of_rewrite {cs w : List Char} (h : rewrite cs = .ok w) :
    ∃ flat, Resolves cs flat ∧ rewriteFlat flat = .ok w :=
  exists_resolves_of_kept h (.closed .nil)

end DocumentPath.Filter
