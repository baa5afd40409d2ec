import Mathlib.Data.List.Chain
import DocumentPath.Proofs.Literals.Normalizing

namespace DocumentPath.Filter

namespace Glyph

def string? : Glyph → Option Nat
  | string i => some i
  | char _ | number _ => none

/-- Whether the glyph is there when blanks and parentheses are left out. -/
def stays : Glyph → Bool
  | char c => !Text.isBlank c && c != '(' && c != ')'
  | string _ | number _ => true

/-- A digit right behind the place of a string would make it the place of another. -/
def Spoils : Glyph → Glyph → Prop
  | string _, char c => c.isDigit = true
  | _, _ => False

/-- Whether the glyph is no string, cannot be taken for the place of one, and spoils none. -/
def isInert : Glyph → Bool
  | char c => c != '#' && !c.isDigit
  | string _ => false
  | number _ => true

theorem not_spoils_left {g h : Glyph} (hg : g.isInert = true) : ¬Spoils g h := by
  cases g with
  | string i => cases hg
  | char c => exact id
  | number i => exact id

theorem not_spoils_right {g h : Glyph} (hh : h.isInert = true) : ¬Spoils g h := by
  cases g with
  | string i =>
    cases h with
    | char c =>
      intro digit
      simp only [isInert, Bool.and_eq_true, Bool.not_eq_true'] at hh
      exact absurd (digit.symm.trans hh.2) (by decide)
    | string j => exact id
    | number j => exact id
  | char c => exact id
  | number i => exact id

end Glyph

/-- The strings of a text, from left to right. -/
def stringsOf (gs : List Glyph) : List Nat := gs.filterMap Glyph.string?

theorem stringsOf_append (gs hs : List Glyph) :
    stringsOf (gs ++ hs) = stringsOf gs ++ stringsOf hs :=
  List.filterMap_append ..

theorem stringsOf_map_char (w : List Char) : stringsOf (w.map .char) = [] := by
  simp [stringsOf, List.filterMap_map, Function.comp_def, Glyph.string?]

/-- Nowhere does a digit follow the place of a string, but for blanks and parentheses between
them. -/
def Apart (gs : List Glyph) : Prop :=
  (gs.filter Glyph.stays).IsChain fun g h => ¬Glyph.Spoils g h

theorem apart_append {gs hs : List Glyph} (h : Apart (gs ++ hs)) : Apart gs ∧ Apart hs := by
  rw [Apart, List.filter_append] at h
  exact ⟨h.left_of_append, h.right_of_append⟩

/-- Whatever stands around it, a text has the same strings as the text that it becomes, and none of
them is spoilt. -/
structure Keeps (gs hs : List Glyph) : Prop where
  strings : stringsOf hs = stringsOf gs
  sharp : .char '#' ∉ gs → .char '#' ∉ hs
  apart : ∀ before behind, Apart (before ++ (gs ++ behind)) → Apart (before ++ (hs ++ behind))

namespace Keeps

variable {fs gs hs gs' hs' : List Glyph}

theorem refl (gs : List Glyph) : Keeps gs gs := ⟨rfl, id, fun _ _ => id⟩

theorem trans (h : Keeps fs gs) (h' : Keeps gs hs) : Keeps fs hs where
  strings := h'.strings.trans h.strings
  sharp := fun free => h'.sharp (h.sharp free)
  apart := fun before behind apart => h'.apart before behind (h.apart before behind apart)

theorem append (h : Keeps gs hs) (h' : Keeps gs' hs') : Keeps (gs ++ gs') (hs ++ hs') where
  strings := by rw [stringsOf_append, stringsOf_append, h.strings, h'.strings]
  sharp := by
    simp only [List.mem_append, not_or]
    exact fun free => ⟨h.sharp free.1, h'.sharp free.2⟩
  apart := by
    intro before behind apart
    rw [List.append_assoc] at apart ⊢
    have first := h.apart before (gs' ++ behind) apart
    rw [← List.append_assoc] at first ⊢
    exact h'.apart (before ++ hs) behind first

theorem cons (g : Glyph) (h : Keeps gs hs) : Keeps (g :: gs) (g :: hs) := (refl [g]).append h

/-- Glyphs that are no strings may give way to inert ones. -/
theorem replace (none : stringsOf gs = []) (inert : ∀ h ∈ hs, h.isInert = true)
    (hne : hs.filter Glyph.stays ≠ []) : Keeps gs hs where
  strings := by
    rw [none]
    refine List.filterMap_eq_nil_iff.mpr fun h hmem => ?_
    cases h with
    | string i => cases inert _ hmem
    | char c => rfl
    | number i => rfl
  sharp := fun _ hmem => absurd (inert _ hmem) (by decide)
  apart := by
    intro before behind apart
    rw [Apart, List.filter_append, List.filter_append] at apart ⊢
    have inertStays : ∀ h ∈ hs.filter Glyph.stays, h.isInert = true := fun h hmem =>
      inert h (List.mem_filter.mp hmem).1
    have middle : (hs.filter Glyph.stays).IsChain fun g h => ¬Glyph.Spoils g h :=
      (List.pairwise_of_forall_mem_list fun g hg h _ =>
        Glyph.not_spoils_left (inertStays g hg)).isChain
    refine List.isChain_append.mpr ⟨apart.left_of_append, ?_, ?_⟩
    · refine List.isChain_append.mpr ⟨middle, apart.right_of_append.right_of_append, ?_⟩
      exact fun g hg h _ => Glyph.not_spoils_left (inertStays g (List.mem_of_getLast? hg))
    · intro g _ h hh
      rw [List.head?_append_of_ne_nil _ hne] at hh
      exact Glyph.not_spoils_right (inertStays h (List.mem_of_head? hh))

/-- Blanks and parentheses may come and go. -/
theorem ignore (hg : ∀ g ∈ gs, ∃ c, g = .char c ∧ g.stays = false)
    (hh : ∀ h ∈ hs, ∃ c, h = .char c ∧ h.stays = false) : Keeps gs hs where
  strings := by
    have none {fs : List Glyph} (hf : ∀ f ∈ fs, ∃ c, f = .char c ∧ f.stays = false) :
        stringsOf fs = [] := by
      refine List.filterMap_eq_nil_iff.mpr fun f hmem => ?_
      obtain ⟨c, rfl, _⟩ := hf f hmem
      rfl
    rw [none hg, none hh]
  sharp := by
    intro _ hmem
    obtain ⟨c, he, gone⟩ := hh _ hmem
    cases gone
  apart := by
    have nothing {fs : List Glyph} (hf : ∀ f ∈ fs, ∃ c, f = .char c ∧ f.stays = false) :
        fs.filter Glyph.stays = [] := by
      refine List.filter_eq_nil_iff.mpr fun f hmem => ?_
      obtain ⟨c, _, gone⟩ := hf f hmem
      simp [gone]
    intro before behind apart
    rw [Apart, List.filter_append, List.filter_append, nothing hg] at apart
    rwa [Apart, List.filter_append, List.filter_append, nothing hh]

theorem drop (hg : ∀ g ∈ gs, ∃ c, g = .char c ∧ g.stays = false) : Keeps gs [] :=
  ignore hg (List.forall_mem_nil _)

/-- Blanks that a text begins with may go. -/
theorem dropBlanks (gs : List Glyph) : Keeps gs (gs.dropWhile (Glyph.isChar Text.isBlank)) := by
  have blanks : ∀ g ∈ gs.takeWhile (Glyph.isChar Text.isBlank), ∃ c, g = .char c ∧
      g.stays = false := by
    intro g hg
    have blank := List.all_eq_true.mp List.all_takeWhile g hg
    cases g with
    | char c =>
      have hc : Text.isBlank c = true := blank
      exact ⟨c, rfl, by simp [Glyph.stays, hc]⟩
    | string i => cases blank
    | number i => cases blank
  have parts := (drop blanks).append (refl (gs.dropWhile (Glyph.isChar Text.isBlank)))
  rwa [List.takeWhile_append_dropWhile] at parts

end Keeps

theorem Joins.keeps {gs hs : List Glyph} (h : Joins gs hs) : Keeps gs hs := by
  induction h with
  | nil => exact .refl []
  | string _ ih => exact ih.cons _
  | char _ _ ih => exact ih.cons _
  | @gap c _ _ blank _ _ ih =>
    have gone : ∀ g ∈ [Glyph.char c], ∃ d, g = .char d ∧ g.stays = false :=
      List.forall_mem_singleton.mpr ⟨c, rfl, by simp [Glyph.stays, blank]⟩
    exact (Keeps.drop gone).append ih
  | @word c b gap gs hs _ _ _ _ ih =>
    have mark : Keeps ((c :: (gap ++ ['i', 'n', b])).map .char) [.char wordMark] :=
      .replace (stringsOf_map_char _) (List.forall_mem_singleton.mpr rfl) (by decide)
    exact mark.append ((Keeps.dropBlanks gs).trans ih)

theorem Lifts.keeps {due : Bool} {k : Nat} {gs hs : List Glyph} {vs : List Value}
    (h : Lifts due k gs hs vs) : Keeps gs hs := by
  induction h with
  | nil => exact .refl []
  | string _ ih => exact ih.cons _
  | char _ _ ih => exact ih.cons _
  | @number k digits gs hs v vs _ _ _ _ _ ih =>
    have place : Keeps (('-' :: digits).map .char) [.number k] :=
      .replace (stringsOf_map_char _) (List.forall_mem_singleton.mpr rfl) (List.cons_ne_nil _ _)
    exact place.append ih

section Rewriting

variable {s n : Nat}

theorem not_in_place_of_not_isOperandChar {c : Char} (h : isOperandChar c = false) :
    c ≠ '#' ∧ c.isDigit = false := by
  refine ⟨?_, ?_⟩
  · rintro rfl
    cases h
  · cases hd : c.isDigit with
    | false => rfl
    | true =>
      have : isOperandChar c = true :=
        Infix.isOperandChar_of_isWordChar (Infix.isWordChar_of_isDigit hd)
      rw [this] at h
      cases h

/-- A spelled text can be cut in front of an operand. -/
theorem exists_of_spell_ends {gs : List Glyph} {a w : List Char} (ends : Infix.EndsOperand a)
    (h : spell s n gs = a ++ w) :
    ∃ fs hs, gs = fs ++ hs ∧ spell s n fs = a ∧ spell s n hs = w := by
  rcases List.eq_nil_or_concat' a with rfl | ⟨b, c, rfl⟩
  · exact ⟨[], gs, rfl, rfl, h⟩
  · have outside : isOperandChar c = false := by
      rw [Infix.EndsOperand, List.getLast?_concat] at ends
      exact ends
    obtain ⟨sharp, digit⟩ := not_in_place_of_not_isOperandChar outside
    rw [List.append_assoc, List.singleton_append] at h
    obtain ⟨fs, hs, rfl, rfl, rfl⟩ := exists_of_spell_eq_cut sharp digit h
    refine ⟨fs ++ [.char c], hs, by simp, ?_, rfl⟩
    rw [spell_append]
    rfl

/-- A spelled text can be cut behind an operand. -/
theorem exists_of_spell_starts {gs : List Glyph} {w b : List Char} (starts : Infix.StartsBehind b)
    (h : spell s n gs = w ++ b) :
    ∃ fs hs, gs = fs ++ hs ∧ spell s n fs = w ∧ spell s n hs = b := by
  cases b with
  | nil => exact ⟨gs, [], by simp, by rw [h, List.append_nil], rfl⟩
  | cons c b =>
    obtain ⟨sharp, digit⟩ := not_in_place_of_not_isOperandChar (c := c) starts
    obtain ⟨fs, hs, rfl, rfl, rfl⟩ := exists_of_spell_eq_cut sharp digit h
    exact ⟨fs, .char c :: hs, rfl, rfl, rfl⟩

/-- A spelled text can be cut around an operator. -/
theorem exists_of_spell_token {gs : List Glyph} {a b : List Char} {op : Operator}
    (h : spell s n gs = a ++ (token op ++ b)) :
    ∃ fs hs, gs = fs ++ ((token op).map .char ++ hs) ∧ spell s n fs = a ∧ spell s n hs = b := by
  have outside : ∀ c ∈ token op, c ≠ '#' ∧ c.isDigit = false := fun c hc =>
    not_in_place_of_not_isOperandChar (not_isOperandChar_of_mem_token c hc)
  cases ht : token op with
  | nil => exact absurd ht (token_ne_nil op)
  | cons c cs =>
    rw [ht] at h outside
    obtain ⟨first, rest⟩ := List.forall_mem_cons.mp outside
    obtain ⟨fs, hs, rfl, rfl, behind⟩ := exists_of_spell_eq_cut first.1 first.2 h
    obtain ⟨es, rfl, rfl⟩ := exists_of_spell_eq_append (fun hmem => (rest _ hmem).1 rfl) behind
    exact ⟨fs, es, rfl, rfl, rfl⟩

def callGlyphs (op : Operator) (gs : List Glyph) : List Glyph :=
  (op.name.toList ++ ['(']).map .char ++ (gs ++ [.char ')'])

theorem spell_callGlyphs (op : Operator) (gs : List Glyph) :
    spell s n (callGlyphs op gs) = callText op (spell s n gs) := by
  rw [callGlyphs, spell_append, spell_map_char, spell_append, callText]
  simp [spell, Glyph.chars]

/-- An operand goes into a call, whose operator may have stood in front of it. -/
theorem Keeps.called (op : Operator) {fs : List Glyph} (none : stringsOf fs = [])
    (gs : List Glyph) : Keeps (fs ++ gs) (callGlyphs op gs) := by
  have inert : ((op.name.toList ++ ['(']).all fun c => (Glyph.char c).isInert) = true := by
    cases op <;> rfl
  have front : Keeps fs ((op.name.toList ++ ['(']).map .char) := by
    refine .replace none (fun h hmem => ?_) ?_
    · obtain ⟨c, hc, rfl⟩ := List.mem_map.mp hmem
      exact List.all_eq_true.mp inert c hc
    · cases op <;> exact List.cons_ne_nil _ _
  have behind : Keeps [] [.char ')'] :=
    .ignore (List.forall_mem_nil _) (List.forall_mem_singleton.mpr ⟨')', rfl, rfl⟩)
  have parts := front.append ((Keeps.refl gs).append behind)
  rwa [List.append_nil] at parts

theorem Keeps.comma (op : Operator) : Keeps ((token op).map .char) [.char ','] :=
  .replace (stringsOf_map_char _) (List.forall_mem_singleton.mpr rfl) (List.cons_ne_nil _ _)

theorem exists_of_round {gs : List Glyph} {w : List Char} (h : Round (spell s n gs) w) :
    ∃ hs, w = spell s n hs ∧ Keeps gs hs := by
  generalize hcs : spell s n gs = cs at h
  cases h with
  | @negate a w b operand starts =>
    obtain ⟨as, rest, rfl, rfl, behind⟩ := exists_of_spell_token hcs
    obtain ⟨ws, bs, rfl, rfl, rfl⟩ := exists_of_spell_starts starts behind
    refine ⟨as ++ (callGlyphs .not ws ++ bs), ?_, ?_⟩
    · rw [spell_append, spell_append, spell_callGlyphs]
    · have inner := Keeps.called .not (stringsOf_map_char (token .not)) ws
      have whole := (Keeps.refl as).append (inner.append (.refl bs))
      rwa [List.append_assoc] at whole
  | @join a v w b op _ ends _ _ starts =>
    rw [← List.append_assoc] at hcs
    obtain ⟨front, rest, rfl, before, behind⟩ := exists_of_spell_token hcs
    obtain ⟨as, vs, rfl, rfl, rfl⟩ := exists_of_spell_ends ends before
    obtain ⟨ws, bs, rfl, rfl, rfl⟩ := exists_of_spell_starts starts behind
    refine ⟨as ++ (callGlyphs op (vs ++ .char ',' :: ws) ++ bs), ?_, ?_⟩
    · rw [spell_append, spell_append, spell_callGlyphs, spell_append, spell_char]
    · have joined : Keeps (vs ++ ((token op).map .char ++ ws)) (vs ++ .char ',' :: ws) :=
        (Keeps.refl vs).append ((Keeps.comma op).append (.refl ws))
      have call : Keeps ([] ++ (vs ++ .char ',' :: ws)) (callGlyphs op (vs ++ .char ',' :: ws)) :=
        .called op rfl _
      have inner := joined.trans call
      have whole := (Keeps.refl as).append (inner.append (.refl bs))
      simpa using whole

/-- Putting a text into call form keeps its strings. -/
theorem exists_of_rounds {gs : List Glyph} {w : List Char} (h : Rounds (spell s n gs) w) :
    ∃ hs, w = spell s n hs ∧ Keeps gs hs := by
  refine h.invariant (P := fun cs => ∃ hs, cs = spell s n hs ∧ Keeps gs hs) ?_
    ⟨gs, rfl, .refl gs⟩
  rintro _ ds round ⟨hs, rfl, kept⟩
  obtain ⟨es, rfl, kept'⟩ := exists_of_round round
  exact ⟨es, rfl, kept.trans kept'⟩

/-- Resolving the groups of a text keeps its strings. -/
theorem exists_of_resolves {gs : List Glyph} {flat : List Char}
    (h : Resolves (spell s n gs) flat) : ∃ hs, flat = spell s n hs ∧ Keeps gs hs := by
  induction hl : gs.length using Nat.strong_induction_on generalizing gs flat with
  | _ m ih =>
    cases gs with
    | nil =>
      cases h
      exact ⟨[], rfl, .refl []⟩
    | cons g gs =>
      have shorter : gs.length < m := by simp [← hl]
      have literal (i : Nat) (hg : g.chars s n = placeholder i) :
          ∃ hs, flat = spell s n hs ∧ Keeps (g :: gs) hs := by
        rw [spell_cons, hg] at h
        obtain ⟨rest, rfl, behind⟩ := h.of_append not_paren_of_mem_placeholder
        obtain ⟨hs, rfl, kept⟩ := ih gs.length shorter behind rfl
        exact ⟨g :: hs, by rw [spell_cons, hg], kept.cons g⟩
      cases g with
      | string i => exact literal _ rfl
      | number i => exact literal _ rfl
      | char c =>
        rw [spell_char] at h
        generalize hcs : spell s n gs = cs at h
        cases h with
        | char _ _ behind =>
          rw [← hcs] at behind
          obtain ⟨hs, rfl, kept⟩ := ih gs.length shorter behind rfl
          exact ⟨.char c :: hs, rfl, kept.cons _⟩
        | @group g inner w cs flat inside hw behind =>
          obtain ⟨fs, bs, rfl, rfl, rfl⟩ := exists_of_spell_eq_cut (by decide) (by decide) hcs
          rw [List.length_append, List.length_cons] at shorter
          obtain ⟨hs, rfl, kept⟩ := ih fs.length (by omega) inside rfl
          obtain ⟨es, rfl, kept'⟩ := exists_of_rounds (rounds_of_rewriteFlat hw)
          obtain ⟨ds, rfl, rest⟩ := ih bs.length (by omega) behind rfl
          refine ⟨es ++ ds, (spell_append es ds).symm, ?_⟩
          have paren {d : Char} (gone : (Glyph.char d).stays = false) : Keeps [.char d] [] :=
            .drop (List.forall_mem_singleton.mpr ⟨d, rfl, gone⟩)
          have opening : Keeps [.char '('] [] := paren rfl
          have closing : Keeps [.char ')'] [] := paren rfl
          exact opening.append ((kept.trans kept').append (closing.append rest))

end Rewriting

end DocumentPath.Filter
