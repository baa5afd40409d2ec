import DocumentPath.Proofs.Literals.Indices
import DocumentPath.Proofs.Literals.Keeping

namespace DocumentPath

namespace Expression

mutual

/-- The strings among the literals, from left to right. -/
def strings : Expression → List String
  | .literal v => v.string?.toList
  | .element _ | .context _ => []
  | .call _ operands => operandStrings operands

def operandStrings : List Expression → List String
  | [] => []
  | e :: es => e.strings ++ operandStrings es

end

end Expression

namespace Filter

open Expression

section Reading

variable {pool : List String} {vs : List Value}

theorem string?_of_getElem? (numbers : ∀ text, .string text ∉ vs) {i : Nat} {v : Value}
    (h : (tableOf pool vs)[i]? = some v) : v.string? = pool[i]? := by
  rw [tableOf] at h
  by_cases hi : i < pool.length
  · rw [List.getElem?_append_left (by simpa using hi), List.getElem?_map] at h
    obtain ⟨text, ht, rfl⟩ := Option.map_eq_some_iff.mp h
    rw [ht]
    rfl
  · have behind : pool.length ≤ i := Nat.le_of_not_lt hi
    rw [List.getElem?_append_right (by simpa using behind)] at h
    rw [List.getElem?_eq_none behind]
    cases v with
    | string text => exact absurd (List.mem_of_getElem? h) (numbers text)
    | _ => rfl

theorem string?_of_readNumber? {cs : List Char} {v : Value} (h : readNumber? cs = some v) :
    v.string? = none := by
  rw [readNumber?] at h
  split at h
  · cases h
    rfl
  · obtain ⟨x, _, rfl⟩ := Option.map_eq_some_iff.mp h
    rfl

theorem mem_chars_of_mem {s n i : Nat} {gs : List Glyph} (h : .string i ∈ gs) :
    '#' ∈ spell s n gs :=
  List.mem_flatMap.mpr ⟨_, h, List.mem_cons_self⟩

/-- Where no place of a literal is spelled, there are no strings. -/
theorem stringsOf_eq_nil {s n : Nat} {gs : List Glyph} (h : '#' ∉ spell s n gs) :
    stringsOf gs = [] := by
  refine List.filterMap_eq_nil_iff.mpr fun g hg => ?_
  cases g with
  | string i => exact absurd (mem_chars_of_mem hg) h
  | char c => rfl
  | number i => rfl

theorem no_sharp_of_isDigit {cs : List Char} (h : ∀ c ∈ cs, c.isDigit = true) : '#' ∉ cs :=
  fun hmem => absurd (h _ hmem) (by decide)

/-- What is read where a literal has its place has just the strings of the glyphs. -/
theorem strings_of_index (numbers : ∀ text, .string text ∉ vs) {g : Glyph} {gs : List Glyph}
    {k i : Nat} {v : Value} (apart : Apart (g :: gs))
    (place : g = .string k ∨ ∃ j, g = .number j ∧ k = pool.length + j)
    (index : Text.readIndex? (Text.decimal k ++ spell 0 pool.length gs) = some i)
    (found : (tableOf pool vs)[i]? = some v) :
    v.string?.toList = (stringsOf (g :: gs)).filterMap (pool[·]?) := by
  obtain ⟨digits, least⟩ := Text.readIndex?_decimal_append index
  have chars := eq_map_char_of_no_sharp (no_sharp_of_isDigit digits)
  rw [string?_of_getElem? numbers found]
  rcases place with rfl | ⟨j, rfl, rfl⟩
  · cases gs with
    | nil =>
      rw [spell_nil, List.append_nil, Text.readIndex?_decimal] at index
      cases index
      change (pool[k]?).toList = List.filterMap (pool[·]?) [k]
      rw [List.filterMap_cons]
      cases pool[k]? <;> rfl
    | cons h gs =>
      rw [spell_cons] at digits chars
      cases h with
      | char c =>
        have digit : c.isDigit = true := digits c List.mem_cons_self
        have stays : (Glyph.char c).stays = true := by
          simp only [Glyph.stays, Bool.and_eq_true, bne_iff_ne, ne_eq, Bool.not_eq_true']
          refine ⟨⟨Infix.isBlank_of_isWordChar (Infix.isWordChar_of_isDigit digit), ?_⟩, ?_⟩ <;>
            rintro rfl <;> exact absurd digit (by decide)
        rw [Apart, List.filter_cons_of_pos (by rfl), List.filter_cons_of_pos stays] at apart
        exact absurd digit (List.isChain_cons_cons.mp apart).1
      | string l => cases (List.cons.inj chars).1
      | number l => cases (List.cons.inj chars).1
  · have none : pool[i]? = none := List.getElem?_eq_none (by omega)
    have empty : stringsOf (.number j :: gs) = [] := by
      rw [chars]
      exact stringsOf_map_char _
    rw [none, empty]
    rfl

theorem strings_of_readLeaf? (numbers : ∀ text, .string text ∉ vs) {gs : List Glyph}
    {e : Expression} (h : readLeaf? (tableOf pool vs) (spell 0 pool.length gs) = some e)
    (sharp : .char '#' ∉ gs) (apart : Apart gs) (paths : ∀ p ∈ e.references, '#' ∉ p.toList) :
    e.strings = (stringsOf gs).filterMap (pool[·]?) := by
  have free (none : '#' ∉ spell 0 pool.length gs) : [] = (stringsOf gs).filterMap (pool[·]?) := by
    rw [stringsOf_eq_nil none]
    rfl
  generalize hcs : spell 0 pool.length gs = cs at h free
  unfold readLeaf? at h
  split at h
  · cases h
    exact free (by decide)
  · cases h
    exact free (by decide)
  · rename_i path
    cases h
    have inside := paths _ (List.mem_singleton_self _)
    rw [String.toList_ofList] at inside
    exact free (by simpa using inside)
  · rename_i path
    cases h
    have inside := paths _ (List.mem_singleton_self _)
    rw [String.toList_ofList] at inside
    exact free (by simpa using inside)
  · rename_i digits
    obtain ⟨i, index, h⟩ := Option.bind_eq_some_iff.mp h
    obtain ⟨v, found, h⟩ := Option.bind_eq_some_iff.mp h
    cases h
    cases gs with
    | nil => cases hcs
    | cons g gs =>
      rw [spell_cons] at hcs
      cases g with
      | char c =>
        obtain ⟨rfl, _⟩ := List.cons.inj hcs
        exact absurd List.mem_cons_self sharp
      | string k =>
        rw [Glyph.chars, Nat.zero_add] at hcs
        obtain ⟨_, rfl⟩ := List.cons.inj hcs
        exact strings_of_index numbers apart (.inl rfl) index found
      | number j =>
        obtain ⟨_, rfl⟩ := List.cons.inj hcs
        exact strings_of_index numbers apart (.inr ⟨j, rfl, rfl⟩) index found
  · split_ifs at h with h1 h2 h3
    · cases h
      exact free (h1 ▸ by decide)
    · cases h
      exact free (h2 ▸ by decide)
    · cases h
      exact free (h3 ▸ by decide)

/-- The glyphs of a text that is parted at commas are parted there too. -/
theorem exists_of_spell_commas {s n : Nat} {gs : List Glyph} {q : List Char}
    {qs : List (List Char)} (h : spell s n gs = q ++ qs.flatMap (',' :: ·)) :
    ∃ fs fss, List.Forall₂ (fun p fs => p = spell s n fs) (q :: qs) (fs :: fss) ∧
      gs = fs ++ fss.flatMap (.char ',' :: ·) := by
  induction qs generalizing gs q with
  | nil =>
    rw [List.flatMap_nil, List.append_nil] at h
    exact ⟨gs, [], .cons h.symm .nil, by simp⟩
  | cons r rs ih =>
    rw [List.flatMap_cons, List.cons_append] at h
    obtain ⟨fs, hs, rfl, hq, behind⟩ := exists_of_spell_eq_cut (by decide) (by decide) h
    obtain ⟨es, ess, pieces, rfl⟩ := ih behind
    exact ⟨fs, es :: ess, .cons hq.symm pieces, by simp⟩

/-- What is true of a text from which the strings of an expression can be read. -/
structure Legible (gs : List Glyph) : Prop where
  sharp : .char '#' ∉ gs
  apart : Apart gs

theorem Legible.append {gs hs : List Glyph} (h : Legible (gs ++ hs)) : Legible gs ∧ Legible hs := by
  obtain ⟨left, right⟩ := apart_append h.apart
  have free := h.sharp
  rw [List.mem_append, not_or] at free
  exact ⟨⟨free.1, left⟩, free.2, right⟩

theorem Legible.pieces {fs : List Glyph} {fss : List (List Glyph)}
    (h : Legible (fs ++ fss.flatMap (.char ',' :: ·))) : ∀ es ∈ fs :: fss, Legible es := by
  induction fss generalizing fs with
  | nil => exact List.forall_mem_singleton.mpr h.append.1
  | cons es ess ih =>
    obtain ⟨here, behind⟩ := h.append
    have rest : Legible ([.char ','] ++ (es ++ ess.flatMap (.char ',' :: ·))) := by
      simpa using behind
    exact List.forall_mem_cons.mpr ⟨here, ih rest.append.2⟩

theorem stringsOf_commas (fs : List Glyph) (fss : List (List Glyph)) :
    stringsOf (fs ++ fss.flatMap (.char ',' :: ·)) = (fs :: fss).flatMap stringsOf := by
  induction fss generalizing fs with
  | nil => simp
  | cons es ess ih =>
    have parts : fs ++ (es :: ess).flatMap (.char ',' :: ·) =
        fs ++ ([.char ','] ++ (es ++ ess.flatMap (.char ',' :: ·))) := by simp
    rw [parts, stringsOf_append, stringsOf_append, ih]
    rfl

/-- The strings of operands are those of their texts. -/
theorem operandStrings_of_pieces {pieces : List (List Char)} {fss : List (List Glyph)}
    {es : List Expression}
    (spelled : List.Forall₂ (fun p fs => p = spell 0 pool.length fs) pieces fss)
    (read : List.Forall₂ (fun p e => ∀ fs, p = spell 0 pool.length fs → Legible fs →
      (∀ r ∈ e.references, '#' ∉ r.toList) → e.strings = (stringsOf fs).filterMap (pool[·]?))
      pieces es)
    (legible : ∀ fs ∈ fss, Legible fs) (paths : ∀ r ∈ operandReferences es, '#' ∉ r.toList) :
    operandStrings es = (fss.flatMap stringsOf).filterMap (pool[·]?) := by
  induction read generalizing fss with
  | nil =>
    cases spelled
    rfl
  | @cons p e ps es first _ ih =>
    cases spelled with
    | @cons _ fs _ fss hp hps =>
      obtain ⟨here, rest⟩ := List.forall_mem_cons.mp legible
      rw [operandReferences, List.forall_mem_append] at paths
      rw [operandStrings, List.flatMap_cons, List.filterMap_append, first fs hp here paths.1,
        ih hps rest paths.2]

/-- The glyphs between the parentheses of a call have all strings of the call. -/
theorem exists_of_spell_callText {s n : Nat} {gs : List Glyph} {op : Operator} {inner : List Char}
    (h : spell s n gs = callText op inner) :
    ∃ before is last, gs = before ++ (is ++ last) ∧ spell s n is = inner ∧
      stringsOf gs = stringsOf is := by
  have sharp : '#' ∉ op.name.toList ++ ['('] := by cases op <;> decide
  have written : spell s n gs = (op.name.toList ++ ['(']) ++ (inner ++ [')']) := by
    rw [h, callText]
    simp
  obtain ⟨hs, rfl, behind⟩ := exists_of_spell_eq_append sharp written
  obtain ⟨is, last, rfl, his, hlast⟩ := exists_of_spell_eq_cut (by decide) (by decide) behind
  have none : stringsOf (.char ')' :: last) = [] := by
    refine stringsOf_eq_nil (s := s) (n := n) ?_
    rw [spell_char, hlast]
    decide
  refine ⟨_, is, .char ')' :: last, rfl, his, ?_⟩
  rw [stringsOf_append, stringsOf_append, stringsOf_map_char, none, List.append_nil,
    List.nil_append]

/-- An expression has just the strings of the text that it is read from. -/
theorem strings_of_readCall (numbers : ∀ text, .string text ∉ vs) {text : List Char}
    {e : Expression} (h : readCall (tableOf pool vs) text = .ok e) (hd : depth text = 0) :
    ∀ gs, text = spell 0 pool.length gs → Legible gs →
      (∀ p ∈ e.references, '#' ∉ p.toList) →
      e.strings = (stringsOf gs).filterMap (pool[·]?) := by
  refine readCall_induction (motive := fun text e => ∀ gs, text = spell 0 pool.length gs →
    Legible gs → (∀ p ∈ e.references, '#' ∉ p.toList) →
    e.strings = (stringsOf gs).filterMap (pool[·]?)) ?_ ?_ ?_ h hd
  · rintro text v number read gs rfl _ _
    have none : '#' ∉ spell 0 pool.length gs :=
      not_mem_of_isNumber number (by decide) (by decide) (by decide)
    rw [stringsOf_eq_nil none, strings, string?_of_readNumber? read]
    rfl
  · rintro text e _ leaf gs rfl legible paths
    exact strings_of_readLeaf? numbers leaf legible.sharp legible.apart paths
  · intro op inner es _ operands gs text legible paths
    obtain ⟨before, is, last, rfl, rfl, same⟩ := exists_of_spell_callText text.symm
    obtain ⟨q, qs, parted⟩ := exists_parted 0 (spell 0 pool.length is)
    obtain ⟨fs, fss, spelled, rfl⟩ := exists_of_spell_commas parted.joined
    rw [parted.split] at operands
    rw [same, stringsOf_commas, strings]
    exact operandStrings_of_pieces spelled operands legible.append.2.append.1.pieces paths

theorem mem_of_readLeaf? {table : List Value} {text : List Char} {e : Expression}
    (h : readLeaf? table text = some e) : ∀ s ∈ e.strings, .string s ∈ table := by
  unfold readLeaf? at h
  split at h
  · cases h
    exact List.forall_mem_nil _
  · cases h
    exact List.forall_mem_nil _
  · cases h
    exact List.forall_mem_nil _
  · cases h
    exact List.forall_mem_nil _
  · obtain ⟨i, _, h⟩ := Option.bind_eq_some_iff.mp h
    obtain ⟨v, found, h⟩ := Option.bind_eq_some_iff.mp h
    cases h
    intro s hs
    cases v with
    | string text =>
      cases List.mem_singleton.mp hs
      exact List.mem_of_getElem? found
    | _ => cases hs
  · split_ifs at h <;> cases h <;> exact List.forall_mem_nil _

theorem mem_of_operands {table : List Value} {pieces : List (List Char)} {es : List Expression}
    (h : List.Forall₂ (fun _ e => ∀ s ∈ e.strings, .string s ∈ table) pieces es) :
    ∀ s ∈ operandStrings es, .string s ∈ table := by
  induction h with
  | nil => exact List.forall_mem_nil _
  | cons first _ ih =>
    rw [operandStrings, List.forall_mem_append]
    exact ⟨first, ih⟩

/-- Every string that is read comes from the table. -/
theorem mem_of_readCall {table : List Value} {text : List Char} {e : Expression}
    (h : readCall table text = .ok e) (hd : depth text = 0) :
    ∀ s ∈ e.strings, .string s ∈ table := by
  refine readCall_induction (motive := fun _ e => ∀ s ∈ e.strings, .string s ∈ table)
    ?_ ?_ ?_ h hd
  · intro text v _ read
    rw [strings, string?_of_readNumber? read]
    exact List.forall_mem_nil _
  · intro text e _ leaf
    exact mem_of_readLeaf? leaf
  · intro op inner es _ operands
    exact mem_of_operands operands

/-- The strings of a text are counted in their order. -/
theorem filterMap_stringsOf_glyphsFrom (front : List String) (ws : List Written) :
    (stringsOf (glyphsFrom front.length ws)).filterMap ((front ++ quotedStrings ws)[·]?) =
      quotedStrings ws := by
  induction ws generalizing front with
  | nil => rfl
  | cons w ws ih =>
    cases w with
    | char c plain => exact ih front
    | string q =>
      have rest := ih (front ++ [q.value])
      rw [List.length_append, List.append_assoc] at rest
      have here : (front ++ q.value :: quotedStrings ws)[front.length]? = some q.value := by simp
      change (front.length :: stringsOf (glyphsFrom (front.length + 1) ws)).filterMap
        ((front ++ q.value :: quotedStrings ws)[·]?) = q.value :: quotedStrings ws
      rw [List.filterMap_cons_some here]
      exact congrArg (q.value :: ·) rest

end Reading

theorem Normalizes.keeps {ws : List Written} {hs : List Glyph} {vs : List Value}
    (h : Normalizes ws hs vs) : Keeps (glyphsFrom 0 ws) hs := by
  obtain ⟨gs, joins, lifts⟩ := h
  exact joins.keeps.trans lifts.keeps

theorem Keeps.legible {gs hs : List Glyph} (h : Keeps gs hs) (legible : Legible gs) :
    Legible hs := by
  have apart := h.apart [] []
  simp only [List.nil_append, List.append_nil] at apart
  exact ⟨h.sharp legible.sharp, apart legible.apart⟩

/-- The call form of an accepted text has the glyphs of the text. -/
theorem Stages.exists_glyphs {ws : List Written} {e : Expression}
    (s : Stages (writtenChars ws) e) :
    ∃ hs vs, (∀ text, .string text ∉ vs) ∧ s.table = tableOf (quotedStrings ws) vs ∧
      s.call = spell 0 (quotedStrings ws).length hs ∧ Keeps (glyphsFrom 0 ws) hs := by
  obtain ⟨gs, vs, normalizes, normal, table⟩ := s.normalizes
  have rewritten := s.rewritten
  rw [normal] at rewritten
  obtain ⟨flat, resolves, done⟩ := exists_resolves_of_rewrite rewritten
  obtain ⟨fs, rfl, kept⟩ := exists_of_resolves resolves
  obtain ⟨hs, call, kept'⟩ := exists_of_rounds (rounds_of_rewriteFlat done)
  have numbers : ∀ text, .string text ∉ vs := by
    obtain ⟨_, _, lifts⟩ := normalizes
    exact lifts.not_string
  exact ⟨hs, vs, numbers, table, call, normalizes.keeps.trans (kept.trans kept')⟩

end Filter

namespace Expression

open DocumentPath.Filter

/-- The strings of an accepted text, from left to right, are those of the expression, each once.
This takes that the user typed no sign of a place, that no digit follows a string, and that no string
went into the path of a reference. In any case no string of the expression is of another origin. -/
theorem strings_of_parse {text : String} {e : Expression} (h : parse text = .ok e) :
    (∃ ws, writtenChars ws = text.toList) ∧
      ∀ ws, writtenChars ws = text.toList →
        (∀ s ∈ e.strings, s ∈ quotedStrings ws) ∧
        (Legible (glyphsFrom 0 ws) → (∀ p ∈ e.references, '#' ∉ p.toList) →
          e.strings = quotedStrings ws) := by
  obtain ⟨stages⟩ := parse_eq_ok_iff.mp h
  refine ⟨exists_written stages.extracted, fun ws written => ?_⟩
  rw [← written] at stages
  obtain ⟨hs, vs, numbers, table, call, kept⟩ := stages.exists_glyphs
  have read := stages.read
  have flat := stages.tidy.1.isSealed.nested.closed
  rw [table, call] at read
  rw [call] at flat
  constructor
  · intro s hs
    rcases List.mem_append.mp (mem_of_readCall read flat s hs) with hmem | hmem
    · obtain ⟨_, hmem, he⟩ := List.mem_map.mp hmem
      cases he
      exact hmem
    · exact absurd hmem (numbers s)
  · intro legible paths
    rw [strings_of_readCall numbers read flat hs rfl (kept.legible legible) paths, kept.strings]
    exact filterMap_stringsOf_glyphsFrom [] ws

theorem strings_of_parse_two_strings :
    ∃ e, parse "@.a==\"#1\"||(\"b\")==-2" = .ok e ∧ e.strings = ["#1", "b"] := by
  let first : Infix.Quotation := ⟨'"', [(false, '#'), (false, '1')], rfl, by simp⟩
  let second : Infix.Quotation := ⟨'"', [(false, 'b')], rfl, by simp⟩
  let ws : List Written := [.char '@' rfl, .char '.' rfl, .char 'a' rfl, .char '=' rfl,
    .char '=' rfl, .string first, .char '|' rfl, .char '|' rfl, .char '(' rfl, .string second,
    .char ')' rfl, .char '=' rfl, .char '=' rfl, .char '-' rfl, .char '2' rfl]
  have parsed : parse "@.a==\"#1\"||(\"b\")==-2" =
      .ok (.call .or [.call .looseEq [.element "a", .literal (.string "#1")],
        .call .looseEq [.literal (.string "b"), .literal (.integer (-2))]]) := by
    with_unfolding_all rfl
  have legible : Legible (glyphsFrom 0 ws) := by
    refine ⟨by decide, ?_⟩
    have stays : (glyphsFrom 0 ws).filter Glyph.stays = [.char '@', .char '.', .char 'a',
        .char '=', .char '=', .string 0, .char '|', .char '|', .string 1, .char '=', .char '=',
        .char '-', .char '2'] := rfl
    rw [Apart, stays]
    simp [Glyph.Spoils]
  refine ⟨_, parsed, ((strings_of_parse parsed).2 ws rfl).2 legible ?_⟩
  simp [references, operandReferences]

/-- The sign of a place that the user typed counts as a string of the text, which is then there
twice. A digit behind a string exchanges it for another. In the path of a reference a string is
lost. -/
theorem strings_of_parse_places :
    (∃ e ws, parse "\"a\"==#0" = .ok e ∧ writtenChars ws = "\"a\"==#0".toList ∧
      quotedStrings ws = ["a"] ∧ e.strings = ["a", "a"]) ∧
    (∃ e ws, parse "\"a\"1==\"b\"" = .ok e ∧ writtenChars ws = "\"a\"1==\"b\"".toList ∧
      quotedStrings ws = ["a", "b"] ∧ e.strings = ["b", "b"]) ∧
    (∃ e ws, parse "@.a\"b\"" = .ok e ∧ writtenChars ws = "@.a\"b\"".toList ∧
      quotedStrings ws = ["b"] ∧ e.strings = []) := by
  let a : Infix.Quotation := ⟨'"', [(false, 'a')], rfl, by simp⟩
  let b : Infix.Quotation := ⟨'"', [(false, 'b')], rfl, by simp⟩
  refine ⟨?_, ?_, ?_⟩
  · exact ⟨.call .looseEq [.literal (.string "a"), .literal (.string "a")],
      [.string a, .char '=' rfl, .char '=' rfl, .char '#' rfl, .char '0' rfl],
      by with_unfolding_all rfl, rfl, rfl, rfl⟩
  · exact ⟨.call .looseEq [.literal (.string "b"), .literal (.string "b")],
      [.string a, .char '1' rfl, .char '=' rfl, .char '=' rfl, .string b],
      by with_unfolding_all rfl, rfl, rfl, rfl⟩
  · exact ⟨.element "a#0", [.char '@' rfl, .char '.' rfl, .char 'a' rfl, .string b],
      by with_unfolding_all rfl, rfl, rfl, rfl⟩

end Expression

end DocumentPath
