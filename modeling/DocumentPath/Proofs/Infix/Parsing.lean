import DocumentPath.Proofs.Infix.Negation
import DocumentPath.Proofs.Infix.Signs

namespace DocumentPath.Infix

open DocumentPath.Filter

theorem forall₂_append {α β : Type} {R : α → β → Prop} {l m : List α} {bs : List β}
    (h : List.Forall₂ R (l ++ m) bs) :
    ∃ cs ds, bs = cs ++ ds ∧ List.Forall₂ R l cs ∧ List.Forall₂ R m ds := by
  induction l generalizing bs with
  | nil => exact ⟨[], bs, rfl, .nil, h⟩
  | cons a l ih =>
    cases h with
    | @cons _ b _ bs hb hrest =>
      obtain ⟨cs, ds, rfl, hl, hm⟩ := ih hrest
      exact ⟨b :: cs, ds, rfl, .cons hb hl, hm⟩

theorem rewriteGroups_char {c : Char} (h1 : c ≠ '(') (h2 : c ≠ ')')
    (outer : List (Except ExpressionFault (List Char))) (before rest : List Char) :
    rewriteGroups outer (.ok before) (c :: rest) =
      rewriteGroups outer (.ok (before ++ [c])) rest :=
  rewriteGroups_cons_char h1 h2

theorem rewriteGroups_closing {flat w : List Char} (hw : rewriteFlat flat = .ok w)
    (outer : List (Except ExpressionFault (List Char))) (before rest : List Char) :
    rewriteGroups (.ok before :: outer) (.ok flat) (')' :: rest) =
      rewriteGroups outer (.ok (before ++ w)) rest := by
  rw [rewriteGroups_cons_closing]
  change rewriteGroups outer (do return before ++ (← rewriteFlat flat)) rest = _
  rw [hw]
  rfl

theorem rewriteGroups_plain {w : List Char} (h : ∀ c ∈ w, c ≠ '(' ∧ c ≠ ')')
    (outer : List (Except ExpressionFault (List Char))) (before rest : List Char) :
    rewriteGroups outer (.ok before) (w ++ rest) =
      rewriteGroups outer (.ok (before ++ w)) rest := by
  induction w generalizing before with
  | nil => simp
  | cons c w ih =>
    obtain ⟨h1, h2⟩ := h c (by simp)
    have tail := ih (fun d hd => h d (by simp [hd])) (before ++ [c])
    rw [List.append_assoc, List.singleton_append] at tail
    rw [List.cons_append, rewriteGroups_char h1 h2, tail]

theorem rewriteGroups_token (op : Operator) (outer : List (Except ExpressionFault (List Char)))
    (before rest : List Char) :
    rewriteGroups outer (.ok before) (token op ++ rest) =
      rewriteGroups outer (.ok (before ++ token op)) rest := by
  have plain : ((token op).all fun c => c ≠ '(' ∧ c ≠ ')') = true := by cases op <;> rfl
  exact rewriteGroups_plain (by simpa using plain) outer before rest

/-- A group that has been put into call form stands as one operand where it was closed. -/
theorem rewriteGroups_group {inner flat w : List Char}
    (h : ∀ outer before rest, rewriteGroups outer (.ok before) (inner ++ rest) =
      rewriteGroups outer (.ok (before ++ flat)) rest)
    (hw : rewriteFlat flat = .ok w) (outer : List (Except ExpressionFault (List Char)))
    (before rest : List Char) :
    rewriteGroups outer (.ok before) ('(' :: (inner ++ ')' :: rest)) =
      rewriteGroups outer (.ok (before ++ w)) rest := by
  rw [rewriteGroups_cons_opening, h, List.nil_append, rewriteGroups_closing hw]

/-- What words become: a chain of operands in the text around them, which the tiers up to a rank
merge into one word, and the reading of that word has this outcome. -/
structure FlattensTo (table : List Value) (k : Nat) (outcome : Except ExpressionFault Expression)
    (words : List (List Char)) (c : Chain Prefixed) (w : List Char) : Prop where
  prepared : c.Prepared
  merged : Chain.mergeTiers k (c.map Prefixed.call) = ⟨w, []⟩
  yields : Yields table w outcome
  groups : ∀ outer before rest, rewriteGroups outer (.ok before) (words.flatten ++ rest) =
    rewriteGroups outer (.ok (before ++ c.text Prefixed.text)) rest

theorem Prefixed.callFrom_callText (w : List Char) (n : Nat) :
    callFrom (callText .not w) n = callText .not (callFrom w n) := by
  induction n generalizing w with
  | zero => rfl
  | succ n ih => exact ih _

section Flattening

variable {table : List Value} {k : Nat} {words lws rws : List (List Char)} {c d : Chain Prefixed}
  {v w : List Char} {outcome left right : Except ExpressionFault Expression}

theorem flattensTo_word (hw : ∀ c ∈ w, c ≠ '(' ∧ c ≠ ')') (h : Yields table w outcome) :
    FlattensTo table k outcome [w] ⟨⟨0, w⟩, []⟩ w where
  prepared := ⟨⟨h.ne_nil, h.operand⟩, by simp, by simp [Chain.Infixes]⟩
  merged := Chain.mergeTiers_single k w
  yields := h
  groups := by
    intro outer before rest
    simpa [Chain.text, Chain.linksText, Prefixed.text] using
      rewriteGroups_plain hw outer before rest

theorem flattensTo_negate (h : FlattensTo table 0 outcome words c w) :
    ∃ d, FlattensTo table k (outcome.map fun e => .call .not [e]) (token .not :: words) d
      (callText .not w) := by
  obtain ⟨a, links⟩ := c
  have single : Chain.map Prefixed.call ⟨a, links⟩ = ⟨w, []⟩ := h.merged
  have hlinks : links = [] := by simpa [Chain.map] using congrArg Chain.rest single
  have hcall : a.call = w := congrArg Chain.first single
  subst hlinks
  refine ⟨⟨⟨a.count + 1, a.word⟩, []⟩, ⟨h.prepared.first, by simp, by simp [Chain.Infixes]⟩, ?_,
    h.yields.negated, ?_⟩
  · have : Prefixed.call ⟨a.count + 1, a.word⟩ = callText .not w := by
      rw [← hcall]
      exact Prefixed.callFrom_callText _ _
    rw [Chain.map, this]
    exact Chain.mergeTiers_single k _
  · intro outer before rest
    rw [List.flatten_cons, List.append_assoc, rewriteGroups_token, h.groups]
    simp [Chain.text, Chain.linksText, Prefixed.text, token, List.replicate_succ]

theorem flattensTo_join {op : Operator} (hop : 0 < rank op) (hk : rank op ≤ k)
    (hl : FlattensTo table (rank op) left lws c v)
    (hr : FlattensTo table (rank op - 1) right rws d w) :
    FlattensTo table k (left.bind fun a => right.map fun b => .call op [a, b])
      (lws ++ token op :: rws) (c.join op d) (callText op (v ++ ',' :: w)) where
  prepared := hl.prepared.join hop hr.prepared
  merged := by
    rw [Chain.map_join]
    exact Chain.mergeTiers_of_le hk (Chain.mergeTiers_join_single hop hl.merged hr.merged)
  yields := hl.yields.joined hop hr.yields
  groups := by
    intro outer before rest
    rw [List.flatten_append, List.flatten_cons, List.append_assoc, hl.groups, List.append_assoc,
      rewriteGroups_token, hr.groups]
    simp [Chain.text, Chain.linksText, Chain.join]

theorem flattensTo_group (h : FlattensTo table loosest outcome words c w) :
    FlattensTo table k outcome (['('] :: (words ++ [[')']])) ⟨⟨0, w⟩, []⟩ w where
  prepared := ⟨⟨h.yields.ne_nil, h.yields.operand⟩, by simp, by simp [Chain.Infixes]⟩
  merged := Chain.mergeTiers_single k w
  yields := h.yields
  groups := by
    intro outer before rest
    have flat := Chain.rewriteFlat_text h.prepared h.merged
    simpa [Chain.text, Chain.linksText, Prefixed.text] using
      rewriteGroups_group h.groups flat outer before rest

/-- Every way to write an expression flattens to it. -/
theorem flattensTo_of_writes {tree : Tree} {ts : List Token} (h : Writes k tree ts)
    (hw : List.Forall₂ (Denotes table) ts words) :
    ∃ c w, FlattensTo table k (.ok tree.expression) words c w := by
  induction h generalizing words with
  | leaf k l =>
    cases hw with
    | cons hd hnil =>
      cases hnil
      cases hd with
      | leaf plain yields =>
        exact ⟨_, _, flattensTo_word (fun c hc =>
          ⟨ne_of_isWordChar (plain c hc) rfl, ne_of_isWordChar (plain c hc) rfl⟩)
          yields⟩
  | negate k _ ih =>
    cases hw with
    | cons hd hrest =>
      cases hd
      obtain ⟨c, w, hc⟩ := ih hrest
      obtain ⟨d, hd⟩ := flattensTo_negate (k := k) hc
      exact ⟨d, _, hd⟩
  | join hop hk _ _ ihl ihr =>
    obtain ⟨lws, ws, rfl, hl, hrest⟩ := forall₂_append hw
    cases hrest with
    | cons hd hr =>
      cases hd
      obtain ⟨c, v, hc⟩ := ihl hl
      obtain ⟨d, w, hd⟩ := ihr hr
      exact ⟨_, _, flattensTo_join hop hk hc hd⟩
  | group k _ ih =>
    cases hw with
    | cons hd hrest =>
      cases hd
      obtain ⟨ws, last, rfl, hinner, hlast⟩ := forall₂_append hrest
      cases hlast with
      | cons hd hnil =>
        cases hd
        cases hnil
        obtain ⟨c, w, hc⟩ := ih hinner
        exact ⟨_, _, flattensTo_group hc⟩

theorem FlattensTo.rewrite (h : FlattensTo table loosest outcome words c w) :
    Filter.rewrite words.flatten = .ok w := by
  have read := h.groups [] [] []
  rw [List.append_nil, List.nil_append] at read
  have done (text : List Char) : rewriteGroups [] (.ok text) [] = rewriteFlat text := by
    unfold rewriteGroups
    rfl
  rw [Filter.rewrite, read, done]
  exact Chain.rewriteFlat_text h.prepared h.merged

end Flattening

variable {table : List Value}

theorem isWord_of_extracted {ts : List Token} {words : List (List Char)}
    (h : List.Forall₂ (Extracted table) ts words) : ∀ w ∈ words, IsWord w := by
  induction h with
  | nil => simp
  | cons hw _ ih =>
    intro v hv
    rcases List.mem_cons.mp hv with rfl | hv
    · exact hw.isWord
    · exact ih v hv

/-- The tokens of an expression with parentheses around every two operands. -/
def Tree.tokens : Tree → List Token
  | .leaf l => [.leaf l]
  | .negate operand => .operator .not :: operand.tokens
  | .join op _ left right =>
    .opening :: ((left.tokens ++ .operator op :: right.tokens) ++ [.closing])

theorem writes_tokens (k : Nat) (tree : Tree) : Writes k tree tree.tokens := by
  induction tree generalizing k with
  | leaf l => exact .leaf k l
  | negate _ ih => exact .negate k (ih 0)
  | join op hop left right ihl ihr =>
    have tight : rank op ≤ loosest := by cases op <;> decide
    exact .group k (.join hop tight (ihl _) (ihr _))

/-- Words with one blank around each. -/
def spread : List (List Char) → List Char
  | [] => [' ']
  | word :: words => ' ' :: (word ++ spread words)

theorem spaced_spread (words : List (List Char)) : Spaced words (spread words) := by
  have gap : ∀ c ∈ [' '], Text.isBlank c = true := List.forall_mem_singleton.mpr rfl
  induction words with
  | nil => exact .nil gap
  | cons word words ih =>
    have behind : (spread words).head?.any Text.isBlank = true := by cases words <;> rfl
    exact .cons gap (fun _ => ⟨by simp, behind⟩) ih

/-- A written expression is parsed as the tree it was written from. -/
theorem parse_written {tree : Tree} {text : String} (h : IsText tree text.toList) :
    Expression.parse text = .ok tree.expression := by
  obtain ⟨ts, hts, hspaced⟩ := h
  obtain ⟨words, strings, plain, hextract, hwords, extracted⟩ := extractFrom_spaced hspaced []
  have follows : Follows true ts := by
    have := @Writes.follows _ _ _ hts [] trivial
    rwa [List.append_nil] at this
  have joined := (joinWords_spaced hwords (isWord_of_extracted extracted)
    (parted_of_follows follows extracted)).1
  have start : startsOperand none = true := rfl
  obtain ⟨left, more, lifted, denoted⟩ := lifts_of_follows follows start extracted
  obtain ⟨c, w, flat⟩ := flattensTo_of_writes hts denoted
  rw [List.nil_append] at lifted flat
  rw [List.length_nil] at hextract
  simp only [Expression.parse, extract, hextract, joined, lifted, flat.rewrite, flat.yields.read,
    bind, Except.bind]

/-- Every expression can be written, and however it is written, parsing the text gives it back. -/
theorem parse_isText (tree : Tree) :
    (∃ text : String, IsText tree text.toList) ∧
      ∀ text : String, IsText tree text.toList → Expression.parse text = .ok tree.expression := by
  constructor
  · refine ⟨String.ofList (spread (tree.tokens.map Token.chars)), tree.tokens,
      writes_tokens loosest tree, ?_⟩
    rw [String.toList_ofList]
    exact spaced_spread _
  · intro text h
    exact parse_written h

theorem parse_isText_signed_in_group :
    Expression.parse "-2 in ( @.a )||!\"q\\\"\"" =
      .ok (.call .or [.call .within [.literal (.integer (-2)), .element "a"],
        .call .not [.literal (.string "q\"")]]) := by
  let two : Leaf := .number ⟨true, ⟨['2'], by simp, List.forall_mem_singleton.mpr rfl⟩, none⟩
  let element : Leaf := .element [⟨['a'], by simp, List.forall_mem_singleton.mpr rfl⟩]
  let quoted : Leaf := .string ⟨'"', [(false, 'q'), (true, '"')], by decide, by simp⟩
  let within : Tree := .join .within (by decide) (.leaf two) (.leaf element)
  have writes : Writes loosest (.join .or (by decide) within (.negate (.leaf quoted))) _ :=
    .join (by decide) (by decide)
      (.join (by decide) (by decide) (.leaf _ two) (.group _ (.leaf _ element)))
      (.negate _ (.leaf _ quoted))
  have plain : ∀ c ∈ ([] : List Char), Text.isBlank c = true := by simp
  have blank : ∀ c ∈ [' '], Text.isBlank c = true := List.forall_mem_singleton.mpr rfl
  have spaced : Spaced [['-', '2'], inWord, ['('], ['@', '.', 'a'], [')'], ['|', '|'], ['!'],
      ['"', 'q', '\\', '"', '"']] "-2 in ( @.a )||!\"q\\\"\"".toList :=
    .cons plain (by decide) (.cons blank (by decide) (.cons blank (by decide)
      (.cons blank (by decide) (.cons blank (by decide) (.cons plain (by decide)
        (.cons plain (by decide) (.cons plain (by decide) (.nil plain))))))))
  exact (parse_isText _).2 _ ⟨_, writes, spaced⟩

end DocumentPath.Infix
