import DocumentPath.Proofs.Outcomes
import DocumentPath.Proofs.Outlines.Reading

namespace DocumentPath

/-- A key that stands bare in a path, perhaps with brackets and apostrophes in it. -/
structure PlainKey where
  chars : List Char
  ne_nil : chars ≠ []
  plain : ∀ c ∈ chars, c ≠ '.' ∧ c ≠ '"'
  head : chars.head? ≠ some '[' ∧ chars.head? ≠ some '*'

namespace PlainKey

def text (key : PlainKey) : String := String.ofList key.chars

def step (key : PlainKey) : Step := Step.ofText key.chars

end PlainKey

namespace Scanner

def isOpening (c : Char) : Bool := c ∈ ['[', '(', '\x7b']

def isClosing (c : Char) : Bool := c ∈ [']', ')', '\x7d']

/-- Between strings no backslash is pending. -/
def IsCalm (s : Scanner) : Prop := s.quote = none → s.escaped = false

theorem IsCalm.next {s : Scanner} (h : s.IsCalm) (c : Char) : (s.next c).IsCalm := by
  intro hq
  rw [Scanner.next] at hq ⊢
  split
  case h_1 q hs =>
    rw [hs] at hq
    simp only at hq ⊢
    split_ifs at hq ⊢ <;> simp_all
  case h_2 hs =>
    split_ifs <;> exact h hs

theorem isCalm_after (cs : List Char) : (start.after cs).IsCalm := by
  have all (s : Scanner) (h : s.IsCalm) : (s.after cs).IsCalm := by
    induction cs generalizing s with
    | nil => exact h
    | cons c cs ih => exact ih (s.next c) (h.next c)
  exact all start fun _ => rfl

/-- Behind a text the scanner stands between strings or inside one. -/
theorem exists_after (cs : List Char) :
    ∃ d, start.after cs = between d ∨ ∃ quote escaped, start.after cs = inside quote escaped d := by
  have calm := isCalm_after cs
  generalize start.after cs = s at calm
  obtain ⟨quote, escaped, depth⟩ := s
  refine ⟨depth, ?_⟩
  cases quote with
  | none =>
    cases escaped with
    | true => cases calm rfl
    | false => exact .inl rfl
  | some q => exact .inr ⟨q, escaped, rfl⟩

/-- How deep a scanner stands in brackets matters to apostrophes only. -/
theorem marks_congr {s t : Scanner} {cs : List Char} (quote : s.quote = t.quote)
    (escaped : s.escaped = t.escaped) (h : '\'' ∉ cs) : s.marks cs = t.marks cs := by
  induction cs generalizing s t with
  | nil => rfl
  | cons c cs ih =>
    obtain ⟨first, others⟩ := not_or.mp (List.mem_cons.not.mp h)
    have same : (s.next c).quote = (t.next c).quote ∧ (s.next c).escaped = (t.next c).escaped := by
      rw [next, next, ← quote]
      split
      case h_1 q _ =>
        rw [← escaped]
        split_ifs <;> exact ⟨by simp_all, by simp_all⟩
      case h_2 =>
        simp only [Ne.symm first, false_and, or_false]
        split_ifs <;> exact ⟨by simp_all, by simp_all⟩
    rw [marks, marks, ih same.1 same.2 others, isOutside, isOutside, quote, same.1]

theorem isPlain_of_no_bracket {c : Char} (quote : c ≠ '"') (apostrophe : c ≠ '\'')
    (opening : isOpening c = false) (closing : isClosing c = false) : isPlain c = true := by
  simp only [isOpening, isClosing, List.mem_cons, List.not_mem_nil, or_false,
    decide_eq_false_iff_not, not_or] at opening closing
  simp [isPlain, quote, apostrophe, opening, closing]

/-- Outside strings a bracket leads one step up or down. -/
theorem next_between_bracket {c : Char} (quote : c ≠ '"') (apostrophe : c ≠ '\'') (d : Int) :
    (between d).next c =
      between (d + (if isOpening c then 1 else 0) - if isClosing c then 1 else 0) := by
  cases opening : isOpening c with
  | true =>
    simp only [isOpening, List.mem_cons, List.not_mem_nil, or_false, decide_eq_true_eq] at opening
    rcases opening with rfl | rfl | rfl <;> simp [next, between, isClosing]
  | false =>
    cases closing : isClosing c with
    | true =>
      simp only [isClosing, List.mem_cons, List.not_mem_nil, or_false, decide_eq_true_eq] at closing
      rcases closing with rfl | rfl | rfl <;> simp [next, between]
    | false =>
      rw [next_between (.inl (isPlain_of_no_bracket quote apostrophe opening closing))]
      simp

/-- Without quotes and apostrophes a text only changes the depth, by the brackets that it has. -/
theorem after_of_unquoted {cs : List Char} (h : ∀ c ∈ cs, c ≠ '"' ∧ c ≠ '\'') (d : Int) :
    (between d).after cs = between (d + cs.countP isOpening - cs.countP isClosing) := by
  induction cs generalizing d with
  | nil => simp [after]
  | cons c cs ih =>
    obtain ⟨⟨quote, apostrophe⟩, others⟩ := List.forall_mem_cons.mp h
    rw [after_cons, next_between_bracket quote apostrophe, ih others, List.countP_cons,
      List.countP_cons]
    congr 1
    cases isOpening c <;> cases isClosing c <;> simp <;> omega

/-- An apostrophe outside brackets is an ordinary character. -/
theorem after_of_no_brackets {cs : List Char}
    (h : ∀ c ∈ cs, c ≠ '"' ∧ isOpening c = false ∧ isClosing c = false) : start.after cs = start := by
  have crosses : Crosses (fun _ => True) 0 0 cs := by
    refine crosses_of_plain (fun c hc => ?_) fun _ _ => trivial
    obtain ⟨quote, opening, closing⟩ := h c hc
    by_cases apostrophe : c = '\''
    · exact .inr ⟨apostrophe, Int.le_refl 0⟩
    · exact .inl (isPlain_of_no_bracket quote apostrophe opening closing)
  exact crosses.1

end Scanner

open Scanner

/-- A text without a dot outside its strings belongs to the first part. -/
theorem splitFrom_append {s : Scanner} {u : List Char} (h : ∀ c ∈ s.outside u, c ≠ '.')
    (v : List Char) : splitFrom s (u ++ v) = (splitFrom (s.after u) v).modifyHead (u ++ ·) := by
  induction u generalizing s with
  | nil =>
    obtain ⟨q, qs, hs⟩ := splitFrom_eq_cons s v
    show splitFrom s v = (splitFrom s v).modifyHead ([] ++ ·)
    rw [hs]
    rfl
  | cons c u ih =>
    rw [outside_cons] at h
    have dot : ¬(c = '.' ∧ s.isOutside c = true) := by
      rintro ⟨rfl, outside⟩
      exact h '.' (by simp [outside]) rfl
    have rest : ∀ x ∈ (s.next c).outside u, x ≠ '.' := fun x hx => h x (List.mem_append_right _ hx)
    obtain ⟨q, qs, hs⟩ := splitFrom_eq_cons ((s.next c).after u) v
    rw [List.cons_append, splitFrom_cons dot, ih rest, after_cons, hs]
    rfl

namespace PlainKey

variable (key : PlainKey)

theorem no_dot (s : Scanner) : ∀ c ∈ s.outside key.chars, c ≠ '.' := by
  intro c hc
  obtain ⟨m, hm, rfl⟩ := List.mem_map.mp hc
  have inside : m.1 ∈ (s.marks key.chars).map Prod.fst :=
    List.mem_map_of_mem (List.mem_of_mem_filter hm)
  rw [map_fst_marks] at inside
  exact (key.plain _ inside).1

theorem chars_eq_cons : ∃ c cs, key.chars = c :: cs ∧ c ≠ '[' ∧ c ≠ '*' ∧ c ≠ '"' := by
  obtain ⟨chars, ne_nil, plain, bracket, star⟩ := key
  cases chars with
  | nil => exact absurd rfl ne_nil
  | cons c cs =>
    exact ⟨c, cs, rfl, fun h => bracket (h ▸ rfl), fun h => star (h ▸ rfl),
      (plain c (List.mem_cons_self ..)).2⟩

/-- Behind a key that ends between strings a dot begins the next part. -/
theorem split_between {d : Int} (h : start.after key.chars = between d) (rest : List Char) :
    splitOutside '.' (key.chars ++ '.' :: rest) = key.chars :: splitFrom (between d) rest := by
  have dot : (between d).next '.' = between d := next_between (.inl rfl)
  show splitFrom start _ = _
  rw [splitFrom_append (key.no_dot start), h, splitFrom_dot (isOutside_between dot), dot]
  simp

/-- Inside a string that a key has begun, a dot is part of the key. -/
theorem split_inside {quote : Char} {escaped : Bool} {d : Int}
    (h : start.after key.chars = inside quote escaped d) (rest : List Char) :
    ∃ q qs, splitOutside '.' (key.chars ++ '.' :: rest) = (key.chars ++ '.' :: q) :: qs := by
  have whole : ∀ c ∈ start.outside (key.chars ++ ['.']), c ≠ '.' := by
    intro c hc
    rw [outside_append, h, outside_cons, isOutside_inside] at hc
    exact key.no_dot start c (by simpa [outside, marks] using hc)
  obtain ⟨q, qs, hs⟩ := splitFrom_eq_cons (start.after (key.chars ++ ['.'])) rest
  refine ⟨q, qs, ?_⟩
  have parted := splitFrom_append whole rest
  rw [hs, List.append_assoc, List.singleton_append] at parted
  refine parted.trans ?_
  rw [List.modifyHead_cons, List.append_assoc]
  rfl

end PlainKey

namespace Outline

/-- What the pieces of a filter are put together to does not depend on the whole path. -/
theorem joinFilter_path {opening closing : Char} {path text : List Char}
    {pieces : List (List Char)} {result} (path' : List Char)
    (h : joinFilter opening closing path text pieces = .ok result) :
    joinFilter opening closing path' text pieces = .ok result := by
  induction pieces generalizing text with
  | nil =>
    rw [joinFilter] at h ⊢
    split_ifs at h ⊢ with balanced
    exact h
  | cons piece pieces ih =>
    rw [joinFilter] at h ⊢
    split_ifs at h ⊢ with balanced
    · exact h
    · obtain ⟨joined, hj, he⟩ := exists_of_map_ok h
      rw [ih hj, ← he]
      rfl

/-- Nor do the parts that pieces are read as. -/
theorem readParts_path {path : List Char} {pieces : List (List Char)} {parts : List Part}
    (path' : List Char) (h : readParts path pieces = .ok parts) :
    readParts path' pieces = .ok parts := by
  fun_induction readParts path pieces generalizing parts with
  | case1 => rw [readParts, ← h]
  | case2 => cases h
  | case3 => cases h
  | case4 cs pieces text rest _ joined ih =>
    obtain ⟨filter, hf, h⟩ := exists_of_bind_ok h
    obtain ⟨more, hm, h⟩ := exists_of_bind_ok h
    rw [readParts, if_pos rfl, joinFilter_path path' joined]
    simp only [hf, ih hm]
    exact h
  | case5 => cases h
  | case6 cs pieces text rest _ bracket joined ih =>
    obtain ⟨filter, hf, h⟩ := exists_of_bind_ok h
    obtain ⟨more, hm, h⟩ := exists_of_bind_ok h
    rw [readParts, if_neg bracket, if_pos rfl, joinFilter_path path' joined]
    simp only [hf, ih hm]
    exact h
  | case7 c cs pieces bracket star ih =>
    obtain ⟨more, hm, h⟩ := exists_of_bind_ok h
    rw [readParts_step bracket star, ih hm]
    exact h

theorem ofPath_dot (rest : String) :
    ofPath ("$." ++ rest) =
      (readParts ("$." ++ rest).toList (splitOutside '.' rest.toList)).map ofParts := by
  have chars : ("$." ++ rest).toList = '$' :: '.' :: rest.toList := by simp
  rw [ofPath, chars]
  rfl

end Outline

namespace PlainKey

variable {key : PlainKey} {rest : String}

/-- A path with the key in front of other pieces. -/
def before (key : PlainKey) (rest : String) : String := "$." ++ (key.text ++ "." ++ rest)

/-- In front of the rest of a path the key is a step of its own, and the rest is read as without
it. -/
def IsLocal (key : PlainKey) (rest : String) : Prop :=
  ∀ outline, Outline.ofPath ("$." ++ rest) = .ok outline →
    Outline.ofPath (key.before rest) = .ok (outline.cons (.step key.step))

theorem ofPath_before (key : PlainKey) (rest : String) :
    Outline.ofPath (key.before rest) = (Outline.readParts (key.before rest).toList
      (splitOutside '.' (key.chars ++ '.' :: rest.toList))).map Outline.ofParts := by
  have chars : (key.text ++ "." ++ rest).toList = key.chars ++ '.' :: rest.toList := by
    simp [text]
  rw [before, Outline.ofPath_dot, chars]

theorem readParts_chars (key : PlainKey) (path : List Char) (more : List (List Char)) :
    Outline.readParts path (key.chars :: more) =
      (Outline.readParts path more).map (.step key.step :: ·) := by
  obtain ⟨c, cs, chars, bracket, star, _⟩ := key.chars_eq_cons
  rw [step, chars, Outline.readParts_step bracket star]

/-- It is enough that the rest is parted as without the key. -/
theorem isLocal_of_split
    (h : splitOutside '.' (key.chars ++ '.' :: rest.toList) =
      key.chars :: splitOutside '.' rest.toList) : key.IsLocal rest := by
  intro outline read
  rw [Outline.ofPath_dot] at read
  obtain ⟨parts, hparts, rfl⟩ := exists_of_map_ok read
  rw [ofPath_before, h, readParts_chars, Outline.readParts_path _ hparts]
  rfl

/-- A rest that is rejected is then rejected behind the key too. -/
theorem exists_error_of_split
    (h : splitOutside '.' (key.chars ++ '.' :: rest.toList) =
      key.chars :: splitOutside '.' rest.toList) {e : Error}
    (rejected : Outline.ofPath ("$." ++ rest) = .error e) :
    ∃ e', Outline.ofPath (key.before rest) = .error e' := by
  rw [ofPath_before, h, readParts_chars]
  cases read : Outline.readParts (key.before rest).toList (splitOutside '.' rest.toList) with
  | error e' => exact ⟨e', rfl⟩
  | ok parts =>
    rw [Outline.ofPath_dot, Outline.readParts_path _ read] at rejected
    cases rejected

/-- Every bracket of the key is closed in it again, and every string ends that begins between
them. -/
def IsSettled (key : PlainKey) : Prop := start.after key.chars = start

theorem IsSettled.split (h : key.IsSettled) (rest : List Char) :
    splitOutside '.' (key.chars ++ '.' :: rest) = key.chars :: splitOutside '.' rest :=
  key.split_between (d := 0) h rest

/-- Without apostrophes the rest does not depend on the brackets of the key. -/
theorem split_of_no_apostrophe (h : (start.after key.chars).isClosed = true) {rest : List Char}
    (plain : '\'' ∉ rest) :
    splitOutside '.' (key.chars ++ '.' :: rest) = key.chars :: splitOutside '.' rest := by
  obtain ⟨d, between | ⟨quote, escaped, inside⟩⟩ := exists_after key.chars
  · rw [key.split_between between, splitFrom,
      marks_congr (s := Scanner.between d) (t := start) rfl rfl plain]
    rfl
  · rw [inside] at h
    cases h

/-- A key that has begun a string takes the beginning of the rest for itself. -/
theorem not_isLocal_of_open (h : (start.after key.chars).isClosed = false) {outline : Outline}
    (read : Outline.ofPath ("$." ++ rest) = .ok outline) : ¬key.IsLocal rest := by
  intro isLocal
  have local' := isLocal outline read
  obtain ⟨d, between | ⟨quote, escaped, inside⟩⟩ := exists_after key.chars
  · rw [between] at h
    cases h
  · obtain ⟨q, qs, parted⟩ := key.split_inside inside rest.toList
    obtain ⟨c, cs, chars, bracket, star, double⟩ := key.chars_eq_cons
    rw [ofPath_before, parted, chars, List.cons_append,
      Outline.readParts_step bracket star] at local'
    obtain ⟨parts, hparts, he⟩ := exists_of_map_ok local'
    obtain ⟨more, _, rfl⟩ := exists_of_map_ok hparts
    have first : Step.ofText (c :: (cs ++ '.' :: q)) = key.step :=
      (List.cons.inj (congrArg Outline.start he)).1
    have unquoted (ds : List Char) : Step.unquoted? (c :: ds) = none := by
      rw [Step.unquoted?.eq_2]
      rintro _ _ hc
      exact double (List.cons.inj hc).1
    rw [PlainKey.step, chars, Step.ofText, Step.ofText, unquoted, unquoted] at first
    have keys := String.ofList_injective (congrArg Step.key first)
    have lengths := congrArg List.length keys
    simp at lengths

theorem not_isLocal_of_length {outline whole : Outline}
    (alone : Outline.ofPath ("$." ++ rest) = .ok outline)
    (read : Outline.ofPath (key.before rest) = .ok whole)
    (lengths : List.length whole.start ≠ List.length outline.start + 1) : ¬key.IsLocal rest := by
  intro isLocal
  have same := Except.ok.inj (read.symm.trans (isLocal outline alone))
  exact lengths (congrArg (fun outline : Outline => List.length outline.start) same)

/-- Inside a bracket that the key has opened, an apostrophe begins a string. -/
theorem not_isLocal_of_opened {d : Int} (h : start.after key.chars = between d) (hd : 0 < d) :
    ¬key.IsLocal "'.x" := by
  have parted : splitFrom (between d) ['\'', '.', 'x'] = [['\'', '.', 'x']] := by
    simp only [splitFrom, marks, isOutside, next, between, hd]
    rfl
  have split : splitOutside '.' (key.chars ++ '.' :: "'.x".toList) =
      [key.chars, ['\'', '.', 'x']] := (key.split_between h _).trans (congrArg _ parted)
  have alone : Outline.ofPath ("$." ++ "'.x") = .ok ⟨[⟨"'", false⟩, ⟨"x", false⟩], []⟩ := by
    with_unfolding_all rfl
  have read : Outline.ofPath (key.before "'.x") =
      .ok ⟨[key.step, Step.ofText ['\'', '.', 'x']], []⟩ := by
    rw [ofPath_before, split, readParts_chars, Outline.readParts_step (by decide) (by decide),
      Outline.readParts]
    rfl
  exact not_isLocal_of_length alone read (show 2 ≠ 3 by decide)

/-- Behind a bracket that the key has closed but not opened, a bracket opens nothing. -/
theorem not_isLocal_of_closed {d : Int} (h : start.after key.chars = between d) (hd : d < 0) :
    ¬key.IsLocal "('.x" := by
  have below : ¬0 < d + 1 := by omega
  have parted : splitFrom (between d) ['(', '\'', '.', 'x'] = [['(', '\''], ['x']] := by
    simp [splitFrom, marks, isOutside, next, between, below]
    rfl
  have split : splitOutside '.' (key.chars ++ '.' :: "('.x".toList) =
      [key.chars, ['(', '\''], ['x']] := (key.split_between h _).trans (congrArg _ parted)
  have alone : Outline.ofPath ("$." ++ "('.x") = .ok ⟨[⟨"('.x", true⟩], []⟩ := by
    with_unfolding_all rfl
  have read : Outline.ofPath (key.before "('.x") =
      .ok ⟨[key.step, Step.ofText ['(', '\''], Step.ofText ['x']], []⟩ := by
    rw [ofPath_before, split, readParts_chars, Outline.readParts_step (by decide) (by decide),
      Outline.readParts_step (by decide) (by decide), Outline.readParts]
    rfl
  exact not_isLocal_of_length alone read (show 3 ≠ 2 by decide)

theorem isSettled_of_isLocal (h : ∀ rest, key.IsLocal rest) : key.IsSettled := by
  obtain ⟨d, between | ⟨quote, escaped, inside⟩⟩ := exists_after key.chars
  · rcases Int.lt_trichotomy d 0 with closed | rfl | opened
    · exact absurd (h _) (not_isLocal_of_closed between closed)
    · exact between
    · exact absurd (h _) (not_isLocal_of_opened between opened)
  · have alone : Outline.ofPath ("$." ++ "x") = .ok ⟨[⟨"x", false⟩], []⟩ := by with_unfolding_all rfl
    have isOpen : (start.after key.chars).isClosed = false := by
      rw [inside]
      rfl
    exact absurd (h "x") (not_isLocal_of_open isOpen alone)

theorem isSettled_iff_of_no_apostrophe (h : '\'' ∉ key.chars) :
    key.IsSettled ↔ key.chars.countP isOpening = key.chars.countP isClosing := by
  have unquoted : ∀ c ∈ key.chars, c ≠ '"' ∧ c ≠ '\'' := fun c hc =>
    ⟨(key.plain c hc).2, fun he => h (he ▸ hc)⟩
  have after : start.after key.chars = _ := after_of_unquoted unquoted 0
  rw [IsSettled, after]
  constructor
  · intro same
    have depth := congrArg Scanner.depth same
    simp only [between, start] at depth
    omega
  · intro same
    rw [same, Int.zero_add, Int.sub_self]
    rfl

/-- How the rest of a path is read does not depend on a key in front of it just where the key is
settled, as every key without brackets is. Where it is not, a rest without apostrophes is still read
as without the key, unless the key has begun a string: then no rest is. -/
theorem isLocal_iff_isSettled (key : PlainKey) :
    ((∀ rest, key.IsLocal rest) ↔ key.IsSettled) ∧
    (key.IsSettled → ∀ rest e, Outline.ofPath ("$." ++ rest) = .error e →
      ∃ e', Outline.ofPath (key.before rest) = .error e') ∧
    ((start.after key.chars).isClosed = true → ∀ rest, '\'' ∉ rest.toList → key.IsLocal rest) ∧
    ((start.after key.chars).isClosed = false → ∀ rest outline,
      Outline.ofPath ("$." ++ rest) = .ok outline → ¬key.IsLocal rest) ∧
    ((∀ c ∈ key.chars, isOpening c = false ∧ isClosing c = false) → key.IsSettled) ∧
    ('\'' ∉ key.chars →
      (key.IsSettled ↔ key.chars.countP isOpening = key.chars.countP isClosing)) := by
  refine ⟨⟨isSettled_of_isLocal, fun settled rest => isLocal_of_split (settled.split _)⟩,
    fun settled rest e => exists_error_of_split (settled.split _),
    fun closed rest plain => isLocal_of_split (split_of_no_apostrophe closed plain),
    fun isOpen rest outline => not_isLocal_of_open isOpen, fun none => ?_,
    isSettled_iff_of_no_apostrophe⟩
  exact after_of_no_brackets fun c hc => ⟨(key.plain c hc).2, none c hc⟩

/-- A bracket in a key makes a string of what follows the next apostrophe. -/
theorem not_isLocal_bracket :
    ∃ key : PlainKey, key.text = "a(" ∧ key.before "o'n.x" = "$.a(.o'n.x" ∧
      Outline.ofPath "$.o'n.x" = .ok ⟨[⟨"o'n", false⟩, ⟨"x", false⟩], []⟩ ∧
      Outline.ofPath "$.a(.o'n.x" = .ok ⟨[⟨"a(", true⟩, ⟨"o'n.x", false⟩], []⟩ ∧
      ¬key.IsLocal "o'n.x" := by
  let key : PlainKey := ⟨['a', '('], List.cons_ne_nil _ _, by simp, by simp⟩
  have alone : Outline.ofPath "$.o'n.x" = .ok ⟨[⟨"o'n", false⟩, ⟨"x", false⟩], []⟩ := by
    with_unfolding_all rfl
  have whole : key.before "o'n.x" = "$.a(.o'n.x" := by with_unfolding_all rfl
  have read : Outline.ofPath "$.a(.o'n.x" = .ok ⟨[⟨"a(", true⟩, ⟨"o'n.x", false⟩], []⟩ := by
    with_unfolding_all rfl
  exact ⟨key, rfl, whole, alone, read, not_isLocal_of_length alone (whole ▸ read) (by decide)⟩

end PlainKey

end DocumentPath
