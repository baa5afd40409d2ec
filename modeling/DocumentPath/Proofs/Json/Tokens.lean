import Mathlib.Tactic.SplitIfs
import DocumentPath.Proofs.Infix.Lexing
import DocumentPath.Proofs.Outlines.Scanning

namespace DocumentPath.Json

open DocumentPath.Scanner

/-- The characters of numbers and of the words `null`, `true` and `false`. -/
def isScalarChar (c : Char) : Bool := c.isAlphanum || c ∈ ['-', '+', '.']

def isObject : Json → Bool
  | .object _ => true
  | _ => false

theorem isScalarChar_of_isDigit {c : Char} (h : c.isDigit = true) : isScalarChar c = true := by
  simp [isScalarChar, Char.isAlphanum, h]

theorem isScalarChar_of_readDigits? {cs : List Char} {n : Nat} (h : Text.readDigits? cs = some n) :
    ∀ c ∈ cs, isScalarChar c = true := by
  rw [Text.readDigits?] at h
  split at h
  · rename_i digits
    exact fun c hc => isScalarChar_of_isDigit (List.all_eq_true.mp digits.2 c hc)
  · cases h

theorem isScalarChar_of_readInt? {cs : List Char} {n : Int} (h : Text.readInt? cs = some n) :
    ∀ c ∈ cs, isScalarChar c = true := by
  have digits (ds : List Char) (hd : (Text.readDigits? ds).isSome = true) :
      ∀ c ∈ ds, isScalarChar c = true := by
    obtain ⟨m, hm⟩ := Option.isSome_iff_exists.mp hd
    exact isScalarChar_of_readDigits? hm
  rw [Text.readInt?.eq_def] at h
  split at h
  · refine List.forall_mem_cons.mpr ⟨rfl, digits _ ?_⟩
    cases hd : Text.readDigits? _ <;> simp_all
  · refine List.forall_mem_cons.mpr ⟨rfl, digits _ ?_⟩
    cases hd : Text.readDigits? _ <;> simp_all
  · refine digits _ ?_
    cases hd : Text.readDigits? _ <;> simp_all

theorem isScalarChar_of_readExponent? {cs : List Char} {n : Int}
    (h : Decimal.readExponent? cs = some n) : ∀ c ∈ cs, isScalarChar c = true := by
  cases cs with
  | nil => simp
  | cons c cs =>
    rw [Decimal.readExponent?] at h
    split at h
    · rename_i hc
      refine List.forall_mem_cons.mpr ⟨?_, isScalarChar_of_readInt? h⟩
      rcases hc with rfl | rfl <;> rfl
    · cases h

theorem isScalarChar_of_readTail? {cs : List Char} {tail : List Char × Int}
    (h : readTail? cs = some tail) : ∀ c ∈ cs, isScalarChar c = true := by
  rw [readTail?.eq_def] at h
  split at h
  · rename_i cs
    simp only at h
    split at h
    · cases h
    · obtain ⟨e, exponent, _⟩ := Option.map_eq_some_iff.mp h
      refine List.forall_mem_cons.mpr ⟨rfl, ?_⟩
      intro c hc
      rw [← List.takeWhile_append_dropWhile (p := Char.isDigit) (l := cs)] at hc
      rcases List.mem_append.mp hc with hc | hc
      · exact isScalarChar_of_isDigit (List.all_eq_true.mp List.all_takeWhile c hc)
      · exact isScalarChar_of_readExponent? exponent c hc
  · obtain ⟨e, exponent, _⟩ := Option.map_eq_some_iff.mp h
    exact isScalarChar_of_readExponent? exponent

theorem isObject_of_integer? {negative : Bool} {n : Nat} {j : Json}
    (h : integer? negative n = some j) : j.isObject = false := by
  rw [integer?] at h
  split at h <;> split at h <;> cases h <;> rfl

theorem readMagnitude?_scalar {negative : Bool} {cs : List Char} {j : Json}
    (h : readMagnitude? negative cs = some j) :
    (∀ c ∈ cs, isScalarChar c = true) ∧ j.isObject = false := by
  have whole : ∀ c ∈ cs.takeWhile Char.isDigit, isScalarChar c = true := fun c hc =>
    isScalarChar_of_isDigit (List.all_eq_true.mp List.all_takeWhile c hc)
  have chars (behind : ∀ c ∈ cs.dropWhile Char.isDigit, isScalarChar c = true) :
      ∀ c ∈ cs, isScalarChar c = true := by
    intro c hc
    rw [← List.takeWhile_append_dropWhile (p := Char.isDigit) (l := cs)] at hc
    exact (List.mem_append.mp hc).elim (whole c) (behind c)
  have double {x : Float → Option Json} (hx : ∀ y j, x y = some j → j.isObject = false)
      (h : (readTail? (cs.dropWhile Char.isDigit)).bind
        (fun tail => (Decimal.estimate? (cs.takeWhile Char.isDigit) tail.1 tail.2).bind x) =
          some j) : (∀ c ∈ cs, isScalarChar c = true) ∧ j.isObject = false := by
    obtain ⟨tail, htail, h⟩ := Option.bind_eq_some_iff.mp h
    obtain ⟨y, _, h⟩ := Option.bind_eq_some_iff.mp h
    exact ⟨chars (isScalarChar_of_readTail? htail), hx y j h⟩
  have float : ∀ y j, some (Json.float (Binary64.withSign negative y)) = some j →
      j.isObject = false := by
    rintro y j ⟨⟩
    rfl
  rw [readMagnitude?] at h
  simp only at h
  split at h
  · cases h
  split at h
  · rename_i none
    rcases Option.or_eq_some_iff.mp h with h | ⟨_, h⟩
    · exact ⟨chars (by simp [none]), isObject_of_integer? h⟩
    · exact double float h
  · exact double float h

/-- A word has no mark, no quote and no blank in it, and it is no object. -/
theorem readWord?_scalar {cs : List Char} {j : Json} (h : readWord? cs = some j) :
    (∀ c ∈ cs, isScalarChar c = true) ∧ j.isObject = false := by
  rw [readWord?] at h
  split at h
  · cases h
    rename_i hc
    exact ⟨hc ▸ List.all_eq_true.mp (by rfl), rfl⟩
  split at h
  · cases h
    rename_i hc
    exact ⟨hc ▸ List.all_eq_true.mp (by rfl), rfl⟩
  split at h
  · cases h
    rename_i hc
    exact ⟨hc ▸ List.all_eq_true.mp (by rfl), rfl⟩
  rw [readNumber?.eq_def] at h
  split at h
  · obtain ⟨scalar, number⟩ := readMagnitude?_scalar h
    exact ⟨List.forall_mem_cons.mpr ⟨rfl, scalar⟩, number⟩
  · exact readMagnitude?_scalar h

/-- What one character adds to the pieces, and where the scan stands behind it. -/
def advance? : Mode → Char → Option (List Token × Mode)
  | .word read, c =>
    if c = '"' then (endWord? read).map fun ts => (ts, .quoted [] false)
    else if isSpace c then (endWord? read).map fun ts => (ts, .word [])
    else match mark? c with
      | some t => (endWord? read).map fun ts => (ts ++ [t], .word [])
      | none => some ([], .word (c :: read))
  | .quoted read escaped, c =>
    if escaped then some ([], .quoted (c :: read) false)
    else if c = '\\' then some ([], .quoted (c :: read) true)
    else if c = '"' then
      (unescape? read.reverse).map fun s => ([.scalar (.string (String.ofList s))], .word [])
    else some ([], .quoted (c :: read) false)

theorem tokens?_cons (mode : Mode) (c : Char) (cs : List Char) :
    tokens? mode (c :: cs) =
      (advance? mode c).bind fun step => (tokens? step.2 cs).map (step.1 ++ ·) := by
  cases mode with
  | word read =>
    rw [tokens?, advance?]
    split
    · cases endWord? read with
      | none => rfl
      | some ts => cases h : tokens? (.quoted [] false) cs <;> simp [h]
    split
    · cases endWord? read with
      | none => rfl
      | some ts => cases h : tokens? (.word []) cs <;> simp [h]
    · cases mark? c with
      | none => cases h : tokens? (.word (c :: read)) cs <;> simp [h]
      | some t =>
        cases endWord? read with
        | none => rfl
        | some ts => cases h : tokens? (.word []) cs <;> simp [h]
  | quoted read escaped =>
    rw [tokens?, advance?]
    split
    · cases h : tokens? (.quoted (c :: read) false) cs <;> simp [h]
    split
    · cases h : tokens? (.quoted (c :: read) true) cs <;> simp [h]
    split
    · cases unescape? read.reverse with
      | none => rfl
      | some s => cases h : tokens? (.word []) cs <;> simp [h]
    · cases h : tokens? (.quoted (c :: read) false) cs <;> simp [h]

theorem exists_of_tokens?_cons {mode : Mode} {c : Char} {cs : List Char} {ts : List Token}
    (h : tokens? mode (c :: cs) = some ts) :
    ∃ here next rest, advance? mode c = some (here, next) ∧ tokens? next cs = some rest ∧
      ts = here ++ rest := by
  rw [tokens?_cons] at h
  obtain ⟨⟨here, next⟩, hstep, h⟩ := Option.bind_eq_some_iff.mp h
  obtain ⟨rest, hrest, rfl⟩ := Option.map_eq_some_iff.mp h
  exact ⟨here, next, rest, hstep, hrest, rfl⟩

/-- How many more brackets a piece opens than it closes. -/
def Token.depth : Token → Int
  | .openArray | .openObject => 1
  | .closeArray | .closeObject => -1
  | _ => 0

/-- The same for the brackets of objects alone. -/
def Token.braces : Token → Int
  | .openObject => 1
  | .closeObject => -1
  | _ => 0

def tally (f : Token → Int) : List Token → Int
  | [] => 0
  | t :: ts => f t + tally f ts

theorem tally_append (f : Token → Int) (ts us : List Token) :
    tally f (ts ++ us) = tally f ts + tally f us := by
  induction ts with
  | nil => simp [tally]
  | cons t ts ih =>
    rw [List.cons_append, tally, tally, ih]
    omega

/-- The state of a scanner where a scan for pieces stands. -/
def Mode.scanner (depth : Int) : Mode → Scanner
  | .word _ => between depth
  | .quoted _ escaped => inside '"' escaped depth

def braceExcess (cs : List Char) : Int := (cs.count '\x7b' : Int) - cs.count '\x7d'

theorem braceExcess_append (cs ds : List Char) :
    braceExcess (cs ++ ds) = braceExcess cs + braceExcess ds := by
  simp only [braceExcess, List.count_append]
  omega

theorem endWord?_scalar {read : List Char} {ts : List Token} (h : endWord? read = some ts) :
    (∀ c ∈ read, isScalarChar c = true) ∧ tally Token.depth ts = 0 ∧ tally Token.braces ts = 0 ∧
      (read ≠ [] → ∃ j, ts = [.scalar j] ∧ j.isObject = false) := by
  rw [endWord?] at h
  split at h
  · rename_i empty
    cases h
    exact ⟨by simp [empty], rfl, rfl, fun hne => absurd empty hne⟩
  · obtain ⟨j, word, rfl⟩ := Option.map_eq_some_iff.mp h
    obtain ⟨scalar, hj⟩ := readWord?_scalar word
    exact ⟨fun c hc => scalar c (by simpa using hc), rfl, rfl, fun _ => ⟨j, rfl, hj⟩⟩

theorem isScalarChar_of_tokens? {read cs : List Char} {ts : List Token}
    (h : tokens? (.word read) cs = some ts) : ∀ c ∈ read, isScalarChar c = true := by
  induction cs generalizing read ts with
  | nil => exact (endWord?_scalar h).1
  | cons c cs ih =>
    obtain ⟨here, next, rest, hstep, hrest, _⟩ := exists_of_tokens?_cons h
    have ended {f : List Token → List Token × Mode}
        (he : (endWord? read).map f = some (here, next)) : ∀ c ∈ read, isScalarChar c = true := by
      obtain ⟨ts, hword, _⟩ := Option.map_eq_some_iff.mp he
      exact (endWord?_scalar hword).1
    rw [advance?] at hstep
    split at hstep
    · exact ended hstep
    split at hstep
    · exact ended hstep
    split at hstep
    · exact ended hstep
    · cases hstep
      exact fun d hd => ih hrest d (by simp [hd])

theorem isPlain_of_isScalarChar {c : Char} (h : isScalarChar c = true) : isPlain c = true :=
  decide_eq_true (not_mem_of_class (by rfl) h)

theorem isPlain_of_isSpace {c : Char} (h : isSpace c = true) : isPlain c = true :=
  decide_eq_true (not_mem_of_class (by rfl) h)

theorem braceExcess_plain {c : Char} (h : isPlain c = true) : braceExcess [c] = 0 := by
  have h1 : c ≠ '\x7b' := by
    rintro rfl
    exact absurd h (by decide)
  have h2 : c ≠ '\x7d' := by
    rintro rfl
    exact absurd h (by decide)
  simp [braceExcess, h1, h2]

/-- A plain character between strings changes neither depth nor mode. -/
theorem scan_plain {c : Char} (h : isPlain c = true) (d : Int) :
    (between d).next c = between d ∧ braceExcess ((between d).outside [c]) = 0 := by
  have same : (between d).next c = between d := next_between (.inl h)
  refine ⟨same, ?_⟩
  rw [outside_cons, isOutside_between same]
  simpa [outside, marks] using braceExcess_plain h

/-- A mark changes the depth as its piece does. -/
theorem scan_mark {c : Char} {t : Token} (h : mark? c = some t) (d : Int) :
    (between d).next c = between (d + t.depth) ∧
      braceExcess ((between d).outside [c]) = t.braces := by
  rw [mark?] at h
  split_ifs at h <;> subst_vars <;> cases h <;>
    exact ⟨by simp [between, next, Token.depth, Int.sub_eq_add_neg], rfl⟩

theorem braceExcess_inside (quote : Char) (escaped : Bool) (d : Int) (c : Char) :
    braceExcess ((inside quote escaped d).outside [c]) = 0 := by
  rw [outside_cons, isOutside_inside]
  rfl

theorem scan_advance_word {read : List Char} {next : Mode} {c : Char} {cs : List Char}
    {here rest : List Token} (h : advance? (.word read) c = some (here, next))
    (hr : tokens? next cs = some rest) (d : Int) :
    (between d).next c = next.scanner (d + tally Token.depth here) ∧
      braceExcess ((between d).outside [c]) = tally Token.braces here := by
  rw [advance?] at h
  split at h
  · rename_i hc
    subst hc
    obtain ⟨ts, word, he⟩ := Option.map_eq_some_iff.mp h
    cases he
    obtain ⟨_, depth, braces, _⟩ := endWord?_scalar word
    rw [depth, braces, Int.add_zero]
    exact ⟨rfl, rfl⟩
  split at h
  · rename_i space
    obtain ⟨ts, word, he⟩ := Option.map_eq_some_iff.mp h
    cases he
    obtain ⟨_, depth, braces, _⟩ := endWord?_scalar word
    rw [depth, braces, Int.add_zero]
    exact scan_plain (isPlain_of_isSpace space) d
  split at h
  · rename_i t mark
    obtain ⟨ts, word, he⟩ := Option.map_eq_some_iff.mp h
    cases he
    obtain ⟨_, depth, braces, _⟩ := endWord?_scalar word
    rw [tally_append, tally_append, depth, braces]
    simpa [tally, Mode.scanner] using scan_mark mark d
  · cases h
    -- that the character may stand in a word shows only where the word ends
    have scalar := isScalarChar_of_tokens? hr c (by simp)
    simpa [tally, Mode.scanner] using scan_plain (isPlain_of_isScalarChar scalar) d

theorem scan_advance_quoted {read : List Char} {escaped : Bool} {next : Mode} {c : Char}
    {here : List Token} (h : advance? (.quoted read escaped) c = some (here, next)) (d : Int) :
    (inside '"' escaped d).next c = next.scanner (d + tally Token.depth here) ∧
      braceExcess ((inside '"' escaped d).outside [c]) = tally Token.braces here := by
  have hidden := braceExcess_inside '"' escaped d c
  rw [advance?] at h
  split at h
  · rename_i he
    subst he
    cases h
    exact ⟨by simp [Mode.scanner, inside, Scanner.next, tally], hidden⟩
  rename_i he
  rw [Bool.not_eq_true] at he
  subst he
  split at h
  · rename_i hc
    subst hc
    cases h
    exact ⟨by simp [Mode.scanner, inside, Scanner.next, tally], hidden⟩
  split at h
  · rename_i hc
    subst hc
    obtain ⟨s, _, he⟩ := Option.map_eq_some_iff.mp h
    cases he
    exact ⟨by simp [Mode.scanner, inside, between, Scanner.next, tally, Token.depth], hidden⟩
  · rename_i h1 h2
    cases h
    exact ⟨by simp [Mode.scanner, inside, Scanner.next, tally, h1, h2], hidden⟩

/-- The scanner of paths keeps step with the scan for pieces. -/
theorem scan_advance {mode next : Mode} {c : Char} {cs : List Char} {here rest : List Token}
    (h : advance? mode c = some (here, next)) (hr : tokens? next cs = some rest) (d : Int) :
    (mode.scanner d).next c = next.scanner (d + tally Token.depth here) ∧
      braceExcess ((mode.scanner d).outside [c]) = tally Token.braces here := by
  cases mode with
  | word read => exact scan_advance_word h hr d
  | quoted read escaped => exact scan_advance_quoted h d

theorem scan_tokens? {mode : Mode} {u v : List Char} {ts : List Token}
    (h : tokens? mode (u ++ v) = some ts) : ∃ before behind rest, ts = before ++ rest ∧
      tokens? behind v = some rest ∧ ∀ d,
        (mode.scanner d).after u = behind.scanner (d + tally Token.depth before) ∧
        braceExcess ((mode.scanner d).outside u) = tally Token.braces before := by
  induction u generalizing mode ts with
  | nil => exact ⟨[], mode, ts, rfl, h, fun d => ⟨by simp [after, tally], rfl⟩⟩
  | cons c u ih =>
    obtain ⟨here, next, later, hstep, hlater, rfl⟩ := exists_of_tokens?_cons h
    obtain ⟨before, behind, rest, rfl, hrest, scan⟩ := ih hlater
    refine ⟨here ++ before, behind, rest, by rw [List.append_assoc], hrest, fun d => ?_⟩
    obtain ⟨first, braces⟩ := scan_advance hstep hlater d
    obtain ⟨same, more⟩ := scan (d + tally Token.depth here)
    have split : (mode.scanner d).outside (c :: u) =
        (mode.scanner d).outside [c] ++ ((mode.scanner d).next c).outside u :=
      outside_append _ [c] u
    rw [after_cons, first, same, split, braceExcess_append, braces, first, more, tally_append,
      tally_append, Int.add_assoc]
    exact ⟨rfl, rfl⟩

/-- Where a scan stands in a word or in a string. -/
def Mode.IsPending : Mode → Prop
  | .word read => read ≠ []
  | .quoted _ _ => True

theorem isPending_word (c : Char) (read : List Char) : (Mode.word (c :: read)).IsPending :=
  List.cons_ne_nil c read

theorem isPending_quoted (read : List Char) (escaped : Bool) :
    (Mode.quoted read escaped).IsPending := trivial

/-- One character either goes on with what has begun or ends it as a scalar. -/
theorem advance?_isPending {mode next : Mode} {c : Char} {here : List Token} (hp : mode.IsPending)
    (h : advance? mode c = some (here, next)) :
    here = [] ∧ next.IsPending ∨ ∃ j rest, here = .scalar j :: rest ∧ j.isObject = false := by
  cases mode with
  | word read =>
    have ended {f : List Token → List Token × Mode} (more : List Token)
        (hf : ∀ ts, (f ts).1 = ts ++ more) (he : (endWord? read).map f = some (here, next)) :
        ∃ j rest, here = .scalar j :: rest ∧ j.isObject = false := by
      obtain ⟨ts, hword, he⟩ := Option.map_eq_some_iff.mp he
      obtain ⟨j, rfl, hj⟩ := (endWord?_scalar hword).2.2.2 hp
      exact ⟨j, more, (congrArg Prod.fst he).symm.trans (hf _), hj⟩
    rw [advance?] at h
    split at h
    · exact .inr (ended [] (fun ts => (List.append_nil ts).symm) h)
    split at h
    · exact .inr (ended [] (fun ts => (List.append_nil ts).symm) h)
    split at h
    · exact .inr (ended _ (fun _ => rfl) h)
    · cases h
      exact .inl ⟨rfl, isPending_word c read⟩
  | quoted read escaped =>
    rw [advance?] at h
    split at h
    · cases h
      exact .inl ⟨rfl, isPending_quoted _ _⟩
    split at h
    · cases h
      exact .inl ⟨rfl, isPending_quoted _ _⟩
    split at h
    · obtain ⟨s, _, he⟩ := Option.map_eq_some_iff.mp h
      cases he
      exact .inr ⟨_, [], rfl, rfl⟩
    · cases h
      exact .inl ⟨rfl, isPending_quoted _ _⟩

/-- What has begun ends as a scalar. -/
theorem exists_scalar_of_isPending {mode : Mode} {cs : List Char} {ts : List Token}
    (hp : mode.IsPending) (h : tokens? mode cs = some ts) :
    ∃ j rest, ts = .scalar j :: rest ∧ j.isObject = false := by
  induction cs generalizing mode ts with
  | nil =>
    cases mode with
    | word read =>
      obtain ⟨j, rfl, hj⟩ := (endWord?_scalar h).2.2.2 hp
      exact ⟨j, [], rfl, hj⟩
    | quoted read escaped => cases h
  | cons c cs ih =>
    obtain ⟨here, next, rest, hstep, hrest, rfl⟩ := exists_of_tokens?_cons h
    rcases advance?_isPending hp hstep with ⟨rfl, pending⟩ | ⟨j, more, rfl, hj⟩
    · exact ih pending hrest
    · exact ⟨j, more ++ rest, rfl, hj⟩

theorem exists_scalar_of_dot {mode : Mode} {cs : List Char} {ts : List Token}
    (h : tokens? mode ('.' :: cs) = some ts) :
    ∃ j rest, ts = .scalar j :: rest ∧ j.isObject = false := by
  obtain ⟨here, next, rest, hstep, hrest, rfl⟩ := exists_of_tokens?_cons h
  have pending : here = [] ∧ next.IsPending := by
    cases mode with
    | word read =>
      cases hstep
      exact ⟨rfl, List.cons_ne_nil _ _⟩
    | quoted read escaped =>
      cases escaped <;> cases hstep <;> exact ⟨rfl, trivial⟩
  rw [pending.1]
  exact exists_scalar_of_isPending pending.2 hrest

theorem isBlank_mark {c : Char} (h : Text.isBlank c = true) : c ≠ '"' ∧ mark? c = none := by
  have other : c ∉ ['"', '[', ']', '\x7b', '\x7d', ':', ','] := not_mem_of_class (by rfl) h
  simp only [List.mem_cons, not_or] at other
  obtain ⟨h1, h2, h3, h4, h5, h6, h7, _⟩ := other
  exact ⟨h1, by simp [mark?, h2, h3, h4, h5, h6, h7]⟩

theorem not_isBlank_of_isScalarChar {c : Char} (h : isScalarChar c = true) :
    Text.isBlank c = false :=
  Infix.isBlank_of_class (by decide +kernel) h

/-- Between words a blank is passed over. -/
theorem advance?_blank {read cs : List Char} {c : Char} {ts : List Token}
    (h : tokens? (.word read) (c :: cs) = some ts) (hc : Text.isBlank c = true) :
    ∃ here rest, endWord? read = some here ∧ tokens? (.word []) cs = some rest ∧
      ts = here ++ rest := by
  obtain ⟨here, next, rest, hstep, hrest, rfl⟩ := exists_of_tokens?_cons h
  obtain ⟨quote, mark⟩ := isBlank_mark hc
  rw [advance?, if_neg quote] at hstep
  split at hstep
  · obtain ⟨words, hw, he⟩ := Option.map_eq_some_iff.mp hstep
    cases he
    exact ⟨_, rest, hw, hrest, rfl⟩
  · rw [mark] at hstep
    cases hstep
    have := not_isBlank_of_isScalarChar (isScalarChar_of_tokens? hrest c (by simp))
    rw [hc] at this
    cases this

theorem tokens?_blanks {gap cs : List Char} {ts : List Token}
    (hgap : ∀ c ∈ gap, Text.isBlank c = true) (h : tokens? (.word []) (gap ++ cs) = some ts) :
    tokens? (.word []) cs = some ts := by
  induction gap generalizing ts with
  | nil => exact h
  | cons c gap ih =>
    obtain ⟨here, rest, hword, hrest, rfl⟩ := advance?_blank h (hgap c (by simp))
    cases hword
    exact ih (fun d hd => hgap d (by simp [hd])) hrest

theorem tokens?_quoted_blanks {gap read : List Char} {escaped : Bool}
    (hgap : ∀ c ∈ gap, Text.isBlank c = true) : tokens? (.quoted read escaped) gap = none := by
  induction gap generalizing read escaped with
  | nil => rfl
  | cons c gap ih =>
    have quote := (isBlank_mark (hgap c (by simp))).1
    have rest : ∀ d ∈ gap, Text.isBlank d = true := fun d hd => hgap d (by simp [hd])
    simp [tokens?, ih rest, quote]

/-- Blanks behind a document do not matter. -/
theorem tokens?_append_blanks {mode : Mode} {cs gap : List Char} {ts : List Token}
    (hgap : ∀ c ∈ gap, Text.isBlank c = true) (h : tokens? mode (cs ++ gap) = some ts) :
    tokens? mode cs = some ts := by
  induction cs generalizing mode ts with
  | cons c cs ih =>
    obtain ⟨here, next, rest, hstep, hrest, rfl⟩ := exists_of_tokens?_cons h
    rw [tokens?_cons, hstep, Option.bind_some, ih hrest]
    rfl
  | nil =>
    cases mode with
    | quoted read escaped =>
      rw [List.nil_append, tokens?_quoted_blanks hgap] at h
      cases h
    | word read =>
      cases gap with
      | nil => exact h
      | cons c gap =>
        obtain ⟨here, rest, hword, hrest, rfl⟩ := advance?_blank h (hgap c (by simp))
        rw [← List.append_nil gap] at hrest
        have none := tokens?_blanks (fun d hd => hgap d (by simp [hd])) hrest
        cases none
        rw [List.append_nil]
        exact hword

end DocumentPath.Json
