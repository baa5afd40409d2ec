namespace DocumentPath

/-- Follows the quoted strings of a path from character to character. A double quote opens a string
anywhere and an apostrophe inside brackets only, so that a key may have one; a backslash inside a
string takes the next character with it. -/
structure Scanner where
  quote : Option Char
  escaped : Bool
  depth : Int
  deriving DecidableEq, Repr

namespace Scanner

def start : Scanner := ⟨none, false, 0⟩

/-- The state after one more character. -/
def next (s : Scanner) (c : Char) : Scanner :=
  match s.quote with
  | some q =>
    if s.escaped then { s with escaped := false }
    else if c = '\\' then { s with escaped := true }
    else if c = q then { s with quote := none }
    else s
  | none =>
    if c = '"' ∨ (c = '\'' ∧ 0 < s.depth) then { s with quote := some c }
    else if c = '[' ∨ c = '(' ∨ c = '\x7b' then { s with depth := s.depth + 1 }
    else if c = ']' ∨ c = ')' ∨ c = '\x7d' then { s with depth := s.depth - 1 }
    else s

/-- Whether the next character stands outside every string; the quotes of a string are part of
it. -/
def isOutside (s : Scanner) (c : Char) : Bool := s.quote.isNone && (s.next c).quote.isNone

def isClosed (s : Scanner) : Bool := s.quote.isNone

/-- The characters of a text, each with whether it stands outside every string. -/
def marks (s : Scanner) : List Char → List (Char × Bool)
  | [] => []
  | c :: cs => (c, s.isOutside c) :: marks (s.next c) cs

/-- The state after a text. -/
def after (s : Scanner) (cs : List Char) : Scanner := cs.foldl next s

theorem map_fst_marks (s : Scanner) (cs : List Char) : (s.marks cs).map Prod.fst = cs := by
  induction cs generalizing s with
  | nil => rfl
  | cons c cs ih => simp [marks, ih]

theorem marks_append (s : Scanner) (cs ds : List Char) :
    s.marks (cs ++ ds) = s.marks cs ++ (s.after cs).marks ds := by
  induction cs generalizing s with
  | nil => rfl
  | cons c cs ih => simp [marks, after, ih]

end Scanner

/-- Parts a text at a separator outside every string. -/
def splitOutside (separator : Char) (cs : List Char) : List (List Char) :=
  ((Scanner.start.marks cs).splitOnP fun m => m.1 == separator && m.2).map (·.map Prod.fst)

/-- How many more opening than closing brackets of one kind stand outside every string. -/
def excess (opening closing : Char) (cs : List Char) : Int :=
  let outside := ((Scanner.start.marks cs).filter Prod.snd).map Prod.fst
  (outside.count opening : Int) - outside.count closing

/-- Whether every opening bracket has its closing one and every string its end. -/
def isBalanced (opening closing : Char) (cs : List Char) : Bool :=
  excess opening closing cs ≤ 0 && (Scanner.start.after cs).isClosed

end DocumentPath
