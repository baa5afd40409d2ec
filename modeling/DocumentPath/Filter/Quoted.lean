import DocumentPath.Error

namespace DocumentPath.Filter

/-- Text whose quoted strings were taken out: the `n`-th stands as `#n` in the text. -/
structure Extraction where
  text : List Char
  strings : List String
  deriving DecidableEq, Repr

/-- The place of the `n`-th literal in the text. -/
def placeholder (n : Nat) : List Char := '#' :: Text.decimal n

def isQuote (c : Char) : Bool := c = '"' || c = '\''

/-- Where a scan stands: between the strings, or inside one, whose characters so far are kept
backwards. A backslash keeps the character after it as it is. -/
inductive Place
  | plain
  | inside (quote : Char) (read : List Char) (escaped : Bool)

/-- Takes the strings out of a text in which `count` others were found before. -/
def extractFrom (count : Nat) : Place → List Char → Except ExpressionFault Extraction
  | .plain, [] => .ok ⟨[], []⟩
  | .inside quote _ _, [] => .error (.openString quote)
  | .plain, c :: cs =>
    if isQuote c then extractFrom count (.inside c [] false) cs
    else (extractFrom count .plain cs).map fun e => ⟨c :: e.text, e.strings⟩
  | .inside quote read escaped, c :: cs =>
    if escaped then extractFrom count (.inside quote (c :: read) false) cs
    else if c = '\\' then extractFrom count (.inside quote read true) cs
    else if c = quote then
      (extractFrom (count + 1) .plain cs).map fun e =>
        ⟨placeholder count ++ e.text, String.ofList read.reverse :: e.strings⟩
    else extractFrom count (.inside quote (c :: read) false) cs

def extract (cs : List Char) : Except ExpressionFault Extraction := extractFrom 0 .plain cs

end DocumentPath.Filter
