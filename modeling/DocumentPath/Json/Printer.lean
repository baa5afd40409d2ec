import DocumentPath.Decimal.Layout
import DocumentPath.Json.Conversion

namespace DocumentPath.Json

def hexDigit (n : Nat) : Char := if n < 10 then Char.ofNat (48 + n) else Char.ofNat (87 + n)

/-- Quotes, backslashes and control characters are escaped and nothing else. -/
def escape (c : Char) : List Char :=
  if c = '"' then ['\\', '"']
  else if c = '\\' then ['\\', '\\']
  else if c = '\x08' then ['\\', 'b']
  else if c = '\x0c' then ['\\', 'f']
  else if c = '\n' then ['\\', 'n']
  else if c = '\r' then ['\\', 'r']
  else if c = '\t' then ['\\', 't']
  else if c.toNat < 0x20 then
    ['\\', 'u', '0', '0', hexDigit (c.toNat / 16), hexDigit (c.toNat % 16)]
  else [c]

def quote (s : String) : String := String.ofList ('"' :: s.toList.flatMap escape ++ ['"'])

/-- Text of a number or of any other value without parts. -/
def scalarText : Json → String
  | .null => "null"
  | .boolean b => if b then "true" else "false"
  | .integer n => String.ofList (Text.signedDecimal n)
  | .float x => String.ofList (Decimal.Layout.document.text x)
  | .string s => quote s
  | .array _ => "[]"
  | .object _ => "\x7b\x7d"

mutual

/-- Text without any blanks. -/
def compact : Json → String
  | .array items => "[" ++ compactItems items ++ "]"
  | .object members => "\x7b" ++ compactMembers members ++ "\x7d"
  | j => scalarText j

def compactItems : List Json → String
  | [] => ""
  | [j] => compact j
  | j :: js => compact j ++ "," ++ compactItems js

def compactMembers : List (String × Json) → String
  | [] => ""
  | [(key, j)] => quote key ++ ":" ++ compact j
  | (key, j) :: ms => quote key ++ ":" ++ compact j ++ "," ++ compactMembers ms

end

mutual

/-- Text with one item or member on a line; `margin` is the line break with the indentation of the
enclosing line. -/
def pretty (margin : String) : Json → String
  | .array [] => "[]"
  | .array (j :: js) =>
    "[" ++ margin ++ "  " ++ pretty (margin ++ "  ") j ++ prettyItems margin js ++ margin ++ "]"
  | .object [] => "\x7b\x7d"
  | .object ((key, j) :: ms) =>
    "\x7b" ++ margin ++ "  " ++ quote key ++ ": " ++ pretty (margin ++ "  ") j ++
      prettyMembers margin ms ++ margin ++ "\x7d"
  | j => scalarText j

def prettyItems (margin : String) : List Json → String
  | [] => ""
  | j :: js => "," ++ margin ++ "  " ++ pretty (margin ++ "  ") j ++ prettyItems margin js

def prettyMembers (margin : String) : List (String × Json) → String
  | [] => ""
  | (key, j) :: ms =>
    "," ++ margin ++ "  " ++ quote key ++ ": " ++ pretty (margin ++ "  ") j ++
      prettyMembers margin ms

end

/-- Text of a document, either on one line or indented by two blanks for each level. -/
def render (indented : Bool) (j : Json) : String :=
  if indented then pretty "\n" j else compact j

end DocumentPath.Json

namespace DocumentPath.Value

/-- Text of a value inside other text: a string stands for itself and a number has no needless
point. -/
def text : Value → String
  | .string s => s
  | .float x => String.ofList (Decimal.Layout.plain.text x)
  | v => (Json.ofValue v).compact

end DocumentPath.Value
