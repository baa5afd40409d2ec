import DocumentPath.Decimal.Estimate
import DocumentPath.Json.Basic
import DocumentPath.Text.Digits

namespace DocumentPath.Json

/-- The pieces of a written document. -/
inductive Token
  | openArray
  | closeArray
  | openObject
  | closeObject
  | colon
  | comma
  | scalar (j : Json)

def hexValue? (c : Char) : Option Nat :=
  if c.isDigit then some (c.toNat - 48)
  else if 'a' ≤ c ∧ c ≤ 'f' then some (c.toNat - 87)
  else if 'A' ≤ c ∧ c ≤ 'F' then some (c.toNat - 55)
  else none

def readUnit? (a b c d : Char) : Option Nat := do
  some (((← hexValue? a) * 16 + (← hexValue? b)) * 256 + (← hexValue? c) * 16 + (← hexValue? d))

/-- What the character after a backslash stands for, `u` apart. -/
def escaped? (c : Char) : Option Char :=
  if c = '"' ∨ c = '\\' ∨ c = '/' then some c
  else if c = 'b' then some '\x08'
  else if c = 'f' then some '\x0c'
  else if c = 'n' then some '\n'
  else if c = 'r' then some '\r'
  else if c = 't' then some '\t'
  else none

/-- Decodes what stands between the quotes of a string. Halves of a surrogate pair must stand
together, and control characters must be escaped. -/
def unescape? : List Char → Option (List Char)
  | [] => some []
  | '\\' :: 'u' :: a :: b :: c :: d :: cs => do
    let high ← readUnit? a b c d
    if 0xD800 ≤ high ∧ high < 0xDC00 then
      match cs with
      | '\\' :: 'u' :: a :: b :: c :: d :: cs =>
        let low ← readUnit? a b c d
        if 0xDC00 ≤ low ∧ low < 0xE000 then
          (unescape? cs).map
            (Char.ofNat (0x10000 + (high - 0xD800) * 0x400 + (low - 0xDC00)) :: ·)
        else none
      | _ => none
    else if 0xDC00 ≤ high ∧ high < 0xE000 then none
    else (unescape? cs).map (Char.ofNat high :: ·)
  | '\\' :: c :: cs => do
    let c ← escaped? c
    (unescape? cs).map (c :: ·)
  | c :: cs => if c.toNat < 0x20 ∨ c = '\\' then none else (unescape? cs).map (c :: ·)

/-- A number has no needless zero in front. -/
def isWhole (cs : List Char) : Bool :=
  cs = ['0'] || (cs ≠ [] && cs.all Char.isDigit && cs.head? ≠ some '0')

/-- Reads what may follow the whole part, a point with digits, an exponent with digits, or both, as
the digits and the exponent. -/
def readTail? : List Char → Option (List Char × Int)
  | '.' :: cs =>
    let places := cs.takeWhile Char.isDigit
    if places = [] then none
    else (Decimal.readExponent? (cs.dropWhile Char.isDigit)).map fun e => (places, e)
  | cs => (Decimal.readExponent? cs).map fun e => ([], e)

/-- The integer for a number without a point and an exponent, where 64 bits have room for it; `-0`
is no integer. -/
def integer? (negative : Bool) (n : Nat) : Option Json :=
  if negative then if 0 < n ∧ n ≤ 0x8000000000000000 then some (.integer (-(n : Int))) else none
  else if n < 0x10000000000000000 then some (.integer n)
  else none

/-- A number without its sign: an exact integer or a double. -/
def readMagnitude? (negative : Bool) (cs : List Char) : Option Json :=
  let whole := cs.takeWhile Char.isDigit
  let tail := cs.dropWhile Char.isDigit
  let double := do
    let (places, exponent) ← readTail? tail
    let x ← Decimal.estimate? whole places exponent
    some (.float (Binary64.withSign negative x))
  if !isWhole whole then none
  else if tail = [] then (integer? negative (Nat.ofDigitChars 10 whole 0)).or double
  else double

def readNumber? : List Char → Option Json
  | '-' :: cs => readMagnitude? true cs
  | cs => readMagnitude? false cs

/-- Reads a piece that is neither a mark nor a string. -/
def readWord? (cs : List Char) : Option Json :=
  if cs = "null".toList then some .null
  else if cs = "true".toList then some (.boolean true)
  else if cs = "false".toList then some (.boolean false)
  else readNumber? cs

def isSpace (c : Char) : Bool := c = ' ' || c = '\t' || c = '\n' || c = '\r'

def mark? (c : Char) : Option Token :=
  if c = '[' then some .openArray
  else if c = ']' then some .closeArray
  else if c = '\x7b' then some .openObject
  else if c = '\x7d' then some .closeObject
  else if c = ':' then some .colon
  else if c = ',' then some .comma
  else none

/-- Where a scan of the text stands: in a word or between words, or inside the quotes of a string.
What was read of it is kept backwards. -/
inductive Mode
  | word (read : List Char)
  | quoted (read : List Char) (escaped : Bool)

/-- The word that ends here, if one had begun. -/
def endWord? (read : List Char) : Option (List Token) :=
  if read = [] then some [] else (readWord? read.reverse).map fun j => [.scalar j]

def tokens? : Mode → List Char → Option (List Token)
  | .word read, [] => endWord? read
  | .quoted _ _, [] => none
  | .word read, c :: cs =>
    if c = '"' then do some ((← endWord? read) ++ (← tokens? (.quoted [] false) cs))
    else if isSpace c then do some ((← endWord? read) ++ (← tokens? (.word []) cs))
    else match mark? c with
      | some t => do some ((← endWord? read) ++ t :: (← tokens? (.word []) cs))
      | none => tokens? (.word (c :: read)) cs
  | .quoted read escaped, c :: cs =>
    if escaped then tokens? (.quoted (c :: read) false) cs
    else if c = '\\' then tokens? (.quoted (c :: read) true) cs
    else if c = '"' then do
      let s ← unescape? read.reverse
      some (.scalar (.string (String.ofList s)) :: (← tokens? (.word []) cs))
    else tokens? (.quoted (c :: read) false) cs

/-- An array or object that is not closed yet: its items so far, backwards, or its members so far
and the key whose value comes next. -/
inductive Frame
  | items (done : List Json)
  | members (done : List (String × Json)) (key : String)

/-- What must come next, inside the open frames. -/
inductive State
  | value (outer : List Frame)
  | firstItem (outer : List Frame)
  | firstKey (outer : List Frame)
  | key (outer : List Frame) (done : List (String × Json))
  | colon (outer : List Frame) (done : List (String × Json)) (key : String)
  | after (outer : List Frame) (j : Json)

/-- Begins a value. No more than `limit` frames may be open at once. -/
def beginValue (limit : Nat) (outer : List Frame) : Token → Option State
  | .scalar j => some (.after outer j)
  | .openArray => if outer.length < limit then some (.firstItem outer) else none
  | .openObject => if outer.length < limit then some (.firstKey outer) else none
  | _ => none

def State.next (limit : Nat) : State → Token → Option State
  | .value outer, t => beginValue limit outer t
  | .firstItem outer, .closeArray => some (.after outer (.array []))
  | .firstItem outer, t => beginValue limit (.items [] :: outer) t
  | .firstKey outer, .closeObject => some (.after outer (.object []))
  | .firstKey outer, .scalar (.string k) => some (.colon outer [] k)
  | .key outer done, .scalar (.string k) => some (.colon outer done k)
  | .colon outer done k, .colon => some (.value (.members done k :: outer))
  | .after (.items done :: outer) j, .comma => some (.value (.items (j :: done) :: outer))
  | .after (.items done :: outer) j, .closeArray =>
    some (.after outer (.array (j :: done).reverse))
  | .after (.members done k :: outer) j, .comma => some (.key outer (Members.set k j done))
  | .after (.members done k :: outer) j, .closeObject =>
    some (.after outer (.object (Members.set k j done)))
  | _, _ => none

/-- Documents may nest so many arrays and objects. -/
def depthLimit : Nat := 127

/-- Reads one document. Of two members with one key the later counts. -/
def read? (limit : Nat) (cs : List Char) : Option Json := do
  let tokens ← tokens? (.word []) cs
  match ← tokens.foldlM (State.next limit) (.value []) with
  | .after [] j => some j
  | _ => none

end DocumentPath.Json
