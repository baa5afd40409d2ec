import DocumentPath.Filter.Operator
import DocumentPath.Value.Basic

namespace DocumentPath

/-- Why the text of an expression has no meaning. -/
inductive ExpressionFault
  | openString (quote : Char)
  | badNumber (text : String)
  | strayClose
  | unclosed
  | missingOperand (op : Operator)
  | unknownOperator (name : String)
  | operandCount (op : Operator) (count : Nat)
  | unreadable (text : String)
  deriving DecidableEq, Repr

def ExpressionFault.message : ExpressionFault → String
  | .openString quote => "unterminated string literal starting with " ++ quote.toString
  | .badNumber text => "invalid number '" ++ text ++ "'"
  | .strayClose => "unbalanced ')'"
  | .unclosed => "unbalanced '('"
  | .missingOperand op => "operator '" ++ op.symbol ++ "' is missing an operand"
  | .unknownOperator name => "unknown operator '" ++ name ++ "'"
  | .operandCount op count =>
    "operator '" ++ op.symbol ++ "' cannot take " ++ toString count ++ " operand(s)"
  | .unreadable text => "not a valid query: '" ++ text ++ "'"

/-- Why a path, a filter or a template is outside the language. -/
inductive QueryFault
  | noRoot (path : String)
  | noStep (path : String)
  | openFilter (text path : String)
  | emptyStep (path : String)
  | notFilter (step : String)
  | filterCharacters (step : String)
  | notJson (text : String)
  | keyCount (count : Nat)
  | unknownSymbol (symbol : String)
  | referencePath (text : String)
  | templateLeaf (kind : Value.Kind)
  | refused (reason : String)
  deriving DecidableEq, Repr

/-- What is said of any text that is not JSON. -/
def notJsonMessage : String := "<json error>"

def QueryFault.message : QueryFault → String
  | .noRoot path => "'" ++ path ++ "' does not start with '$'"
  | .noStep path => "expected '.' after '$' in '" ++ path ++ "'"
  | .openFilter text path => "unterminated filter '" ++ text ++ "' in '" ++ path ++ "'"
  | .emptyStep path => "empty step in '" ++ path ++ "'"
  | .notFilter step => "'" ++ step ++ "' is not a [?( ... )] filter"
  | .filterCharacters step => "unsupported characters in filter '" ++ step ++ "'"
  | .notJson text => "logic literal '" ++ text ++ "': " ++ notJsonMessage
  | .keyCount count => "logic object must have exactly one key, got " ++ toString count
  | .unknownSymbol symbol => "unknown logic operator '" ++ symbol ++ "'"
  | .referencePath text => "reference path must be a string, got " ++ text
  | .templateLeaf kind => "template leaves must be path strings, got " ++ kind.name
  | .refused reason => reason

/-- Why a path cannot be written through, whatever the data. -/
inductive TargetFault
  | root (path : String)
  | notElement (path : String)
  deriving DecidableEq, Repr

def TargetFault.message : TargetFault → String
  | .root path => "'" ++ path ++ "': the root has no owning container"
  | .notElement path => "'" ++ path ++ "': removal must end at a wildcard"

/-- Why a slot cannot be reached in the data at hand. -/
inductive Obstacle
  | noMember (key : String) (kind : Value.Kind)
  | outOfBounds (key : String) (length : Nat)
  | noContainer (key : String) (kind : Value.Kind)
  deriving DecidableEq, Repr

def Obstacle.message : Obstacle → String
  | .noMember key kind => "no member '" ++ key ++ "' in " ++ kind.name
  | .outOfBounds key length =>
    "index '" ++ key ++ "' out of bounds (length: " ++ toString length ++ ")"
  | .noContainer key kind => "cannot assign '" ++ key ++ "' inside " ++ kind.name

/-- What can go wrong with a query. -/
inductive Error
  | query (fault : QueryFault)
  | expression (fault : ExpressionFault)
  | target (fault : TargetFault)
  | notIterating (path : String)
  | unaddressable (path : String) (obstacle : Obstacle)
  deriving DecidableEq, Repr

def Error.message : Error → String
  | .query fault => "Query is not valid: " ++ fault.message
  | .expression fault => "Malformed expression: " ++ fault.message
  | .target fault => "Cannot mutate " ++ fault.message
  | .notIterating path => "Query does not iterate over an array: " ++ path
  | .unaddressable path obstacle => "Cannot address \x60" ++ path ++ "\x60: " ++ obstacle.message

end DocumentPath
