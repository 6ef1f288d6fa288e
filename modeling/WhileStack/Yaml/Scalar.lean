import WhileStack.Yaml.Number
import WhileStack.Yaml.Timestamp

/-! Scalars and the types that plain ones read as. -/
namespace WhileStack.Yaml

inductive Tag where
  | null
  | bool
  | int
  | float
  | timestamp
  | str
deriving DecidableEq, Repr

def Tag.text : Tag → String
  | .null => "!!null"
  | .bool => "!!bool"
  | .int => "!!int"
  | .float => "!!float"
  | .timestamp => "!!timestamp"
  | .str => "!!str"

/-- Text of a document, written plain or between quotes. -/
structure Scalar where
  text : String
  isPlain : Bool
deriving DecidableEq, Repr

def nullWords : List String := ["", "~", "null", "Null", "NULL"]
def trueWords : List String := ["true", "True", "TRUE"]
def falseWords : List String := ["false", "False", "FALSE"]

/-- The spellings of what is no number and of the infinities. -/
def floatWords : List String :=
  [".nan", ".NaN", ".NAN", ".inf", ".Inf", ".INF", "+.inf", "+.Inf", "+.INF", "-.inf", "-.Inf", "-.INF"]

/-- The type of a plain scalar that starts like a number. Underscores between its characters do not count. -/
def numberTag (cs : List Char) : Tag :=
  let bare := cs.filter (· ≠ '_')
  if isTimestamp cs then .timestamp
  else if isInteger bare then .int
  else if isFloat (dropSign bare) then .float
  else .str

/-- The type of a plain scalar. -/
def plainTag (s : String) : Tag :=
  if s ∈ nullWords then .null
  else if s ∈ trueWords ∨ s ∈ falseWords then .bool
  else if s ∈ floatWords then .float
  else match s.toList with
    | [] => .null
    | c :: cs =>
      if c.isDigit ∨ c = '+' ∨ c = '-' then numberTag (c :: cs)
      else if c = '.' then
        if Text.underscoresPart Char.isDigit false cs ∧ isFloat ('.' :: cs.filter (· ≠ '_')) then .float else .str
      else .str

def Scalar.tag (s : Scalar) : Tag := if s.isPlain then plainTag s.text else .str

end WhileStack.Yaml
