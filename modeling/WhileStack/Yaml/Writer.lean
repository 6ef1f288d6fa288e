import WhileStack.Text.Quoted
import WhileStack.Yaml.Scalar

/-! Writing block documents. A collection stands two columns below its key, and text is quoted only where it would
otherwise read back as something else. -/
namespace WhileStack.Yaml

inductive Tree where
  | text (s : String)
  | number (n : Int)
  | flag (b : Bool)
  | seq (items : List Tree)
  | map (entries : List (String × Tree))
deriving Repr

/-- Words for truth in the older language, which plain text must not be taken for. -/
def oldTruthWords : List String :=
  ["y", "Y", "yes", "Yes", "YES", "on", "On", "ON", "n", "N", "no", "No", "NO", "off", "Off", "OFF"]

/-- Text that a reader would take for a value of another type. -/
def readsAsOther (s : String) : Bool :=
  plainTag s ≠ .str || s ∈ oldTruthWords || isSexagesimal s.toList

/-- Characters that a document may hold as they are, outside double quotes. -/
def isDirect (c : Char) : Bool :=
  let n := c.toNat
  (0x20 ≤ n && n ≤ 0x7e) || (0xa0 ≤ n && n ≤ 0xfffd && n ≠ 0xfeff && n ≠ 0x2028 && n ≠ 0x2029)

/-- Characters that open something else at the front of a scalar. -/
def indicators : List Char := ['#', ',', '[', ']', '{', '}', '&', '*', '!', '|', '>', '\'', '"', '%', '@', '\x60']

/-- The front of the text would be taken for an indicator. -/
def opensBadly (cs : List Char) : Bool :=
  match cs with
  | '-' :: '-' :: '-' :: _ => true
  | '.' :: '.' :: '.' :: _ => true
  | c :: rest => c ∈ indicators || (c ∈ ['?', ':', '-'] && (rest.head? = none || rest.head? = some ' '))
  | [] => false

/-- A colon before a space or the end, or a `#` behind a space, would end the scalar early. -/
def endsEarly : List Char → Bool
  | [] => false
  | [c] => c = ':'
  | c :: d :: cs => (c = ':' && d = ' ') || (c = ' ' && d = '#') || endsEarly (d :: cs)

/-- Text that may stand without quotes. -/
def isPlainSafe (cs : List Char) : Bool :=
  !(opensBadly cs || endsEarly cs || cs.head? = some ' ' || cs.getLast? = some ' ')

/-- The letter that stands for a character behind a backslash. -/
def escapeLetter (c : Char) : Option Char :=
  match c.toNat with
  | 0x00 => some '0'
  | 0x1b => some 'e'
  | 0x22 => some '"'
  | 0x5c => some '\\'
  | 0x85 => some 'N'
  | 0x2028 => some 'L'
  | 0x2029 => some 'P'
  | _ => Text.controlLetter c

def upperHex (width n : Nat) : List Char := (Text.hex width n).map Char.toUpper

def escapeChar (c : Char) : List Char :=
  if isDirect c ∧ c ≠ '"' ∧ c ≠ '\\' then [c]
  else match escapeLetter c with
    | some l => ['\\', l]
    | none =>
      if c.toNat ≤ 0xff then '\\' :: 'x' :: upperHex 2 c.toNat
      else if c.toNat ≤ 0xffff then '\\' :: 'u' :: upperHex 4 c.toNat
      else '\\' :: 'U' :: upperHex 8 c.toNat

def doubleQuoted (cs : List Char) : List Char := '"' :: (cs.flatMap escapeChar ++ ['"'])

def singleQuoted (cs : List Char) : List Char :=
  '\'' :: (cs.flatMap (fun c => if c = '\'' then ['\'', '\''] else [c]) ++ ['\''])

def scalarText (s : String) : String :=
  let cs := s.toList
  String.ofList <|
    if readsAsOther s ∨ ¬ cs.all isDirect then doubleQuoted cs
    else if isPlainSafe cs then cs
    else singleQuoted cs

/-- The text of a tree that fits behind its key or dash. -/
def Tree.inline? : Tree → Option String
  | .text s => some (scalarText s)
  | .number n => some (toString n)
  | .flag b => some (if b then "true" else "false")
  | .seq [] => some "[]"
  | .map [] => some "\x7b\x7d"
  | _ => none

def indent (ls : List String) : List String := ls.map ("  " ++ ·)

/-- Puts a dash before the first line and aligns the others with it. -/
def dashed : List String → List String
  | [] => []
  | l :: ls => ("- " ++ l) :: indent ls

mutual

def Tree.lines : Tree → List String
  | .seq items => seqLines items
  | .map entries => mapLines entries
  | t => t.inline?.toList

def seqLines : List Tree → List String
  | [] => []
  | t :: ts => dashed (match t.inline? with
      | some s => [s]
      | none => t.lines) ++ seqLines ts

def mapLines : List (String × Tree) → List String
  | [] => []
  | (k, t) :: es => (match t.inline? with
      | some s => [scalarText k ++ ": " ++ s]
      | none => (scalarText k ++ ":") :: indent t.lines) ++ mapLines es

end

def Tree.render (t : Tree) : String := String.join (t.lines.map (· ++ "\n"))

end WhileStack.Yaml
