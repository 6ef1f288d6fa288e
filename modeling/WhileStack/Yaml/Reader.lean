import WhileStack.Yaml.Scalar

/-! Reading flat documents: entries of one line each, a sequence, or a lone scalar. What a collection holds is not
kept, for nobody looks inside. -/
namespace WhileStack.Yaml
open Text

inductive Node where
  | scalar (s : Scalar)
  | seq
  | map
deriving DecidableEq, Repr

def Node.isNull : Node → Bool
  | .scalar s => s.tag = .null
  | _ => false

/-- An entry of the top-level mapping, with the line it stands on. -/
structure Entry where
  line : Nat
  key : Scalar
  value : Node
deriving DecidableEq, Repr

inductive Document where
  | entries (es : List Entry)
  | lone (line : Nat) (node : Node)
deriving DecidableEq, Repr

def isGap (c : Char) : Bool := c = ' ' || c = '\t' || c = '\r'

/-- A plain scalar up to a comment, which a `#` behind a gap opens. -/
def beforeComment (afterGap : Bool) : List Char → List Char
  | [] => []
  | c :: cs => if c = '#' ∧ afterGap then [] else c :: beforeComment (isGap c) cs

/-- The character that a backslash and one letter stand for. -/
def escaped (c : Char) : Char :=
  match c with
  | '0' => '\x00'
  | 'a' => '\x07'
  | 'b' => '\x08'
  | 't' => '\t'
  | 'n' => '\n'
  | 'v' => '\x0b'
  | 'f' => '\x0c'
  | 'r' => '\r'
  | 'e' => '\x1b'
  | 'N' => '\u0085'
  | '_' => '\u00a0'
  | 'L' => '\u2028'
  | 'P' => '\u2029'
  | c => c

def hexChar (ds : List Char) : Char :=
  Char.ofNat (ds.foldl (fun n c => 16 * n + (digitValue? c).getD 0) 0)

/-- The text between double quotes, and what follows the closing one. -/
def readDouble : List Char → List Char × List Char
  | [] => ([], [])
  | '"' :: cs => ([], cs)
  | '\\' :: 'x' :: a :: b :: cs => let (t, r) := readDouble cs; (hexChar [a, b] :: t, r)
  | '\\' :: 'u' :: a :: b :: c :: d :: cs => let (t, r) := readDouble cs; (hexChar [a, b, c, d] :: t, r)
  | '\\' :: c :: cs => let (t, r) := readDouble cs; (escaped c :: t, r)
  | c :: cs => let (t, r) := readDouble cs; (c :: t, r)

/-- The text between single quotes, where a quote is written twice, and what follows the closing one. -/
def readSingle : List Char → List Char × List Char
  | [] => ([], [])
  | '\'' :: '\'' :: cs => let (t, r) := readSingle cs; ('\'' :: t, r)
  | '\'' :: cs => ([], cs)
  | c :: cs => let (t, r) := readSingle cs; (c :: t, r)

def quoted (r : List Char × List Char) : Scalar := ⟨String.ofList r.1, false⟩

def plain (cs : List Char) : Scalar := ⟨String.ofList (trim isGap (beforeComment true cs)), true⟩

def readNode (cs : List Char) : Node :=
  match cs.dropWhile isGap with
  | '"' :: ds => .scalar (quoted (readDouble ds))
  | '\'' :: ds => .scalar (quoted (readSingle ds))
  | '[' :: _ => .seq
  | '{' :: _ => .map
  | ds => .scalar (plain ds)

/-- What follows the colon that ends a key: a gap or the end of the line comes right behind it. -/
def afterColon? : List Char → Option (List Char)
  | ':' :: [] => some []
  | ':' :: c :: cs => if isGap c then some (c :: cs) else none
  | _ => none

/-- A plain key and the text behind its colon. -/
def readPlainKey : List Char → Option (List Char × List Char)
  | [] => none
  | c :: cs =>
    match afterColon? (c :: cs) with
    | some rest => some ([], rest)
    | none => (readPlainKey cs).map fun (k, rest) => (c :: k, rest)

/-- A key, plain or quoted, and the text behind its colon. -/
def readKey (cs : List Char) : Option (Scalar × List Char) :=
  let behind (r : List Char × List Char) : Option (Scalar × List Char) :=
    (afterColon? (r.2.dropWhile isGap)).map fun rest => (quoted r, rest)
  match cs with
  | '"' :: ds => behind (readDouble ds)
  | '\'' :: ds => behind (readSingle ds)
  | ds => (readPlainKey (beforeComment true ds)).bind fun (k, _) =>
      (afterColon? (ds.drop k.length)).map fun rest => (plain k, rest)

/-- A line without the gap in front of it; comments and empty lines are no lines. -/
def content? (cs : List Char) : Option (List Char) :=
  match cs.dropWhile isGap with
  | [] => none
  | '#' :: _ => none
  | ds => some ds

/-- The lines that say something, each with its number. -/
def contentLines (cs : List Char) : List (Nat × List Char) :=
  ((lines cs).zipIdx 1).filterMap fun (l, n) => (content? l).map fun ds => (n, ds)

def isItem : List Char → Bool
  | ['-'] => true
  | '-' :: c :: _ => isGap c
  | _ => false

/-- The entries of a mapping in braces on one line. -/
def flowEntries (line : Nat) (cs : List Char) : List Entry :=
  (fields ',' (cs.takeWhile (· ≠ '}'))).filterMap fun f => do
    let (key, value) ← readKey (← content? f)
    return ⟨line, key, readNode value⟩

/-- The entries of lines. -/
def blockEntries (ls : List (Nat × List Char)) : List Entry :=
  ls.filterMap fun (line, l) => (readKey l).map fun (key, value) => ⟨line, key, readNode value⟩

/-- A scalar that stands alone. The lines of a plain one are folded into one. -/
def readLone (ls : List (Nat × List Char)) (first : List Char) : Node :=
  match readNode first with
  | .scalar ⟨_, true⟩ => .scalar ⟨" ".intercalate (ls.map fun (_, l) => (plain l).text), true⟩
  | node => node

/-- The document of a text. Its first line tells its kind. -/
def read (text : String) : Document :=
  match contentLines text.toList with
  | [] => .entries []
  | (line, first) :: rest =>
    let all := (line, first) :: rest
    if isItem first ∨ first.head? = some '[' then .lone line .seq
    else if first.head? = some '{' then .entries (flowEntries line first.tail)
    else if (readKey first).isSome then .entries (blockEntries all)
    else .lone line (readLone all first)

end WhileStack.Yaml
