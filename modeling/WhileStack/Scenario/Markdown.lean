import WhileStack.Text.Fields

/-! The parts of a Markdown document that scenarios are made of: headings marked by `#`, and fenced code. All other
text is prose and left out. -/
namespace WhileStack.Markdown
open Text

/-- Fenced code. Every line of its content ends in a newline. -/
structure Fence where
  language : String
  content : String
  /-- The line its content starts on, counted from one; also one if there is no content. -/
  line : Nat
deriving DecidableEq, Repr

/-- The content of a fence without the newlines at its end. -/
def Fence.trimmed (f : Fence) : String := String.ofList (trimRight (· = '\n') f.content.toList)

inductive Block where
  | heading (text : String)
  | fence (f : Fence)
deriving DecidableEq, Repr

def isSpace (c : Char) : Bool := c = ' ' || (9 ≤ c.toNat && c.toNat ≤ 13)

/-- The spaces a line starts with, and the rest of it. Four of them would make it no heading and no fence. -/
def indented? (cs : List Char) : Option (Nat × List Char) :=
  let depth := (cs.takeWhile (· = ' ')).length
  if depth < 4 then some (depth, cs.drop depth) else none

/-- Takes off a closing run of `#`, which must stand apart from the text. -/
def dropClosing (cs : List Char) : List Char :=
  let body := trimRight (· = '#') cs
  if body = cs then cs
  else match body.getLast? with
    | none => []
    | some c => if isSpace c then trimRight isSpace body else cs

/-- The text of a heading: one to six `#` and a space come before it. -/
def heading? (line : List Char) : Option String := do
  let (_, cs) ← indented? line
  let level := (cs.takeWhile (· = '#')).length
  guard (1 ≤ level ∧ level ≤ 6)
  let rest := cs.drop level
  guard ((rest.head?.map isSpace).getD true)
  return String.ofList (dropClosing (trim isSpace rest))

/-- A fence whose end is yet to come, with the lines seen so far, latest first. -/
structure Opened where
  mark : Char
  width : Nat
  indent : Nat
  language : String
  /-- The line of the fence itself. -/
  line : Nat
  content : List (List Char)
deriving DecidableEq, Repr

/-- A line that opens a fence: at least three backquotes or tildes, then the info text, whose first word is the
language. Backquotes in the info text make the line prose. -/
def opened? (n : Nat) (line : List Char) : Option Opened := do
  let (depth, cs) ← indented? line
  let mark ← cs.head?
  guard (mark = '\x60' ∨ mark = '~')
  let width := (cs.takeWhile (· = mark)).length
  guard (3 ≤ width)
  let info := trim isSpace (cs.drop width)
  guard (¬ (mark = '\x60' ∧ '\x60' ∈ info))
  return ⟨mark, width, depth, String.ofList (info.takeWhile (· ≠ ' ')), n, []⟩

/-- A line of the fence's own mark, at least as long as the opening one. -/
def Opened.isClosedBy (o : Opened) (line : List Char) : Bool :=
  match indented? line with
  | none => false
  | some (_, cs) =>
    o.width ≤ (cs.takeWhile (· = o.mark)).length && (cs.dropWhile (· = o.mark)).all isSpace

/-- A line of content, less the spaces that the fence itself was indented by. -/
def Opened.push (o : Opened) (line : List Char) : Opened :=
  let depth := min o.indent (line.takeWhile (· = ' ')).length
  { o with content := line.drop depth :: o.content }

def Opened.close (o : Opened) : Fence :=
  let content := o.content.reverse.flatMap (· ++ ['\n'])
  ⟨o.language, String.ofList content, if o.content.isEmpty then 1 else o.line + 1⟩

/-- The blocks of numbered lines. The end of the document closes an open fence. -/
def blocksFrom : Option Opened → List (List Char × Nat) → List Block
  | none, [] => []
  | some o, [] => [.fence o.close]
  | some o, (l, _) :: ls =>
    if o.isClosedBy l then .fence o.close :: blocksFrom none ls else blocksFrom (some (o.push l)) ls
  | none, (l, n) :: ls =>
    match heading? l with
    | some t => .heading t :: blocksFrom none ls
    | none => blocksFrom (opened? n l) ls

def blocks (text : String) : List Block := blocksFrom none ((lines text.toList).zipIdx 1)

end WhileStack.Markdown
