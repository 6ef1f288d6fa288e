import WhileStack.Text.Blank

/-! Cutting text at a character, and trimming blanks off its ends. -/
namespace WhileStack.Text

/-- The text before the first `c` and the text behind it; no second part if there is no `c`. -/
def cut (c : Char) (cs : List Char) : List Char × Option (List Char) :=
  match cs.dropWhile (· ≠ c) with
  | [] => (cs, none)
  | _ :: rest => (cs.takeWhile (· ≠ c), some rest)

/-- The fields between the `c`s, at least one. -/
def fields (c : Char) : List Char → List (List Char)
  | [] => [[]]
  | d :: ds =>
    match fields c ds with
    | [] => [[d]]
    | f :: fs => if d = c then [] :: f :: fs else (d :: f) :: fs

/-- The lines of a text. A newline ends its line, so one at the end of the text opens no further line. -/
def lines (cs : List Char) : List (List Char) :=
  let fs := fields '\n' cs
  if fs.getLast? = some [] then fs.dropLast else fs

def trimRight (p : Char → Bool) (cs : List Char) : List Char := (cs.reverse.dropWhile p).reverse

def trim (p : Char → Bool) (cs : List Char) : List Char := trimRight p (cs.dropWhile p)

end WhileStack.Text
