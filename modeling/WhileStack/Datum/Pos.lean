/-! Positions in a text: line and column, both counted from one. -/
namespace WhileStack.Datum

structure Pos where
  line : Nat
  col : Nat
deriving DecidableEq, Repr, Inhabited

namespace Pos

def start : Pos := ⟨1, 1⟩

/-- The position behind one character: a newline starts the next line. -/
def after (p : Pos) (c : Char) : Pos :=
  if c = '\n' then ⟨p.line + 1, 1⟩ else ⟨p.line, p.col + 1⟩

/-- The position behind a run of characters. -/
def past (p : Pos) (cs : List Char) : Pos := cs.foldl after p

def text (p : Pos) : String := toString p.line ++ ":" ++ toString p.col

end Pos
end WhileStack.Datum
