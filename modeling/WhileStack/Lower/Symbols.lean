import WhileStack.Lower.Layout
import WhileStack.Machine.Program

/-! Local slots of one function. Slots are given out in order and never again; scopes only say which names can be
seen. -/
namespace WhileStack.Lower
open Machine (Local)

/-- The names declared in one scope, the latest first. -/
abbrev Scope := List (String × Local)

structure Symbols where
  inner : Scope
  outer : List Scope
  /-- Every slot given out, the latest first. -/
  allocated : List Local
deriving DecidableEq, Repr

namespace Symbols

def empty : Symbols := ⟨[], [], []⟩

def enter (s : Symbols) : Symbols := { s with inner := [], outer := s.inner :: s.outer }

/-- Leaves the innermost scope; the outermost stays. -/
def exit (s : Symbols) : Symbols :=
  match s.outer with
  | [] => s
  | scope :: rest => { s with inner := scope, outer := rest }

def size (s : Symbols) : Nat := s.allocated.length

/-- All slots in the order in which they were given out. -/
def locals (s : Symbols) : List Local := s.allocated.reverse

/-- Gives out a slot that no name refers to. -/
def reserve (name : String) (ty : Machine.Ty) (s : Symbols) : Except LayoutError (Local × Symbols) :=
  if ty.width = 0 then .error ⟨.void, .noSlot name⟩
  else
    let l : Local := ⟨name, s.size, ty⟩
    .ok (l, { s with allocated := l :: s.allocated })

/-- Gives out a slot for a name in the innermost scope. -/
def declare (name : String) (ty : Machine.Ty) (s : Symbols) : Except LayoutError (Local × Symbols) := do
  let (l, s) ← s.reserve name ty
  .ok (l, { s with inner := (name, l) :: s.inner })

/-- The innermost binding of a name. -/
def lookup? (s : Symbols) (name : String) : Option Local :=
  (s.inner :: s.outer).findSome? fun scope => scope.lookup name

end Symbols
end WhileStack.Lower
