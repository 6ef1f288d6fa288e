import WhileStack.Proofs.Source.Steps

/-! Places in the body of a function, and what stands there. -/
namespace WhileStack.Source

/-- A way from a block, a statement or a loop down to one of its parts. -/
inductive Turn where
  | item (i : Nat)
  | yes
  | no
  | init
  | cond
  | body
  | step
deriving DecidableEq, Repr

/-- The turns that lead to a place from the body of the function, the last turn first. -/
abbrev Place := List Turn

/-- What stands at a place. Of a block these are the statements that are left, from the given number on; a loop is
seen in front of its condition, with the rounds that are left. -/
inductive Part where
  | block (next : Nat) (rest : List Stmt)
  | stmt (s : Stmt)
  | decl (d : VarDecl)
  | cond (e : Expr)
  | loop (cond : Expr) (step : Option Stmt) (body : List Stmt) (rounds : Nat)

/-- Every loop inside the part has a step of one kind. -/
def Part.everyStep (P : Stmt → Bool) : Part → Bool
  | .block _ rest => Stmt.everyStepIn P rest
  | .stmt s => s.everyStep P
  | .decl _ => true
  | .cond _ => true
  | .loop _ step body _ => step.all (fun s => P s && s.everyStep P) && Stmt.everyStepIn P body

/-- What made a variable: a parameter, counted from zero, or the declaration at a place. -/
inductive Origin where
  | param (i : Nat)
  | place (p : Place)
deriving DecidableEq, Repr

end WhileStack.Source
