import WhileStack.Eval.Expr

/-! Execution of statements. A return sets a mark in the activation, and sequences and loops stop at it. -/
namespace WhileStack.Eval
open Source (Expr Stmt VarDecl Target FunDecl Program)

/-- The function whose statements are run. -/
structure Host where
  program : Program
  function : String
  call : FunDecl → List Value → Exec Value
  /-- How many rounds a loop may take. -/
  rounds : Nat

/-- What statements change besides the store. -/
structure Frame where
  /-- The open scopes, the innermost first. -/
  scopes : List Scope
  returned : Bool
  result : Value

namespace Frame

def enter (f : Frame) : Frame := { f with scopes := [] :: f.scopes }

def exit (f : Frame) : Frame := { f with scopes := f.scopes.drop 1 }

def declare (f : Frame) (name : String) (x : Value) : Frame :=
  match f.scopes with
  | [] => { f with scopes := [[(name, x)]] }
  | s :: rest => { f with scopes := ((name, x) :: s) :: rest }

end Frame

/-- Replaces the first entry of a name. -/
def setFirst (name : String) (x : Value) : Scope → Option Scope
  | [] => none
  | (n, y) :: rest => if n = name then some ((n, x) :: rest) else (setFirst name x rest).map ((n, y) :: ·)

/-- Gives the innermost variable of a name a new value. -/
def setVar (name : String) (x : Value) : List Scope → Option (List Scope)
  | [] => none
  | s :: rest =>
    match setFirst name x s with
    | some s => some (s :: rest)
    | none => (setVar name x rest).map (s :: ·)

abbrev Run := StateT Frame Exec

def view (h : Host) : Run View := do return ⟨h.program, h.function, (← get).scopes, h.call⟩

def eval (h : Host) (e : Expr) : Run Value := do evalExpr (← view h) e

def evalBool (h : Host) (e : Expr) : Run Bool := do
  let v ← view h
  needBool v e (evalExpr v e)

def inScope (body : Run Unit) : Run Unit := do
  modify Frame.enter
  body
  modify Frame.exit

/-- The first value is evaluated before the name is declared. -/
def runDecl (h : Host) (d : VarDecl) : Run Unit := do
  let x ← match d.init with
    | some e => eval h e
    | none => pure .null
  modify fun f => f.declare d.name x

def storeElement (v : View) (list : Value) (position : Expr) (x : Value) : Exec Unit := do
  match (← get).heap.list? list with
  | none => throw (.elementInto (← tagOf list))
  | some _ =>
    let i ← needInt v position (evalExpr v position)
    match (← get).heap.list? list with
    | none => throw (.elementInto (← tagOf list))
    | some (a, es) =>
      let k ← liftFault (elementAt v.function es.length i)
      modify fun s => { s with heap := s.heap.setElem a es k x }

def storeField (record : Value) (name : String) (x : Value) : Exec Unit := do
  match (← get).heap.record? record with
  | none => throw (.fieldInto name (← tagOf record))
  | some (a, fs) =>
    match (← get).heap.setField? a fs name x with
    | some heap => modify fun s => { s with heap := heap }
    | none => throw (.fieldInto name (← tagOf record))

/-- The value comes first, then the place it goes to. -/
def runAssign (h : Host) (target : Target) (value : Expr) : Run Unit := do
  let x ← eval h value
  let v ← view h
  match target with
  | .var _ name =>
    match setVar name x v.scopes with
    | some scopes => modify fun f => { f with scopes := scopes }
    | none => throw (.unboundVariable h.function name)
  | .index _ source position => do
    let l ← evalTarget v source
    storeElement v l position x
  | .field _ source name => do
    let r ← evalTarget v source
    storeField r name x

/-- A bare return keeps the result of an earlier one. -/
def runReturn (h : Host) (value : Option Expr) : Run Unit := do
  match value with
  | some e =>
    let x ← eval h e
    modify fun f => { f with returned := true, result := x }
  | none => modify fun f => { f with returned := true }

/-- A loop of the given number of rounds at most. A return is looked for behind the body, not behind the step. -/
def loop (cond : Run Bool) (body step : Run Unit) : Nat → Run Unit
  | 0 => throw .outOfBudget
  | rounds + 1 => do
    if ← cond then
      body
      if (← get).returned then return
      step
      loop cond body step rounds

mutual

def runStmt (h : Host) : Stmt → Run Unit
  | .decl d => runDecl h d
  | .assign _ target value => runAssign h target value
  | .print _ e => do
    let x ← eval h e
    modifyThe Store fun s => s.print x
  | .ifElse _ cond yes no => do
    if ← evalBool h cond then inScope (runAll h yes) else inScope (runAll h no)
  | .whileDo _ cond body => loop (evalBool h cond) (inScope (runAll h body)) (pure ()) h.rounds
  | .forDo _ init cond step body => inScope do
    runDecl h init
    loop (evalBool h cond) (inScope (runAll h body)) (runStmt h step) h.rounds
  | .ret _ value => runReturn h value
  | .expr _ e => do
    let _ ← eval h e

/-- Statements in order, up to one that returns. -/
def runAll (h : Host) : List Stmt → Run Unit
  | [] => pure ()
  | s :: rest => do
    runStmt h s
    if (← get).returned then return
    runAll h rest

end

end WhileStack.Eval
