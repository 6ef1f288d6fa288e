import WhileStack.Lower.Expr

/-! Code of statements. It leaves the stack as it found it. -/
namespace WhileStack.Lower
open Source (Expr Stmt VarDecl Target Loc)
open Machine (Code Instr)

/-- The function that statements belong to. -/
structure Host where
  env : Env
  function : String
  sig : Machine.Signature

structure State where
  labels : Nat
  symbols : Symbols

abbrev StmtLowering := StateT State (Except Cause)

/-- Lowers a part that declares nothing. -/
def withView {α : Type} (h : Host) (f : View → Lowering α) : StmtLowering α := fun s => do
  let (a, labels) ← (f ⟨h.env, s.symbols, h.sig.isStatic⟩).run s.labels
  return (a, { s with labels := labels })

def declareLocal (name : String) (ty : Machine.Ty) : StmtLowering Machine.Local := fun s =>
  match s.symbols.declare name ty with
  | .ok (l, symbols) => .ok (l, { s with symbols := symbols })
  | .error e => .error (.badType e)

/-- Lowers a part in a scope of its own. -/
def inScope {α : Type} (body : StmtLowering α) : StmtLowering α := do
  modify fun s => { s with symbols := s.symbols.enter }
  let a ← body
  modify fun s => { s with symbols := s.symbols.exit }
  return a

/-- The first value is lowered before the name is declared, so it sees what the name meant outside. -/
def declCode (h : Host) (d : VarDecl) : StmtLowering Code := do
  let t ← withView h fun v => liftLayout (valueLayout v.env.aliases d.ty)
  match d.init with
  | some e =>
    let c ← withView h fun v => needTyped (.initializer d.name) t e.loc (exprCode v e)
    let l ← declareLocal d.name t
    return c ++ [.store l.slot l.ty]
  | none =>
    let l ← declareLocal d.name t
    return [.clear l.slot]

/-- The value comes first, then the list or record it goes into, then the position. -/
def assignCode (v : View) (loc : Loc) (target : Target) (value : Expr) : Lowering Code := do
  let (c, t) ← needValue value.loc (exprCode v value)
  match target with
  | .var a name =>
    let l ← findLocal v name a.loc
    expect (.assignment name) l.ty t loc
    return c ++ [.store l.slot l.ty]
  | .index a source position =>
    let (s, sourceTy) ← targetCode v source
    let elem ← elemOf sourceTy a.loc
    let p ← needTyped .position .int position.loc (exprCode v position)
    expect .elementAssignment elem t loc
    return c ++ s ++ p ++ [.listStore elem]
  | .field a source name =>
    let (s, sourceTy) ← targetCode v source
    let (offset, fieldTy) ← fieldOf sourceTy name a.loc
    expect (.fieldAssignment name) fieldTy t loc
    return c ++ s ++ [.putField name offset]

def printCode (v : View) (loc : Loc) (value : Expr) : Lowering Code := do
  let (c, t) ← exprCode v value
  if t.isVoid then throw (.unsupported .printVoid loc)
  return c ++ [.print t]

def returnCode (h : Host) (loc : Loc) (value : Option Expr) (v : View) : Lowering Code :=
  match value with
  | none => do
    expect .result h.sig.ret .void loc
    return [.ret .void]
  | some e => do
    if h.sig.ret.isVoid then throw (.unsupported (.returnFromVoid h.function) loc)
    let c ← needTyped .result h.sig.ret e.loc (exprCode v e)
    return c ++ [.ret h.sig.ret]

/-- A call for its effect; a value that it leaves is dropped. -/
def effectCode (v : View) (value : Expr) : Lowering Code := do
  let (c, t) ← exprCode v value
  return c ++ if t.isVoid then [] else [.pop t]

/-- A loop whose body and step are given by their lowering. The step stands outside the scope of the body. -/
def loopCode (h : Host) (cond : Expr) (body step : StmtLowering Code) : StmtLowering Code := do
  let top ← withView h fun _ => newLabel
  let done ← withView h fun _ => newLabel
  let c ← withView h fun v => needTyped .loopCondition .boolean cond.loc (exprCode v cond)
  let b ← body
  let s ← step
  return [.mark top] ++ c ++ [.ifeq (.toLabel done)] ++ b ++ s ++ [.goto (.toLabel top), .mark done]

mutual

def stmtCode (h : Host) : Stmt → StmtLowering Code
  | .decl d => declCode h d
  | .assign loc target value => withView h fun v => assignCode v loc target value
  | .print loc value => withView h fun v => printCode v loc value
  | .ret loc value => withView h fun v => returnCode h loc value v
  | .expr _ value => withView h fun v => effectCode v value
  | .ifElse _ cond yes no => do
    let c ← withView h fun v => needTyped .ifCondition .boolean cond.loc (exprCode v cond)
    let other ← withView h fun _ => newLabel
    let done ← withView h fun _ => newLabel
    let y ← inScope (blockCode h yes)
    let jump : Code := if Stmt.allReturn yes then [] else [.goto (.toLabel done)]
    let n ← inScope (blockCode h no)
    return c ++ [.ifeq (.toLabel other)] ++ y ++ jump ++ [.mark other] ++ n ++ [.mark done]
  | .whileDo _ cond body => loopCode h cond (inScope (blockCode h body)) (pure [])
  | .forDo _ init cond step body => inScope do
    let i ← declCode h init
    let l ← loopCode h cond (inScope (blockCode h body)) (stmtCode h step)
    return i ++ l

/-- Statements of one scope, which the caller opens. -/
def blockCode (h : Host) : List Stmt → StmtLowering Code
  | [] => pure []
  | s :: rest => do
    let c ← stmtCode h s
    return c ++ (← blockCode h rest)

end

end WhileStack.Lower
