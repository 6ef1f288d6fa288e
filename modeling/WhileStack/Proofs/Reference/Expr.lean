import WhileStack.Eval.Stop
import WhileStack.Lower.Layout
import WhileStack.Proofs.Tree.Basic

/-! Evaluation of expressions over trees. There is no heap: lists and records are what they hold, and nothing that is
evaluated changes them. -/
namespace WhileStack.Reference
open Source (Ty Expr BinOp UnOp Literal FunDecl Program)
open Eval (Stop)

/-- A program can be read as its statements say or as compiled code runs it. The readings part where the step of a loop
declares or returns, where a return type is a name for void, and where a type names a field twice. -/
inductive Reading where
  | literal
  | lowered
deriving DecidableEq, Repr

/-- Evaluation prints and may stop; what was printed by then stays. -/
abbrev Exec := EStateM Stop String

abbrev Scope := List (String × Tree)

def lookupIn (scopes : List Scope) (name : String) : Option Tree := scopes.findSome? fun s => s.lookup name

structure View where
  reading : Reading
  program : Program
  function : String
  scopes : List Scope
  call : FunDecl → List Tree → Exec Tree

def liftFault {α : Type} (r : Except Fault α) : Exec α :=
  match r with
  | .ok a => pure a
  | .error e => throw (.fault e)

def liftAlias {α : Type} (r : Except Source.AliasError α) : Exec α :=
  match r with
  | .ok a => pure a
  | .error e => throw (.badAlias e)

/-- The result of an operation that may not apply to its operands. -/
def liftValue {α : Type} (r : Except ValueError α) : Exec α :=
  match r with
  | .ok a => pure a
  | .error e => throw (.badOperand e)

def readVar (v : View) (name : String) : Exec Tree :=
  match lookupIn v.scopes name with
  | none => throw (.unboundVariable v.function name)
  | some .null => throw (.fault ⟨.uninitialized, v.function, .variableName name⟩)
  | some t => pure t

theorem readVar_eq {v : View} {name : String} {t : Tree} (h : lookupIn v.scopes name = some t) (hn : t ≠ .null) :
    readVar v name = pure t := by
  unfold readVar
  split <;> simp_all

def needInt (v : View) (e : Expr) (eval : Exec Tree) : Exec Int32 := do
  match ← eval with
  | .leaf (.int n) => return n
  | t => throw (.notInt v.function e t.tag)

def needBool (v : View) (e : Expr) (eval : Exec Tree) : Exec Bool := do
  match ← eval with
  | .leaf (.bool b) => return b
  | t => throw (.notBool v.function e t.tag)

def literalTree : Literal → Tree
  | .bool b => .leaf (.bool b)
  | .int n => .leaf (.int (Int32.ofInt n))
  | .string s => .leaf (.string s)

def intOperation (v : View) (op : BinOp) (a b : Int32) : Exec Tree :=
  match op with
  | .add => pure (.leaf (.int (a + b)))
  | .sub => pure (.leaf (.int (a - b)))
  | .mul => pure (.leaf (.int (a * b)))
  | .div => do return .leaf (.int (← liftFault (divide v.function a b)))
  | .rem => do return .leaf (.int (← liftFault (remainder v.function a b)))
  | .lt => pure (.leaf (.bool (a < b)))
  | .le => pure (.leaf (.bool (a ≤ b)))
  | .gt => pure (.leaf (.bool (b < a)))
  | .ge => pure (.leaf (.bool (b ≤ a)))
  | op => throw (.binaryOperator op.symbol)

def binaryTree (v : View) (op : BinOp) (lhs rhs : Expr) (evalLhs evalRhs : Exec Tree) : Exec Tree :=
  match op with
  | .and => do
    if ← needBool v lhs evalLhs then return .leaf (.bool (← needBool v rhs evalRhs)) else return .leaf (.bool false)
  | .or => do
    if ← needBool v lhs evalLhs then return .leaf (.bool true) else return .leaf (.bool (← needBool v rhs evalRhs))
  | .eq => do
    let a ← evalLhs
    let b ← evalRhs
    return .leaf (.bool (a.equal b))
  | .ne => do
    let a ← evalLhs
    let b ← evalRhs
    return .leaf (.bool !(a.equal b))
  | .append => do
    let a ← evalLhs
    let b ← evalRhs
    liftValue (a.append b)
  | op => do
    let a ← needInt v lhs evalLhs
    let b ← needInt v rhs evalRhs
    intOperation v op a b

def unaryTree (v : View) (op : UnOp) (operand : Expr) (eval : Exec Tree) : Exec Tree :=
  match op with
  | .not => do return .leaf (.bool !(← needBool v operand eval))
  | .neg => do return .leaf (.int (-(← needInt v operand eval)))
  | .length => do
    let t ← eval
    return .leaf (.int (← liftValue t.length))
  | .other s => throw (.unaryOperator s)

/-- A record with exactly the given fields, in this order. -/
def hasFields (names : List String) : Tree → Bool
  | .node (.record ns) ts => ns == names && ts.length == ns.length
  | _ => false

/-- Compiled code leaves a record alone that is cast to its own type. -/
def keeps (v : View) (source target : Ty) (names : List String) (t : Tree) : Bool :=
  v.reading == .lowered && hasFields names t &&
    match Lower.layout v.program.aliases source, Lower.layout v.program.aliases target with
    | .ok a, .ok b => a == b
    | _, _ => false

def castTree (v : View) (source target : Ty) (t : Tree) : Exec Tree := do
  match ← liftAlias (v.program.aliases.underlying target) with
  | .string => return .leaf (.string t.format)
  | .record fields =>
    let names := fields.map Prod.fst
    match t.record? with
    | some fs => if keeps v source target names t then return t else liftValue (Tree.project fs names)
    | none => throw (.badCast t.tag)
  | _ => return t

/-- The elements of a list and the place in it that an expression gives. -/
def elementOf (v : View) (list : Tree) (position : Expr) (eval : Exec Tree) (stop : Tag → Stop) :
    Exec (List Tree × Nat) :=
  match list.list? with
  | none => throw (stop list.tag)
  | some ts => do
    let i ← needInt v position eval
    return (ts, ← liftFault (elementAt v.function ts.length i))

/-- The first field of a name, with its offset. -/
def findField (name : String) : Nat → List (String × Tree) → Option (Nat × Tree)
  | _, [] => none
  | i, (n, t) :: rest => if n = name then some (i, t) else findField name (i + 1) rest

def fieldOf (record : Tree) (name : String) : Exec (Nat × Tree) :=
  match record.record? with
  | none => throw (.accessOn record.tag)
  | some fs =>
    match findField name 0 fs with
    | some f => pure f
    | none => throw (.badOperand (.noField name))

def recordFields (v : View) (ty : Ty) : Exec (List String) := do
  match ← liftAlias (v.program.aliases.underlying ty) with
  | .record fs => return fs.map Prod.fst
  | _ => throw (.notRecordType ty)

/-- Evaluates the values of the named fields in order, wherever they are written. -/
def evalFields (given : List (String × Exec Tree)) : List String → Exec (List Tree)
  | [] => pure []
  | n :: rest =>
    match given.lookup n with
    | none => throw (.fieldMissing n)
    | some eval => do
      let t ← eval
      return t :: (← evalFields given rest)

mutual

def evalExpr (v : View) : Expr → Exec Tree
  | .const _ l => pure (literalTree l)
  | .var _ name => readVar v name
  | .binary _ op lhs rhs => binaryTree v op lhs rhs (evalExpr v lhs) (evalExpr v rhs)
  | .unary _ op e => unaryTree v op e (evalExpr v e)
  | .cast a e => do castTree v e.ty a.ty (← evalExpr v e)
  | .call _ f args =>
    match v.program.function? f with
    | none => throw (.unboundFunction v.function f)
    | some callee => do v.call callee (← evalArgs v args)
  | .index _ source position => do
    let s ← evalExpr v source
    let (ts, k) ← elementOf v s position (evalExpr v position) .indexOn
    return ts.getD k .null
  | .list _ elems => do return .node .list (← evalArgs v elems)
  | .record a fields => do
    let names ← recordFields v a.ty
    return .node (.record names) (← evalFields (fieldEvals v fields) names)
  | .field _ source name => do
    let s ← evalExpr v source
    return (← fieldOf s name).2

def evalArgs (v : View) : List Expr → Exec (List Tree)
  | [] => pure []
  | e :: es => do
    let t ← evalExpr v e
    return t :: (← evalArgs v es)

def fieldEvals (v : View) : List (String × Expr) → List (String × Exec Tree)
  | [] => []
  | (n, e) :: rest => (n, evalExpr v e) :: fieldEvals v rest

end

/-- Where the list or record of an assignment is: at a path into a variable, or nowhere else than on its own. -/
abbrev Spot := Option (String × List Nat)

def Spot.child (s : Spot) (k : Nat) : Spot := s.map fun p => (p.1, p.2 ++ [k])

/-- The list or record that an assignment writes into, and where it is. -/
def evalTarget (v : View) : Expr → Exec (Spot × Tree)
  | .var _ name => do return (some (name, []), ← readVar v name)
  | .index _ source position => do
    let (spot, s) ← evalTarget v source
    let (ts, k) ← elementOf v s position (evalExpr v position) .indexOn
    return (spot.child k, ts.getD k .null)
  | .field _ source name => do
    let (spot, s) ← evalTarget v source
    let (k, t) ← fieldOf s name
    return (spot.child k, t)
  | e => do return (none, ← evalExpr v e)

end WhileStack.Reference
