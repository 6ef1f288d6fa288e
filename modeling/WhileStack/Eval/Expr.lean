import WhileStack.Eval.Stop

/-! Evaluation of expressions. Reading a variable copies lists and records, so that later writes to the variable do
not show in the copy. -/
namespace WhileStack.Eval
open Source (Ty Expr BinOp UnOp Literal FunDecl Program)

/-- The variables of one scope, the latest first. One without a value is unset. -/
abbrev Scope := List (String × Value)

/-- The innermost binding of a name. -/
def lookupIn (scopes : List Scope) (name : String) : Option Value := scopes.findSome? fun s => s.lookup name

/-- What the value of an expression depends on besides the store. -/
structure View where
  program : Program
  /-- The function that is being run. -/
  function : String
  scopes : List Scope
  /-- Runs a function on evaluated arguments. -/
  call : FunDecl → List Value → Exec Value

def liftFault {α : Type} (r : Except Fault α) : Exec α :=
  match r with
  | .ok a => pure a
  | .error e => throw (.fault e)

def liftAlias {α : Type} (r : Except Source.AliasError α) : Exec α :=
  match r with
  | .ok a => pure a
  | .error e => throw (.badAlias e)

def tagOf (v : Value) : Exec Tag := do return (← get).heap.tag v

/-- Runs an operation on the heap that may not apply to its operands. -/
def onHeap (op : Heap → Except ValueError (Value × Heap)) : Exec Value := do
  match op (← get).heap with
  | .ok (v, h) => modifyGet fun s => (v, { s with heap := h })
  | .error e => throw (.badOperand e)

def alloc (c : Cell) : Exec Value := onHeap fun h => .ok (h.alloc c)

/-- Reads a variable without copying it. -/
def readVar (v : View) (name : String) : Exec Value :=
  match lookupIn v.scopes name with
  | none => throw (.unboundVariable v.function name)
  | some .null => throw (.fault ⟨.uninitialized, v.function, .variableName name⟩)
  | some x => pure x

def needInt (v : View) (e : Expr) (eval : Exec Value) : Exec Int32 := do
  match ← eval with
  | .int n => return n
  | x => throw (.notInt v.function e (← tagOf x))

def needBool (v : View) (e : Expr) (eval : Exec Value) : Exec Bool := do
  match ← eval with
  | .bool b => return b
  | x => throw (.notBool v.function e (← tagOf x))

def literalValue : Literal → Value
  | .bool b => .bool b
  | .int n => .int (Int32.ofInt n)
  | .string s => .string s

def intOperation (v : View) (op : BinOp) (a b : Int32) : Exec Value :=
  match op with
  | .add => pure (.int (a + b))
  | .sub => pure (.int (a - b))
  | .mul => pure (.int (a * b))
  | .div => do return .int (← liftFault (divide v.function a b))
  | .rem => do return .int (← liftFault (remainder v.function a b))
  | .lt => pure (.bool (a < b))
  | .le => pure (.bool (a ≤ b))
  | .gt => pure (.bool (b < a))
  | .ge => pure (.bool (b ≤ a))
  | op => throw (.binaryOperator op.symbol)

/-- A binary operator between operands whose evaluation is given. -/
def binaryValue (v : View) (op : BinOp) (lhs rhs : Expr) (evalLhs evalRhs : Exec Value) : Exec Value :=
  match op with
  | .and => do
    if ← needBool v lhs evalLhs then return .bool (← needBool v rhs evalRhs) else return .bool false
  | .or => do
    if ← needBool v lhs evalLhs then return .bool true else return .bool (← needBool v rhs evalRhs)
  | .eq => do
    let a ← evalLhs
    let b ← evalRhs
    return .bool ((← get).heap.equal a b)
  | .ne => do
    let a ← evalLhs
    let b ← evalRhs
    return .bool !((← get).heap.equal a b)
  | .append => do
    let a ← evalLhs
    let b ← evalRhs
    onHeap fun h => h.append a b
  | op => do
    let a ← needInt v lhs evalLhs
    let b ← needInt v rhs evalRhs
    intOperation v op a b

def unaryValue (v : View) (op : UnOp) (operand : Expr) (eval : Exec Value) : Exec Value :=
  match op with
  | .not => do return .bool !(← needBool v operand eval)
  | .neg => do return .int (-(← needInt v operand eval))
  | .length => do
    let x ← eval
    match (← get).heap.length x with
    | .ok n => return .int n
    | .error e => throw (.badOperand e)
  | .other s => throw (.unaryOperator s)

def castValue (v : View) (ty : Ty) (x : Value) : Exec Value := do
  match ← liftAlias (v.program.aliases.underlying ty) with
  | .string => return .string ((← get).heap.format x)
  | .record fields =>
    match (← get).heap.record? x with
    | some (_, fs) => onHeap fun h => h.project fs (fields.map Prod.fst)
    | none => throw (.badCast (← tagOf x))
  | _ => return x

/-- The element of a list that is already evaluated. -/
def elementValue (v : View) (list : Value) (position : Expr) (eval : Exec Value) : Exec Value := do
  match (← get).heap.list? list with
  | none => throw (.indexOn (← tagOf list))
  | some _ =>
    let i ← needInt v position eval
    match (← get).heap.list? list with
    | none => throw (.indexOn (← tagOf list))
    | some (_, es) => return es.getD (← liftFault (elementAt v.function es.length i)) .null

def fieldOf (record : Value) (name : String) : Exec Value := do
  match (← get).heap.record? record with
  | none => throw (.accessOn (← tagOf record))
  | some (_, fs) =>
    match Heap.fieldValue? fs name with
    | some x => return x
    | none => throw (.badOperand (.noField name))

/-- The fields of a record type in its own order. -/
def recordFields (v : View) (ty : Ty) : Exec (List String) := do
  match ← liftAlias (v.program.aliases.underlying ty) with
  | .record fs => return fs.map Prod.fst
  | _ => throw (.notRecordType ty)

/-- Evaluates the values of the named fields in order, wherever they are written. -/
def evalFields (given : List (String × Exec Value)) : List String → Exec (List (String × Value))
  | [] => pure []
  | n :: rest =>
    match given.lookup n with
    | none => throw (.fieldMissing n)
    | some eval => do
      let x ← eval
      return (n, x) :: (← evalFields given rest)

mutual

def evalExpr (v : View) : Expr → Exec Value
  | .const _ l => pure (literalValue l)
  | .var _ name => do
    let x ← readVar v name
    onHeap fun h => .ok (h.clone x)
  | .binary _ op lhs rhs => binaryValue v op lhs rhs (evalExpr v lhs) (evalExpr v rhs)
  | .unary _ op e => unaryValue v op e (evalExpr v e)
  | .cast a e => do castValue v a.ty (← evalExpr v e)
  | .call _ f args =>
    match v.program.function? f with
    | none => throw (.unboundFunction v.function f)
    | some callee => do v.call callee (← evalArgs v args)
  | .index _ source position => do
    let s ← evalExpr v source
    elementValue v s position (evalExpr v position)
  | .list _ elems => do
    let es ← evalArgs v elems
    alloc (.list es)
  | .record a fields => do
    let names ← recordFields v a.ty
    let fs ← evalFields (fieldEvals v fields) names
    alloc (.record fs)
  | .field _ source name => do fieldOf (← evalExpr v source) name

def evalArgs (v : View) : List Expr → Exec (List Value)
  | [] => pure []
  | e :: es => do
    let x ← evalExpr v e
    return x :: (← evalArgs v es)

/-- The evaluation of each field value under its name. -/
def fieldEvals (v : View) : List (String × Expr) → List (String × Exec Value)
  | [] => []
  | (n, e) :: rest => (n, evalExpr v e) :: fieldEvals v rest

end

/-- The list or record that an assignment writes into: the variable's own, not a copy. -/
def evalTarget (v : View) : Expr → Exec Value
  | .var _ name => readVar v name
  | .index _ source position => do
    let s ← evalTarget v source
    elementValue v s position (evalExpr v position)
  | .field _ source name => do fieldOf (← evalTarget v source) name
  | e => evalExpr v e

end WhileStack.Eval
