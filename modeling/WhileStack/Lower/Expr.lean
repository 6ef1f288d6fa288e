import WhileStack.Lower.Cast
import WhileStack.Lower.Error
import WhileStack.Lower.Symbols

/-! Code of expressions. The code of an expression leaves its value on the stack; that of a call to a void function
leaves nothing. Variables that hold lists or records are copied when they are read. -/
namespace WhileStack.Lower
open Source (Expr Attr Aliases Loc BinOp UnOp)
open Machine (Code Instr Dest Label)

/-- What the functions of a program share. -/
structure Env where
  cls : String
  aliases : Aliases
  signatures : List (String × Machine.Signature)
  verify : Bool
deriving DecidableEq, Repr

/-- The type of the object that methods are called on. -/
def Env.receiver (env : Env) : Machine.Ty := .object env.cls

/-- What the code of an expression depends on besides the expression. -/
structure View where
  env : Env
  symbols : Symbols
  isStatic : Bool

/-- Lowering counts the labels it has used. -/
abbrev Lowering := StateT Nat (Except Cause)

/-- Code with the type of the value it leaves. -/
abbrev Typed := Code × Machine.Ty

def newLabel : Lowering Label := modifyGet fun n => ((n + 1 : Nat), n + 1)

def liftLayout {α : Type} (r : Except LayoutError α) : Lowering α :=
  match r with
  | .ok a => pure a
  | .error e => throw (.badType e)

def expect (context : Context) (want got : Machine.Ty) (loc : Loc) : Lowering Unit :=
  if want = got then pure () else throw (.mismatch context want got loc)

/-- Asks that lowered code leave a value. -/
def needValue (loc : Loc) (lowered : Lowering Typed) : Lowering Typed := do
  let (code, t) ← lowered
  if t.isVoid then throw (.unsupported .voidValue loc)
  return (code, t)

/-- Asks that lowered code leave a value of a given type. -/
def needTyped (context : Context) (want : Machine.Ty) (loc : Loc) (lowered : Lowering Typed) : Lowering Code := do
  let (code, got) ← needValue loc lowered
  expect context want got loc
  return code

/-- Checks what lowering found against the type that the expression carries. -/
def agree (v : View) (attr : Attr) (context : Context) (code : Code) (got : Machine.Ty) : Lowering Typed := do
  let want ← liftLayout (layout v.env.aliases attr.ty)
  expect context want got attr.loc
  return (code, got)

def findLocal (v : View) (name : String) (loc : Loc) : Lowering Machine.Local :=
  match v.symbols.lookup? name with
  | some l => pure l
  | none => throw (.unboundVariable name loc)

def constCode (loc : Loc) : Source.Literal → Lowering Typed
  | .bool b => pure ([.ldc (.bool b)], .boolean)
  | .int n =>
    if -0x80000000 ≤ n ∧ n < 0x80000000 then pure ([.ldc (.int (Int32.ofInt n))], .int)
    else throw (.unsupported (.wideConstant n) loc)
  | .string s => pure ([.ldc (.string s)], .string)

/-- Turns a comparison of the two integers on top of the stack into a boolean. -/
def compareCode (cond : Machine.Cond) : Lowering Code := do
  let yes ← newLabel
  let done ← newLabel
  return [.ifcmp cond (.toLabel yes), .ldc (.bool false), .goto (.toLabel done), .mark yes, .ldc (.bool true), .mark done]

def notCode : Code := [.ldc (.int 1), .xor true]

def arithOf : BinOp → Option Machine.Arith
  | .add => some .add
  | .sub => some .sub
  | .mul => some .mul
  | .div => some .div
  | .rem => some .rem
  | _ => none

def orderOf : BinOp → Option Machine.Cond
  | .lt => some .lt
  | .le => some .le
  | .gt => some .gt
  | .ge => some .ge
  | _ => none

/-- The right operand of `&&` and `||` is skipped once the left one decides. -/
def shortCircuit (isOr : Bool) (lhs rhs : Lowering Code) : Lowering Code := do
  let l ← lhs
  let skip ← newLabel
  let done ← newLabel
  let branch : Instr := if isOr then .ifne (.toLabel skip) else .ifeq (.toLabel skip)
  let r ← rhs
  return l ++ [branch] ++ r ++ [.goto (.toLabel done), .mark skip, .ldc (.bool isOr), .mark done]

def equalityCode (isNe : Bool) (t : Machine.Ty) : Lowering Code :=
  if t.isReference then pure (if isNe then .equals :: notCode else [.equals])
  else compareCode (if isNe then .ne else .eq)

/-- A binary operator between operands whose lowering is given, each with its place. -/
def binaryCode (loc : Loc) (op : BinOp) (lhs rhs : Lowering Typed) (lhsLoc rhsLoc : Loc) : Lowering Typed :=
  let context := Context.operator op.symbol
  match op with
  | .and | .or => do
    let code ← shortCircuit (op = .or) (needTyped context .boolean lhsLoc lhs) (needTyped context .boolean rhsLoc rhs)
    return (code, .boolean)
  | .eq | .ne => do
    let (l, t) ← needValue lhsLoc lhs
    let r ← needTyped context t rhsLoc rhs
    let c ← equalityCode (op = .ne) t
    return (l ++ r ++ c, .boolean)
  | .append => do
    let (l, t) ← needValue lhsLoc lhs
    match t with
    | .string | .list _ =>
      let r ← needTyped context t rhsLoc rhs
      return (l ++ r ++ [.append t], t)
    | _ => throw (.unsupported (.appendOn t) loc)
  | _ =>
    match arithOf op, orderOf op with
    | some a, _ => do
      let l ← needTyped context .int lhsLoc lhs
      let r ← needTyped context .int rhsLoc rhs
      return (l ++ r ++ [.arith a], .int)
    | none, some cond => do
      let l ← needTyped context .int lhsLoc lhs
      let r ← needTyped context .int rhsLoc rhs
      let c ← compareCode cond
      return (l ++ r ++ c, .boolean)
    | none, none => throw (.unsupported (.binaryOperator op.symbol) loc)

def unaryCode (loc : Loc) (op : UnOp) (operand : Lowering Typed) (operandLoc : Loc) : Lowering Typed :=
  match op with
  | .not => do
    let c ← needTyped (.operator "!") .boolean operandLoc operand
    return (c ++ notCode, .boolean)
  | .neg => do
    let c ← needTyped (.operator "-") .int operandLoc operand
    return (c ++ [.neg], .int)
  | .length => do
    let (c, t) ← needValue operandLoc operand
    match t with
    | .string | .list _ => return (c ++ [.length], .int)
    | _ => throw (.unsupported (.lengthOf t) loc)
  | .other s => throw (.unsupported (.unaryOperator s) loc)

def castCode (v : View) (attr : Attr) (operandTy : Source.Ty) (operand : Lowering Typed) (operandLoc : Loc) :
    Lowering Typed := do
  let (c, source) ← needValue operandLoc operand
  let target ← liftLayout (valueLayout v.env.aliases attr.ty)
  match castKind? source target with
  | none => throw (.badCast operandTy attr.ty attr.loc)
  | some .identity => return (c, target)
  | some .convert => return (c ++ [.convert source target], target)

/-- The method that a call names, once the call is known to fit it. -/
def callee (v : View) (function : String) (given : Nat) (loc : Loc) : Lowering Machine.Signature :=
  match v.env.signatures.lookup function with
  | none => throw (.unboundFunction function loc)
  | some sig =>
    if sig.isStatic then throw (.unsupported (.entryCall function) loc)
    else if given ≠ sig.params.length then
      throw (.unsupported (.argumentCount function given sig.params.length) loc)
    else pure sig

/-- The object a call goes to: the function's own, or a new one where there is none. -/
def receiverCode (v : View) : Instr :=
  if v.isStatic then .new v.env.receiver else .load 0 v.env.receiver

def elemOf (t : Machine.Ty) (loc : Loc) : Lowering Machine.Ty :=
  match t with
  | .list e => pure e
  | _ => throw (.unsupported (.indexOn t) loc)

def fieldOf (t : Machine.Ty) (name : String) (loc : Loc) : Lowering (Nat × Machine.Ty) :=
  match t with
  | .record _ =>
    match t.field? name with
    | some f => pure f
    | none => throw (.unsupported (.noField t name) loc)
  | _ => throw (.unsupported (.accessOn t) loc)

/-- Indexes a list that is already on the stack. -/
def indexCode (v : View) (attr : Attr) (source : Typed) (position : Lowering Typed) (positionLoc : Loc) :
    Lowering Typed := do
  let elem ← elemOf source.2 attr.loc
  let p ← needTyped .position .int positionLoc position
  agree v attr .indexing (source.1 ++ p ++ [.listLoad elem]) elem

/-- Takes a field of a record that is already on the stack. -/
def accessCode (v : View) (attr : Attr) (source : Typed) (name : String) : Lowering Typed := do
  let (offset, t) ← fieldOf source.2 name attr.loc
  agree v attr .access (source.1 ++ [.getField name offset]) t

/-- Every field that is given must be one of the layout, and be given once. -/
def checkFieldNames (t : Machine.Ty) (loc : Loc) : List String → List String → Lowering Unit
  | _, [] => pure ()
  | seen, n :: rest =>
    if (t.field? n).isNone then throw (.unsupported (.noField t n) loc)
    else if n ∈ seen then throw (.unsupported (.fieldTwice n) loc)
    else checkFieldNames t loc (n :: seen) rest

/-- Field values in the order of the layout, whatever the order they are written in. -/
def fieldsCode (given : List (String × Loc × Lowering Typed)) (loc : Loc) :
    List (String × Machine.Ty) → Lowering Code
  | [] => pure []
  | (n, t) :: rest =>
    match given.lookup n with
    | none => throw (.unsupported (.fieldMissing n) loc)
    | some (valueLoc, value) => do
      let c ← needTyped (.fieldValue n) t valueLoc value
      return c ++ (← fieldsCode given loc rest)

mutual

def exprCode (v : View) : Expr → Lowering Typed
  | .const a value => do
    let (c, t) ← constCode a.loc value
    agree v a .constant c t
  | .var a name => do
    let l ← findLocal v name a.loc
    let copy : Code := if l.ty.isComposite then [.clone l.ty] else []
    agree v a .variableRead (.load l.slot l.ty :: copy) l.ty
  | .binary a op lhs rhs => do
    let (c, t) ← binaryCode a.loc op (exprCode v lhs) (exprCode v rhs) lhs.loc rhs.loc
    agree v a .binary c t
  | .unary a op e => do
    let (c, t) ← unaryCode a.loc op (exprCode v e) e.loc
    agree v a .unary c t
  | .cast a e => castCode v a e.ty (exprCode v e) e.loc
  | .call a f args => do
    let sig ← callee v f args.length a.loc
    let cs ← argsCode v (.argument f) sig.params args
    agree v a .call (receiverCode v :: cs ++ [.call sig]) sig.ret
  | .index a source position => do
    let s ← needValue source.loc (exprCode v source)
    indexCode v a s (exprCode v position) position.loc
  | .list a elems => do
    let t ← liftLayout (layout v.env.aliases a.ty)
    match t with
    | .list e =>
      let cs ← argsCode v .element (List.replicate elems.length e) elems
      return (cs ++ [.newList e elems.length], t)
    | _ => throw (.unsupported (.listOfType t) a.loc)
  | .record a fields => do
    let t ← liftLayout (layout v.env.aliases a.ty)
    match t with
    | .record layoutFields =>
      checkFieldNames t a.loc [] (fields.map Prod.fst)
      let cs ← fieldsCode (fieldValues v fields) a.loc layoutFields
      return (cs ++ [.newRecord t], t)
    | _ => throw (.unsupported (.recordOfType t) a.loc)
  | .field a source name => do
    let s ← needValue source.loc (exprCode v source)
    accessCode v a s name

/-- Expressions of the given types, one after the other. -/
def argsCode (v : View) (context : Context) : List Machine.Ty → List Expr → Lowering Code
  | t :: ts, e :: es => do
    let c ← needTyped context t e.loc (exprCode v e)
    return c ++ (← argsCode v context ts es)
  | _, _ => pure []

/-- The lowering of each field value under its name. -/
def fieldValues (v : View) : List (String × Expr) → List (String × Loc × Lowering Typed)
  | [] => []
  | (n, e) :: rest => (n, e.loc, exprCode v e) :: fieldValues v rest

end

/-- The list or record that an assignment writes into: loaded as it is, without a copy. -/
def targetCode (v : View) : Expr → Lowering Typed
  | .var a name => do
    let l ← findLocal v name a.loc
    agree v a .variableRead [.load l.slot l.ty] l.ty
  | .index a source position => do
    let s ← targetCode v source
    indexCode v a s (exprCode v position) position.loc
  | .field a source name => do
    let s ← targetCode v source
    accessCode v a s name
  | e => needValue e.loc (exprCode v e)

end WhileStack.Lower
