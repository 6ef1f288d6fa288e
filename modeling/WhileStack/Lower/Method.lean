import WhileStack.Lower.Stmt

/-! Methods from functions: parameters get the first slots, the body is lowered and its labels are resolved. -/
namespace WhileStack.Lower
open Source (FunDecl Stmt)
open Machine (Code Instr Signature Method)

/-- The calling convention of a function. The entry point is static and takes the argument vector first. -/
def signatureOf (env : Env) (f : FunDecl) : Except LayoutError Signature := do
  let params ← f.params.mapM fun p => valueLayout env.aliases p.2
  let ret ← layout env.aliases f.ret
  .ok ⟨f.name, (if f.isEntry then [Machine.Ty.args] else []) ++ params, ret, f.isEntry⟩

/-- The slot in front of the parameters: the argument vector of the entry point, else the receiver. -/
def implicitSlot (env : Env) (f : FunDecl) : String × Machine.Ty :=
  if f.isEntry then ("args", Machine.Ty.args) else ("this", env.receiver)

/-- Gives the parameters their slots. -/
def declareParams (f : FunDecl) : List String → List (String × Machine.Ty) → Symbols → Except Cause Symbols
  | _, [], s => .ok s
  | seen, (n, t) :: rest, s =>
    if n ∈ seen then .error (.duplicateParameter f.name n)
    else match s.declare n t with
      | .error e => .error (.badType e)
      | .ok (_, s) => declareParams f (n :: seen) rest s

/-- The parameters take the last types of the signature. -/
def initialSymbols (env : Env) (f : FunDecl) (sig : Signature) : Except Cause Symbols := do
  let (name, ty) := implicitSlot env f
  let (_, s) ← (Symbols.empty.reserve name ty).mapError Cause.badType
  let types := sig.params.drop (sig.params.length - f.params.length)
  declareParams f [] ((f.params.map Prod.fst).zip types) s

/-- What follows a body that can run past its last statement. -/
def closing (f : FunDecl) (sig : Signature) : Code :=
  if Stmt.allReturn f.body then []
  else if sig.ret.isVoid then [.ret .void]
  else [.unreachable]

/-- The code of a function before its labels are resolved, and the slots it uses. -/
def bodyCode (env : Env) (f : FunDecl) (sig : Signature) : Except Cause (Code × Symbols) := do
  let s ← initialSymbols env f sig
  let (code, s) ← (inScope (blockCode ⟨env, f.name, sig⟩ f.body)).run ⟨0, s⟩
  .ok (code ++ closing f sig, s.symbols)

/-- The stack a method needs. A failed check counts only where checks are wanted. -/
def stackOf (env : Env) (f : FunDecl) (code : Array Instr) : Except Cause Nat :=
  match Machine.maxDepth code with
  | .ok n => .ok n
  | .error e => if env.verify then .error (.badDepth f.name e) else .ok 0

/-- The signature that the environment has for the function's name goes before the function's own. -/
def signatureIn (env : Env) (f : FunDecl) : Except Cause Signature :=
  match env.signatures.lookup f.name with
  | some sig => .ok sig
  | none => (signatureOf env f).mapError Cause.badType

def lowerFunction (env : Env) (f : FunDecl) : Except Cause Method := do
  let sig ← signatureIn env f
  let (code, symbols) ← bodyCode env f sig
  let resolved ← (Machine.resolve code).mapError Cause.badLabel
  let stack ← stackOf env f resolved.toArray
  .ok ⟨f.name, sig, f.isEntry, resolved.toArray, symbols.locals, stack, symbols.size⟩

/-- The method of a function, or what is wrong with it. -/
def emit (env : Env) (f : FunDecl) : Except FunctionError Method :=
  (lowerFunction env f).mapError fun cause => ⟨f.name, f.loc, cause⟩

end WhileStack.Lower
