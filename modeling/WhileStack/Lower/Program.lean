import WhileStack.Lower.Method

/-! Compiling a program: signatures first, then every function on its own. All failures are collected, and one is
enough to yield no program. -/
namespace WhileStack.Lower
open Source (FunDecl)
open Machine (Signature Method)

structure Options where
  name : String
  version : Version
  verify : Bool
deriving DecidableEq, Repr

/-- Class files of version 49.0, with the depth of the stack checked. -/
def Options.standard (name : String) : Options := ⟨name, Version.ofParts 49 0 0, true⟩

/-- What a pass over the functions has found: accepted signatures, failures and entry points, latest first. -/
structure Collected where
  signatures : List (String × Signature)
  errors : List ProgramError
  entries : List String

/-- A function whose name is taken is reported and not looked at. -/
def collect (env : Env) (c : Collected) (f : FunDecl) : Collected :=
  if (c.signatures.lookup f.name).isSome then
    { c with errors := .duplicateFunction f.name f.loc :: c.errors }
  else
    let entries := if f.isEntry then f.name :: c.entries else c.entries
    match signatureOf env f with
    | .error e => { c with errors := .inFunction ⟨f.name, f.loc, .badType e⟩ :: c.errors, entries := entries }
    | .ok sig => { c with signatures := (f.name, sig) :: c.signatures, entries := entries }

/-- More than one entry point is an error that names them in order. -/
def entryErrors (entries : List String) : List ProgramError :=
  if 1 < entries.length then [.manyEntries (entries.mergeSort fun a b => !decide (b < a))] else []

/-- The signatures of a program, if its functions can stand beside each other. -/
def environment (o : Options) (p : Source.Program) : Except (List ProgramError) Env :=
  let bare : Env := ⟨o.name, p.aliases, [], o.verify⟩
  let c := p.functions.foldl (collect bare) ⟨[], [], []⟩
  let errors := c.errors.reverse ++ entryErrors c.entries
  if errors.isEmpty then .ok { bare with signatures := c.signatures } else .error errors

/-- The methods of all functions, or all failures. -/
def emitAll (env : Env) : List FunDecl → Except (List FunctionError) (List Method)
  | [] => .ok []
  | f :: rest =>
    match emit env f, emitAll env rest with
    | .ok m, .ok ms => .ok (m :: ms)
    | .ok _, .error es => .error es
    | .error e, .ok _ => .error [e]
    | .error e, .error es => .error (e :: es)

def compile (o : Options) (p : Source.Program) : Except (List ProgramError) Machine.Program := do
  let env ← environment o p
  let methods ← (emitAll env p.functions).mapError (List.map .inFunction)
  .ok ⟨o.name, o.version, methods⟩

end WhileStack.Lower
