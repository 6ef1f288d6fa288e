import WhileStack.Eval.Stmt

/-! Calls of functions and runs of programs. -/
namespace WhileStack.Eval
open Source (Ty Aliases FunDecl Program)

/-- A frame that holds the parameters in a scope of their own. -/
def openFrame (f : FunDecl) (args : List Value) : Frame :=
  ((f.params.map Prod.fst).zip args).foldl (fun fr p => fr.declare p.1 p.2) ⟨[[]], false, .null⟩

/-- Calls a function while `left` activations may still be opened. Running past the end of the body is a fault
unless the return type is void as written. -/
def call (p : Program) (rounds : Nat) : Nat → FunDecl → List Value → Exec Value
  | 0, f, _ => throw (.fault ⟨.callDepth, f.name, .depth maxCallDepth⟩)
  | left + 1, f, args =>
    if args.length ≠ f.params.length then throw (.argumentCount f.name f.params.length args.length)
    else do
      let h : Host := ⟨p, f.name, call p rounds left, rounds⟩
      let (_, fr) ← (inScope (runAll h f.body)).run (openFrame f args)
      if fr.returned then return fr.result
      else if f.ret = .void then return .null
      else throw (.fault ⟨.missingReturn, f.name, .nothing⟩)

mutual

/-- The zero value of a type, given that of each name. -/
def zeroWith (onName : String → Heap → Except ZeroError (Value × Heap)) (h : Heap) :
    Ty → Except ZeroError (Value × Heap)
  | .int => .ok (.int 0, h)
  | .bool => .ok (.bool false, h)
  | .string => .ok (.string "", h)
  | .list _ => .ok (h.alloc (.list []))
  | .record fs => do
    let (vs, h) ← zeroFieldsWith onName h fs
    .ok (h.alloc (.record vs))
  | .void => .error (.noZero .void)
  | .named n => onName n h

def zeroFieldsWith (onName : String → Heap → Except ZeroError (Value × Heap)) (h : Heap) :
    List (String × Ty) → Except ZeroError (List (String × Value) × Heap)
  | [] => .ok ([], h)
  | (n, t) :: rest => do
    let (v, h) ← zeroWith onName h t
    let (vs, h) ← zeroFieldsWith onName h rest
    .ok ((n, v) :: vs, h)

end

/-- The zero value of a name. A record that does not hold itself nests fewer names than there are declarations. -/
def zeroName (aliases : Aliases) : Nat → String → Heap → Except ZeroError (Value × Heap)
  | 0, _, _ => .error .endless
  | left + 1, n, h =>
    match aliases.underlying (.named n) with
    | .error e => .error (.badAlias e)
    | .ok t => zeroWith (zeroName aliases left) h t

/-- The value that a parameter of the entry point starts with. -/
def zero (aliases : Aliases) (h : Heap) (t : Ty) : Except ZeroError (Value × Heap) :=
  zeroWith (zeroName aliases (aliases.length + 1)) h t

def zeroParams (aliases : Aliases) (function : String) : List (String × Ty) → Exec (List Value)
  | [] => pure []
  | (n, t) :: rest => do
    match zero aliases (← get).heap t with
    | .error e => throw (.noParameter n function e)
    | .ok (v, h) =>
      modify fun s => { s with heap := h }
      return v :: (← zeroParams aliases function rest)

/-- Calls a function with no activation open. -/
def callTop (p : Program) (rounds : Nat) (f : FunDecl) (args : List Value) : Exec Value :=
  call p rounds maxCallDepth f args

/-- Runs the entry point on zero values. -/
def runEntry (p : Program) (rounds : Nat) : Exec Unit := do
  match p.entry? with
  | none => throw .noEntry
  | some f =>
    let args ← zeroParams p.aliases f.name f.params
    let _ ← callTop p rounds f args

/-- What a run printed, and why it stopped if it did not finish. -/
structure Outcome where
  out : String
  stop : Option Stop

def run (p : Program) (rounds : Nat) : Outcome :=
  match runEntry p rounds Store.empty with
  | .ok _ s => ⟨s.out, none⟩
  | .error e s => ⟨s.out, some e⟩

end WhileStack.Eval
