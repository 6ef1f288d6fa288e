import WhileStack.Machine.Instr

/-! Stack depth: each reachable instruction must be reached at one depth only, find its operands there, and have
its successors inside the code. Depths are machine integers, which wrap around. -/
namespace WhileStack.Machine

inductive DepthCause where
  | emptyCode
  | unresolvedLabel (label : Label)
  | unresolvedBranch (label : Label)
  | underflow (need depth : Int)
  | returnDepth (depth : Int)
  | offEnd
  | badTarget (target : Int)
  | mismatch (first second : Int)
deriving DecidableEq, Repr

structure DepthError where
  index : Nat
  instr : Option Instr
  cause : DepthCause
deriving DecidableEq, Repr

def DepthCause.message : DepthCause → String
  | .emptyCode => "empty code"
  | .unresolvedLabel l => "unresolved label " ++ labelText l
  | .unresolvedBranch l => "unresolved branch to " ++ labelText l
  | .underflow need d => "stack underflow: need " ++ toString need ++ ", have " ++ toString d
  | .returnDepth d => "return with " ++ toString d ++ " values on the stack"
  | .offEnd => "falls off the end of the code"
  | .badTarget t => "branch target " ++ toString t ++ " out of range"
  | .mismatch a b => "stack depth mismatch: " ++ toString a ++ " and " ++ toString b

def DepthError.message (e : DepthError) : String :=
  "at " ++ toString e.index ++ (e.instr.map fun i => " (" ++ i.text ++ ")").getD "" ++ ": " ++ e.cause.message

/-- One more than the greatest machine integer. These have 64 bits, which is enough to number the instructions of any
code. -/
def wordBound (code : Array Instr) : Nat := max 0x8000000000000000 (code.size + 1)

/-- The machine integer that a sum comes to. -/
def wrap (code : Array Instr) (k : Int) : Int := k.bmod (2 * wordBound code)

/-- The depth behind an instruction that is reached at depth `d`, before it wraps around. -/
def Instr.after (i : Instr) (d : Int) : Int := d - i.takes + i.pushes

/-- What stands for a depth that has not been found. -/
def unset : Int := -1

/-- The depths found so far, the indices still to be visited, last found first, and the greatest depth. -/
structure DepthState where
  depth : Array Int
  work : List Nat
  greatest : Nat

/-- The greatest depth is at least the one that has come up. -/
def DepthState.raise (s : DepthState) (d : Int) : DepthState := { s with greatest := max s.greatest d.toNat }

def depthError (code : Array Instr) (i : Nat) (cause : DepthCause) : DepthError := ⟨i, code[i]?, cause⟩

/-- Control goes from one index to another at depth `d`. -/
def flow (code : Array Instr) (source : Nat) (target d : Int) (s : DepthState) : Except DepthError DepthState :=
  if target < 0 ∨ (code.size : Int) < target then .error (depthError code source (.badTarget target))
  else if target = code.size then .error (depthError code source .offEnd)
  else
    let t := target.toNat
    let e := s.depth.getD t unset
    if e = unset then .ok { s with depth := s.depth.setIfInBounds t d, work := t :: s.work }
    else if e = d then .ok s
    else .error (depthError code t (.mismatch e d))

/-- What is wrong with an instruction that is reached at depth `d`. -/
def blocked (instr : Instr) (d : Int) : Option DepthCause :=
  match instr, instr.dest? with
  | .mark l, _ => some (.unresolvedLabel l)
  | _, some dest =>
    if dest.label ≠ 0 then some (.unresolvedBranch dest.label)
    else if d < instr.takes then some (.underflow instr.takes d)
    else none
  | _, none =>
    if d < instr.takes then some (.underflow instr.takes d)
    else if instr.isReturn ∧ d ≠ instr.takes then some (.returnDepth d)
    else none

/-- Checks the instruction at an index and passes its depth on, to its branch target first. -/
def visit (code : Array Instr) (i : Nat) (instr : Instr) (d : Int) (s : DepthState) : Except DepthError DepthState :=
  match blocked instr d with
  | some cause => .error (depthError code i cause)
  | none => do
    let after := wrap code (instr.after d)
    let s ← match instr.dest? with
      | some dest => flow code i dest.target after (s.raise after)
      | none => .ok (s.raise after)
    if instr.fallsThrough then flow code i (i + 1 : Nat) after s else .ok s

def visitAll (code : Array Instr) : Nat → DepthState → Except DepthError DepthState
  | 0, s => .ok s
  | rounds + 1, s =>
    match s.work with
    | [] => .ok s
    | i :: work =>
      match code[i]?, s.depth[i]? with
      | some instr, some d => do visitAll code rounds (← visit code i instr d { s with work := work })
      | _, _ => visitAll code rounds { s with work := work }

/-- Every index gets a depth once, but the one that stands for none may come up at each index behind it. -/
def roundBound (code : Array Instr) : Nat := code.size * (code.size + 1)

/-- Before the first round: the first index has a depth and is to be visited. -/
def DepthState.initial (code : Array Instr) : DepthState :=
  ⟨(Array.replicate code.size unset).setIfInBounds 0 0, [0], 0⟩

/-- The depth of every reachable instruction, and the greatest depth behind one. -/
def depths (code : Array Instr) : Except DepthError DepthState :=
  if code.isEmpty then .error ⟨0, none, .emptyCode⟩
  else visitAll code (roundBound code) (.initial code)

def maxDepth (code : Array Instr) : Except DepthError Nat := (depths code).map DepthState.greatest

end WhileStack.Machine
