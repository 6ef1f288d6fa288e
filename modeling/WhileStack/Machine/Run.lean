import WhileStack.Machine.Step

/-! Runs of compiled programs. -/
namespace WhileStack.Machine

mutual

/-- The value that a parameter of the entry point starts with, if its type has one. -/
def zero (h : Heap) : Ty → Except Ty (Value × Heap)
  | .int => .ok (.int 0, h)
  | .boolean => .ok (.bool false, h)
  | .string => .ok (.string "", h)
  | .list _ => .ok (h.alloc (.list []))
  | .record fs => do
    let (vs, h) ← zeroFields h fs
    .ok (h.alloc (.record vs))
  | t => .error t

def zeroFields (h : Heap) : List (String × Ty) → Except Ty (List (String × Value) × Heap)
  | [] => .ok ([], h)
  | (n, t) :: rest => do
    let (v, h) ← zero h t
    let (vs, h) ← zeroFields h rest
    .ok ((n, v) :: vs, h)

end

def zeros (h : Heap) : List Ty → Except Ty (List Value × Heap)
  | [] => .ok ([], h)
  | t :: ts => do
    let (v, h) ← zero h t
    let (vs, h) ← zeros h ts
    .ok (v :: vs, h)

/-- The state in front of the first instruction: the argument vector, then a zero for each further parameter. -/
def start (p : Program) (args : List String) : Except Stop State :=
  match p.entry? with
  | none => .error .noEntry
  | some m =>
    match m.sig.params with
    | .array _ :: rest =>
      match zeros Heap.empty rest with
      | .error t => .error (.noZero m.sig t)
      | .ok (vs, h) => do
        let f ← enter m (.array args :: vs) 0
        .ok ⟨⟨h, ""⟩, 0, f, []⟩
    | _ => .error (.noArgVector m.sig)

/-- How a run ended: what it printed, how many instructions it took, and why it stopped if it did not finish. -/
structure Outcome where
  out : String
  steps : Nat
  stop : Option Stop
deriving DecidableEq, Repr

/-- Runs for a number of steps at most; there is no outcome if that is too few. -/
def runFrom (p : Program) : Nat → State → Option Outcome
  | 0, _ => none
  | budget + 1, s =>
    match step p s with
    | .running s => runFrom p budget s
    | .finished store steps => some ⟨store.out, steps, none⟩
    | .stopped store steps why => some ⟨store.out, steps, some why⟩

def run (p : Program) (budget : Nat) (args : List String) : Option Outcome :=
  match start p args with
  | .ok s => runFrom p budget s
  | .error e => some ⟨"", 0, some e⟩

end WhileStack.Machine
