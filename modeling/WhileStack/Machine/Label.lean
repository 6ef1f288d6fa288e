import WhileStack.Machine.Instr

/-! Resolving labels: marks are dropped and branches get the index of the instruction behind their mark. -/
namespace WhileStack.Machine

inductive LabelCause where
  | repeated
  | missing
  | pastEnd
deriving DecidableEq, Repr

structure LabelError where
  label : Label
  cause : LabelCause
deriving DecidableEq, Repr

def LabelError.message (e : LabelError) : String :=
  "label " ++ labelText e.label ++ ": " ++
    match e.cause with
    | .repeated => "placed more than once"
    | .missing => "never placed"
    | .pastEnd => "placed past the end of the code"

/-- The number of real instructions in front of each mark, and of all of them. -/
def places : Nat → List (Label × Nat) → Code → Except LabelError (List (Label × Nat) × Nat)
  | n, found, [] => .ok (found, n)
  | n, found, .mark l :: rest =>
    if (found.lookup l).isSome then .error ⟨l, .repeated⟩ else places n ((l, n) :: found) rest
  | n, found, _ :: rest => places (n + 1) found rest

def branchLabels (code : Code) : List Label :=
  code.filterMap fun i => i.dest?.map Dest.label

/-- Replaces the label of a branch by an index below `size`. -/
def relocate (found : List (Label × Nat)) (size : Nat) (i : Instr) : Except LabelError Instr :=
  match i.dest? with
  | none => .ok i
  | some d =>
    match found.lookup d.label with
    | none => .error ⟨d.label, .missing⟩
    | some n => if n < size then .ok (i.setDest (.toIndex n)) else .error ⟨d.label, .pastEnd⟩

def resolve (code : Code) : Except LabelError Code := do
  let (found, size) ← places 0 [] code
  match ((branchLabels code).filter fun l => (found.lookup l).isNone).min? with
  | some l => .error ⟨l, .missing⟩
  | none => (code.filter fun i => !i.isMark).mapM (relocate found size)

end WhileStack.Machine
