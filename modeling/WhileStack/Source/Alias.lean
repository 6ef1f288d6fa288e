import WhileStack.Source.Program

/-! Following type names to the type they stand for. -/
namespace WhileStack.Source

inductive AliasError where
  | recursive (name : String)
  | undeclared (name : String)
deriving DecidableEq, Repr

def AliasError.message : AliasError → String
  | .recursive n => "recursive type " ++ n
  | .undeclared n => "unknown type " ++ n

/-- Follows names through `left` declarations at most; `seen` holds those already followed. -/
def Aliases.follow (aliases : Aliases) : Nat → List String → Ty → Except AliasError Ty
  | left, seen, .named n =>
    if n ∈ seen then .error (.recursive n)
    else match aliases.lookup n, left with
      | none, _ => .error (.undeclared n)
      | some _, 0 => .error (.recursive n)
      | some t, left + 1 => follow aliases left (n :: seen) t
  | _, _, t => .ok t

/-- The type that stands behind a name. Elements and fields may still be named. -/
def Aliases.underlying (aliases : Aliases) (t : Ty) : Except AliasError Ty :=
  aliases.follow aliases.length [] t

/-- One entry for each name, by name. -/
def Aliases.sorted (aliases : Aliases) : Aliases :=
  let names := (aliases.map Prod.fst).eraseDups.mergeSort fun a b => !decide (b < a)
  names.filterMap fun n => (aliases.lookup n).map fun t => (n, t)

end WhileStack.Source
