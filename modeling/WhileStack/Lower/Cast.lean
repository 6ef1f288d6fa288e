import WhileStack.Machine.Ty

/-! Casts: a type to itself, numbers and booleans to strings, and a record onto some of its fields. -/
namespace WhileStack.Lower
open Machine

inductive CastKind where
  | identity
  | convert
deriving DecidableEq, Repr

def castKind? (source target : Ty) : Option CastKind :=
  if source = target then some .identity
  else match source, target with
    | .int, .string => some .convert
    | .boolean, .string => some .convert
    | .record _, .record fs =>
      if fs.all fun f => (source.field? f.1).any fun g => g.2 = f.2 then some .convert else none
    | _, _ => none

end WhileStack.Lower
