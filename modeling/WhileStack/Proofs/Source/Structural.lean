import WhileStack.Source.Program

/-! Types without names. A name is expanded to the type that it stands for, at every depth. -/
namespace WhileStack.Source

namespace Ty
variable (onName : String → Ty)

mutual

/-- The type with every name in it replaced. -/
def expandWith : Ty → Ty
  | list t => list (expandWith t)
  | record fs => record (expandFields fs)
  | named n => onName n
  | t => t

def expandFields : List (String × Ty) → List (String × Ty)
  | [] => []
  | (n, t) :: fs => (n, expandWith t) :: expandFields fs

end

end Ty

mutual

/-- A type and the type that it stands for when all names are followed to the end. -/
inductive Expands (aliases : Aliases) : Ty → Ty → Prop
  | void : Expands aliases .void .void
  | bool : Expands aliases .bool .bool
  | int : Expands aliases .int .int
  | string : Expands aliases .string .string
  | list {t u} (h : Expands aliases t u) : Expands aliases (.list t) (.list u)
  | record {fs gs} (h : ExpandsFields aliases fs gs) : Expands aliases (.record fs) (.record gs)
  | named {n t u} (hn : aliases.lookup n = some t) (h : Expands aliases t u) : Expands aliases (.named n) u

inductive ExpandsFields (aliases : Aliases) : List (String × Ty) → List (String × Ty) → Prop
  | nil : ExpandsFields aliases [] []
  | cons {n t u fs gs} (h : Expands aliases t u) (hs : ExpandsFields aliases fs gs) :
    ExpandsFields aliases ((n, t) :: fs) ((n, u) :: gs)

end

/-- What a name stands for, where that is found within a number of expansions. -/
def Aliases.expansion (aliases : Aliases) : Nat → String → Ty
  | left, n =>
    match aliases.lookup n, left with
    | some t, left + 1 => t.expandWith (expansion aliases left)
    | _, _ => .named n

theorem Aliases.expansion_succ {aliases : Aliases} {left : Nat} {n : String} {t : Ty} (h : aliases.lookup n = some t) :
    aliases.expansion (left + 1) n = t.expandWith (aliases.expansion left) := by
  conv => lhs; unfold expansion
  simp only [h]

end WhileStack.Source
