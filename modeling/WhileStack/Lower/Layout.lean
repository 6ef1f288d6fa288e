import WhileStack.Machine.Ty
import WhileStack.Source.Program

/-! Machine types of source types. Names are expanded through their declarations; void has a layout only where no
value is held. -/
namespace WhileStack.Lower
open Source (Ty Aliases)

inductive LayoutCause where
  | voidValue
  | recursiveAlias
  | unknownName
  /-- A slot was asked for something that takes no room. -/
  | noSlot (name : String)
deriving DecidableEq, Repr

structure LayoutError where
  ty : Ty
  cause : LayoutCause
deriving DecidableEq, Repr

def LayoutCause.message : LayoutCause → String
  | .voidValue => "void is not a value type"
  | .recursiveAlias => "recursive type alias"
  | .unknownName => "unknown type name"
  | .noSlot name => "cannot allocate a slot for " ++ name

def LayoutError.message (e : LayoutError) : String :=
  "unsupported type " ++ e.ty.text ++ ": " ++ e.cause.message

mutual

/-- The layout of a type, given that of each name; `allowVoid` tells whether void may stand at the top. -/
def layoutWith (onName : String → Bool → Except LayoutError Machine.Ty) (allowVoid : Bool) :
    Ty → Except LayoutError Machine.Ty
  | .void => if allowVoid then .ok .void else .error ⟨.void, .voidValue⟩
  | .bool => .ok .boolean
  | .int => .ok .int
  | .string => .ok .string
  | .list t => do .ok (.list (← layoutWith onName false t))
  | .record fs => do .ok (.record (← fieldLayouts onName fs))
  | .named n => onName n allowVoid

def fieldLayouts (onName : String → Bool → Except LayoutError Machine.Ty) :
    List (String × Ty) → Except LayoutError (List (String × Machine.Ty))
  | [] => .ok []
  | (n, t) :: fs => do
    let m ← layoutWith onName false t
    .ok ((n, m) :: (← fieldLayouts onName fs))

end

/-- The layout of a name. Each step expands a name that is not yet being expanded, so the number of declarations
bounds the nesting. -/
def nameLayout (aliases : Aliases) : Nat → List String → String → Bool → Except LayoutError Machine.Ty
  | left, expanding, n, allowVoid =>
    if n ∈ expanding then .error ⟨.named n, .recursiveAlias⟩
    else match aliases.lookup n, left with
      | none, _ => .error ⟨.named n, .unknownName⟩
      | some _, 0 => .error ⟨.named n, .recursiveAlias⟩
      | some t, left + 1 => layoutWith (nameLayout aliases left (n :: expanding)) allowVoid t

/-- The layout of any type, void included. -/
def layout (aliases : Aliases) (t : Ty) : Except LayoutError Machine.Ty :=
  layoutWith (nameLayout aliases aliases.length []) true t

/-- The layout of a type whose values are held in a variable, an element or a field. -/
def valueLayout (aliases : Aliases) (t : Ty) : Except LayoutError Machine.Ty :=
  layoutWith (nameLayout aliases aliases.length []) false t

end WhileStack.Lower
