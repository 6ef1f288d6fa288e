import WhileStack.Machine.Instr
import WhileStack.Settings.Version

/-! Compiled programs and their listing. -/
namespace WhileStack.Machine

structure Local where
  name : String
  slot : Nat
  ty : Ty
deriving DecidableEq, Repr

/-- The code of one function; branches hold indices of the code. -/
structure Method where
  name : String
  sig : Signature
  isEntry : Bool
  code : Array Instr
  locals : List Local
  maxStack : Nat
  maxLocals : Nat
deriving DecidableEq, Repr

structure Program where
  name : String
  version : Version
  methods : List Method
deriving DecidableEq, Repr

namespace Method

def header (m : Method) : String :=
  " ".intercalate (["method", m.sig.text]
    ++ (if m.sig.isStatic then ["static"] else [])
    ++ (if m.isEntry then ["entry"] else [])
    ++ ["stack=" ++ toString m.maxStack, "locals=" ++ toString m.maxLocals])

def listing (m : Method) : String := Machine.listing m.code.toList

end Method

namespace Program

def method? (p : Program) (name : String) : Option Method := p.methods.find? fun m => m.name = name

def entry? (p : Program) : Option Method := p.methods.find? Method.isEntry

/-- The whole program for a human reader. -/
def listing (p : Program) : String :=
  "class " ++ p.name ++ " version " ++ p.version.classText ++ "\n"
    ++ String.join (p.methods.map fun m =>
      "\n" ++ m.header ++ "\n"
        ++ String.join (((m.listing.splitOn "\n").filter fun l => !l.isEmpty).map fun l => "  " ++ l ++ "\n"))

end Program
end WhileStack.Machine
