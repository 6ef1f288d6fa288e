import WhileStack.Lower.Layout
import WhileStack.Machine.Depth
import WhileStack.Machine.Label

/-! Why a program cannot be lowered, and how that is said. -/
namespace WhileStack.Lower
open Source (Loc)

/-- Where a type was asked for: an expression's own type, or the place its value is used in. -/
inductive Context where
  | constant
  | variableRead
  | binary
  | unary
  | call
  | indexing
  | access
  | operator (symbol : String)
  | argument (function : String)
  | position
  | element
  | fieldValue (name : String)
  | initializer (name : String)
  | assignment (name : String)
  | elementAssignment
  | fieldAssignment (name : String)
  | result
  | ifCondition
  | loopCondition
deriving DecidableEq, Repr

def Context.text : Context → String
  | constant => "*lang.Constant"
  | variableRead => "*lang.Variable"
  | binary => "*lang.Binary"
  | unary => "*lang.Unary"
  | call => "*lang.Invoke"
  | indexing => "*lang.IndexOf"
  | access => "*lang.RecordAccess"
  | operator s => s
  | argument f => "argument of " ++ f
  | position => "index"
  | element => "list element"
  | fieldValue n => "field " ++ n
  | initializer n => "initializer of " ++ n
  | assignment n => "assignment to " ++ n
  | elementAssignment => "element assignment"
  | fieldAssignment n => "assignment to field " ++ n
  | result => "return"
  | ifCondition => "if condition"
  | loopCondition => "loop condition"

/-- What the machine has no code for. -/
inductive Construct where
  | voidValue
  | wideConstant (n : Int)
  | binaryOperator (symbol : String)
  | unaryOperator (symbol : String)
  | appendOn (ty : Machine.Ty)
  | lengthOf (ty : Machine.Ty)
  | entryCall (function : String)
  | argumentCount (function : String) (given wanted : Nat)
  | indexOn (ty : Machine.Ty)
  | accessOn (ty : Machine.Ty)
  | noField (ty : Machine.Ty) (name : String)
  | listOfType (ty : Machine.Ty)
  | recordOfType (ty : Machine.Ty)
  | fieldTwice (name : String)
  | fieldMissing (name : String)
  | printVoid
  | returnFromVoid (function : String)
  | entryPoints (names : List String)
deriving DecidableEq, Repr

def Construct.text : Construct → String
  | voidValue => "use of a void value"
  | wideConstant n => "integer constant " ++ toString n ++ " does not fit in 32 bits"
  | binaryOperator s => "binary operator " ++ Text.quote s
  | unaryOperator s => "unary operator " ++ Text.quote s
  | appendOn t => "append on " ++ t.text
  | lengthOf t => "length of " ++ t.text
  | entryCall f => "call to entry point " ++ f
  | argumentCount f given wanted =>
    "call to " ++ f ++ " with " ++ toString given ++ " arguments, want " ++ toString wanted
  | indexOn t => "indexing " ++ t.text
  | accessOn t => "field access on " ++ t.text
  | noField t n => t.text ++ " has no field " ++ n
  | listOfType t => "list constructor of type " ++ t.text
  | recordOfType t => "record constructor of type " ++ t.text
  | fieldTwice n => "field " ++ n ++ " initialized twice"
  | fieldMissing n => "missing initializer for field " ++ n
  | printVoid => "print of a void value"
  | returnFromVoid f => "return with a value from void function " ++ f
  | entryPoints names => "multiple entry points: " ++ ", ".intercalate names

inductive Cause where
  | unboundVariable (name : String) (loc : Loc)
  | unboundFunction (name : String) (loc : Loc)
  | unsupported (what : Construct) (loc : Loc)
  | badCast (source target : Source.Ty) (loc : Loc)
  | mismatch (context : Context) (want got : Machine.Ty) (loc : Loc)
  | badType (error : LayoutError)
  | duplicateParameter (function name : String)
  | badLabel (error : Machine.LabelError)
  | badDepth (function : String) (error : Machine.DepthError)
deriving DecidableEq, Repr

def Cause.message : Cause → String
  | unboundVariable n loc => loc.label ("unbound variable " ++ n)
  | unboundFunction n loc => loc.label ("unbound function " ++ n)
  | unsupported what loc => loc.label ("unsupported construct: " ++ what.text)
  | badCast source target loc => loc.label ("unsupported cast from " ++ source.text ++ " to " ++ target.text)
  | mismatch c want got loc =>
    loc.label ("type mismatch in " ++ c.text ++ ": want " ++ want.text ++ ", got " ++ got.text)
  | badType e => e.message
  | duplicateParameter f n => "duplicate parameter " ++ n ++ " in " ++ f
  | badLabel e => e.message
  | badDepth f e => "verifying " ++ f ++ ": " ++ e.message

/-- A failure inside one function. -/
structure FunctionError where
  function : String
  loc : Loc
  cause : Cause
deriving DecidableEq, Repr

def FunctionError.message (e : FunctionError) : String :=
  "function " ++ e.function ++ ": " ++ e.cause.message

inductive ProgramError where
  | duplicateFunction (name : String) (loc : Loc)
  | manyEntries (names : List String)
  | inFunction (error : FunctionError)
deriving DecidableEq, Repr

def ProgramError.message : ProgramError → String
  | duplicateFunction n loc => loc.label ("duplicate function " ++ n)
  | manyEntries names => (Cause.unsupported (.entryPoints names) Loc.unknown).message
  | inFunction e => e.message

/-- The errors of a program under one heading. -/
def summary (messages : List String) : String :=
  let heading := if messages.length = 1 then "1 error occurred:" else toString messages.length ++ " errors occurred:"
  heading ++ "\n\t" ++ "\n\t".intercalate (messages.map ("* " ++ ·)) ++ "\n\n"

/-- The errors of a program for the end of a line: one stands alone, several are numbered. -/
def outline (messages : List String) : String :=
  match messages with
  | [m] => m
  | _ =>
    toString messages.length ++ " errors occurred:"
      ++ String.join ((messages.zipIdx 1).map fun (m, i) => "\n    " ++ toString i ++ ") " ++ m)

end WhileStack.Lower
