import WhileStack.Source.Alias
import WhileStack.Source.ToDatum
import WhileStack.Value.Fault
import WhileStack.Value.Heap

/-! Why the evaluation of a program ends early, and how that is said. -/
namespace WhileStack.Eval
open Source (Ty Expr AliasError)

/-- Why a type has no zero value. -/
inductive ZeroError where
  | badAlias (error : AliasError)
  | noZero (ty : Ty)
  /-- A record that holds itself. -/
  | endless
deriving DecidableEq, Repr

def ZeroError.message : ZeroError → String
  | .badAlias e => e.message
  | .noZero t => "no zero value for " ++ t.text
  | .endless => "endless record"

inductive Stop where
  | fault (f : Fault)
  | unboundVariable (function name : String)
  | unboundFunction (function name : String)
  | notInt (function : String) (e : Expr) (tag : Tag)
  | notBool (function : String) (e : Expr) (tag : Tag)
  | badAlias (error : AliasError)
  | notRecordType (ty : Ty)
  | binaryOperator (symbol : String)
  | unaryOperator (symbol : String)
  | badCast (tag : Tag)
  | badOperand (error : ValueError)
  | argumentCount (function : String) (wanted given : Nat)
  | indexOn (tag : Tag)
  | accessOn (tag : Tag)
  | fieldMissing (name : String)
  | elementInto (tag : Tag)
  | fieldInto (name : String) (tag : Tag)
  | noEntry
  | noParameter (name function : String) (error : ZeroError)
  /-- A loop used up its rounds. -/
  | outOfBudget

def Stop.message : Stop → String
  | .fault f => f.message
  | .unboundVariable f n => f ++ ": unbound variable " ++ n
  | .unboundFunction f n => f ++ ": unbound function " ++ n
  | .notInt f e t => f ++ ": " ++ e.toDatum.render ++ " is " ++ t.text ++ ", not int"
  | .notBool f e t => f ++ ": " ++ e.toDatum.render ++ " is " ++ t.text ++ ", not bool"
  | .badAlias e => e.message
  | .notRecordType t => t.text ++ " is not a record type"
  | .binaryOperator s => "binary operator " ++ Text.quote s
  | .unaryOperator s => "unary operator " ++ Text.quote s
  | .badCast t => "cast of " ++ t.text ++ " to a record"
  | .badOperand e => e.message
  | .argumentCount f wanted given =>
    f ++ " takes " ++ toString wanted ++ " arguments, got " ++ toString given
  | .indexOn t => "indexing " ++ t.text
  | .accessOn t => "field access on " ++ t.text
  | .fieldMissing n => "missing initializer for field " ++ n
  | .elementInto t => "element assignment into " ++ t.text
  | .fieldInto n t => "no field " ++ n ++ " to assign in " ++ t.text
  | .noEntry => "program has no entry point"
  | .noParameter n f e => "parameter " ++ n ++ " of " ++ f ++ ": " ++ e.message
  | .outOfBudget => "out of budget"

/-- Evaluation changes the store and may stop; what was printed by then stays. -/
abbrev Exec := EStateM Stop Store

end WhileStack.Eval
