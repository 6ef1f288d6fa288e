import WhileStack.Source.Program

/-! What stands inside bodies and expressions, with the variables that can be seen there by the text alone. -/
namespace WhileStack.Source

/-- Variables with the types they are declared with, the latest first. -/
abbrev Names := List (String × Ty)

namespace Expr

/-- The parts of an expression that are expressions. -/
def children : Expr → List Expr
  | const _ _ | var _ _ => []
  | binary _ _ lhs rhs => [lhs, rhs]
  | unary _ _ e | cast _ e => [e]
  | call _ _ args => args
  | index _ source position => [source, position]
  | list _ elems => elems
  | record _ fields => fields.map Prod.snd
  | field _ source _ => [source]

/-- An expression contains itself and whatever its parts contain. -/
inductive Contains (root : Expr) : Expr → Prop
  | root : Contains root root
  | child {e x : Expr} (h : Contains root e) (hx : x ∈ e.children) : Contains root x

end Expr

/-- The parts of a target that are expressions. -/
def Target.children (target : Target) : List Expr := target.toExpr.children

namespace Stmt

/-- What can be seen behind a statement of the same block. -/
def after (names : Names) : Stmt → Names
  | decl d => (d.name, d.ty) :: names
  | _ => names

/-- The expressions of a statement, but for those of the statements in it and the target of an assignment, whose parts
only are among them. A loop condition sees the variable of the loop. -/
def exprs (names : Names) : Stmt → List (Names × Expr)
  | decl d => d.init.toList.map fun e => (names, e)
  | assign _ target value => (value :: target.children).map fun e => (names, e)
  | print _ value | expr _ value => [(names, value)]
  | ret _ value => value.toList.map fun e => (names, e)
  | ifElse _ cond _ _ | whileDo _ cond _ => [(names, cond)]
  | forDo _ init cond _ _ => [((init.name, init.ty) :: names, cond)]

mutual

/-- A statement stands at or in another one. The first declaration of a loop is a statement in it. -/
inductive Holds : Names → Stmt → Names → Stmt → Prop
  | self {names s} : Holds names s names s
  | yes {names names' l c yes no s} (h : InBlock names yes names' s) : Holds names (.ifElse l c yes no) names' s
  | no {names names' l c yes no s} (h : InBlock names no names' s) : Holds names (.ifElse l c yes no) names' s
  | whileBody {names names' l c body s} (h : InBlock names body names' s) : Holds names (.whileDo l c body) names' s
  | init {names l d c step body} : Holds names (.forDo l d c step body) names (.decl d)
  | forBody {names names' l d c step body s} (h : InBlock ((d.name, d.ty) :: names) body names' s) :
    Holds names (.forDo l d c step body) names' s
  | step {names names' l d c step body s} (h : Holds ((d.name, d.ty) :: names) step names' s) :
    Holds names (.forDo l d c step body) names' s

/-- A statement stands somewhere in a block. -/
inductive InBlock : Names → List Stmt → Names → Stmt → Prop
  | head {names names' s rest x} (h : Holds names s names' x) : InBlock names (s :: rest) names' x
  | tail {names names' s rest x} (h : InBlock (s.after names) rest names' x) : InBlock names (s :: rest) names' x

end

end Stmt

end WhileStack.Source
