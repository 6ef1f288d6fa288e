import WhileStack.Source.Ty

/-! Typed While programs. Every expression carries its static type and its place in the text. -/
namespace WhileStack.Source

/-- A place in a source text. It is known only if the line is positive. -/
structure Loc where
  line : Int
  col : Int
deriving DecidableEq, Repr, Inhabited

namespace Loc

def unknown : Loc := ⟨0, 0⟩

def isKnown (l : Loc) : Bool := 0 < l.line

def text (l : Loc) : String :=
  if !l.isKnown then "-"
  else if l.col = 0 then toString l.line
  else toString l.line ++ ":" ++ toString l.col

/-- A message with its place in front, if that is known. -/
def label (l : Loc) (message : String) : String :=
  if l.isKnown then l.text ++ ": " ++ message else message

end Loc

inductive BinOp where
  | and
  | or
  | add
  | sub
  | mul
  | div
  | rem
  | eq
  | ne
  | lt
  | le
  | gt
  | ge
  | append
  | other (symbol : String)
deriving DecidableEq, Repr

namespace BinOp

def symbol : BinOp → String
  | .and => "&&"
  | .or => "||"
  | .add => "+"
  | .sub => "-"
  | .mul => "*"
  | .div => "/"
  | .rem => "%"
  | .eq => "=="
  | .ne => "!="
  | .lt => "<"
  | .le => "<="
  | .gt => ">"
  | .ge => ">="
  | .append => "++"
  | .other s => s

def known : List BinOp := [.and, .or, .add, .sub, .mul, .div, .rem, .eq, .ne, .lt, .le, .gt, .ge, .append]

def ofSymbol (s : String) : BinOp := (known.find? fun op => op.symbol = s).getD (.other s)

end BinOp

inductive UnOp where
  | not
  | neg
  | length
  | other (symbol : String)
deriving DecidableEq, Repr

namespace UnOp

def symbol : UnOp → String
  | .not => "!"
  | .neg => "-"
  | .length => "len"
  | .other s => s

def known : List UnOp := [.not, .neg, .length]

def ofSymbol (s : String) : UnOp := (known.find? fun op => op.symbol = s).getD (.other s)

end UnOp

inductive Literal where
  | bool (b : Bool)
  /-- An integer of 64 bits. -/
  | int (n : Int)
  | string (s : String)
deriving DecidableEq, Repr

/-- The static facts of an expression. -/
structure Attr where
  ty : Ty
  loc : Loc
deriving DecidableEq, Repr, Inhabited

inductive Expr where
  | const (attr : Attr) (value : Literal)
  | var (attr : Attr) (name : String)
  | binary (attr : Attr) (op : BinOp) (lhs rhs : Expr)
  | unary (attr : Attr) (op : UnOp) (operand : Expr)
  /-- Converts the operand to the type of the expression. -/
  | cast (attr : Attr) (operand : Expr)
  | call (attr : Attr) (function : String) (args : List Expr)
  | index (attr : Attr) (source position : Expr)
  | list (attr : Attr) (elems : List Expr)
  /-- The fields in the order in which they are written. -/
  | record (attr : Attr) (fields : List (String × Expr))
  | field (attr : Attr) (source : Expr) (name : String)

namespace Expr

def attr : Expr → Attr
  | const a _ => a
  | var a _ => a
  | binary a _ _ _ => a
  | unary a _ _ => a
  | cast a _ => a
  | call a _ _ => a
  | index a _ _ => a
  | list a _ => a
  | record a _ => a
  | field a _ _ => a

def ty (e : Expr) : Ty := e.attr.ty

def loc (e : Expr) : Loc := e.attr.loc

end Expr

/-- What an assignment can write to. -/
inductive Target where
  | var (attr : Attr) (name : String)
  | index (attr : Attr) (source position : Expr)
  | field (attr : Attr) (source : Expr) (name : String)

namespace Target

def toExpr : Target → Expr
  | var a n => .var a n
  | index a s i => .index a s i
  | field a s n => .field a s n

def ofExpr? : Expr → Option Target
  | .var a n => some (var a n)
  | .index a s i => some (index a s i)
  | .field a s n => some (field a s n)
  | _ => none

end Target

/-- A variable with its type; without a first value it stays unset until it is assigned. -/
structure VarDecl where
  loc : Loc
  ty : Ty
  name : String
  init : Option Expr

inductive Stmt where
  | decl (d : VarDecl)
  | assign (loc : Loc) (target : Target) (value : Expr)
  | print (loc : Loc) (value : Expr)
  | ifElse (loc : Loc) (cond : Expr) (yes no : List Stmt)
  | whileDo (loc : Loc) (cond : Expr) (body : List Stmt)
  | forDo (loc : Loc) (init : VarDecl) (cond : Expr) (step : Stmt) (body : List Stmt)
  | ret (loc : Loc) (value : Option Expr)
  | expr (loc : Loc) (value : Expr)

namespace Stmt

def loc : Stmt → Loc
  | decl d => d.loc
  | assign l _ _ => l
  | print l _ => l
  | ifElse l _ _ _ => l
  | whileDo l _ _ => l
  | forDo l _ _ _ _ => l
  | ret l _ => l
  | expr l _ => l

mutual

/-- A statement that returns on every path, as far as its form shows. -/
def returns : Stmt → Bool
  | ret _ _ => true
  | ifElse _ _ yes no => allReturn yes && allReturn no
  | _ => false

/-- Only the last statement of a sequence counts. -/
def allReturn : List Stmt → Bool
  | [] => false
  | s :: rest => if rest.isEmpty then returns s else allReturn rest

end

end Stmt

structure FunDecl where
  loc : Loc
  name : String
  params : List (String × Ty)
  ret : Ty
  body : List Stmt
  isEntry : Bool

/-- Gives a type a second name. -/
structure TypeDecl where
  loc : Loc
  name : String
  ty : Ty

inductive Decl where
  | fn (f : FunDecl)
  | type (t : TypeDecl)

/-- Type names with their meaning; of two entries under one name the first counts. -/
abbrev Aliases := List (String × Ty)

structure Program where
  decls : List Decl

namespace Program

def functions (p : Program) : List FunDecl :=
  p.decls.filterMap fun
    | .fn f => some f
    | .type _ => none

def types (p : Program) : List TypeDecl :=
  p.decls.filterMap fun
    | .fn _ => none
    | .type t => some t

def function? (p : Program) (name : String) : Option FunDecl :=
  p.functions.find? fun f => f.name = name

def entry? (p : Program) : Option FunDecl := p.functions.find? FunDecl.isEntry

/-- A later declaration of a type name replaces an earlier one. -/
def aliases (p : Program) : Aliases :=
  (p.types.map fun t => (t.name, t.ty)).reverse

end Program
end WhileStack.Source
