import WhileStack.Datum.Printer
import WhileStack.Source.Program

/-! Data from programs, and programs as text. Places are left out. -/
namespace WhileStack.Source

def sym (s : String) : Datum := .symbol default s

def form (items : List Datum) : Datum := .list default items []

mutual

def Ty.toDatum : Ty → Datum
  | .list t => form [sym "list", Ty.toDatum t]
  | .record fs => form (sym "record" :: fieldTyData fs)
  | t => sym t.text

def fieldTyData : List (String × Ty) → List Datum
  | [] => []
  | (n, t) :: fs => form [sym n, Ty.toDatum t] :: fieldTyData fs

end

def Literal.toDatum : Literal → Datum
  | .int n => .integer default (toString n) n
  | .string s => .string default s
  | .bool true => sym "true"
  | .bool false => sym "false"

mutual

def Expr.toDatum : Expr → Datum
  | .const a v => form [sym "const", a.ty.toDatum, v.toDatum]
  | .var a n => form [sym "var", a.ty.toDatum, sym n]
  | .binary a op l r => form [sym "binary", a.ty.toDatum, sym op.symbol, Expr.toDatum l, Expr.toDatum r]
  | .unary a op e => form [sym "unary", a.ty.toDatum, sym op.symbol, Expr.toDatum e]
  | .cast a e => form [sym "cast", a.ty.toDatum, Expr.toDatum e]
  | .call a f args => form (sym "invoke" :: a.ty.toDatum :: sym f :: exprData args)
  | .index a s i => form [sym "index", a.ty.toDatum, Expr.toDatum s, Expr.toDatum i]
  | .list a es => form (sym "newlist" :: a.ty.toDatum :: exprData es)
  | .record a fs => form (sym "newrecord" :: a.ty.toDatum :: fieldValueData fs)
  | .field a s n => form [sym "field", a.ty.toDatum, Expr.toDatum s, sym n]

def exprData : List Expr → List Datum
  | [] => []
  | e :: es => Expr.toDatum e :: exprData es

def fieldValueData : List (String × Expr) → List Datum
  | [] => []
  | (n, e) :: fs => form [sym n, Expr.toDatum e] :: fieldValueData fs

end

def VarDecl.toDatum (d : VarDecl) : Datum :=
  form ([sym "decl", d.ty.toDatum, sym d.name] ++ (d.init.map Expr.toDatum).toList)

mutual

def Stmt.toDatum : Stmt → Datum
  | .decl d => d.toDatum
  | .assign _ t e => form [sym "assign", t.toExpr.toDatum, e.toDatum]
  | .print _ e => form [sym "print", e.toDatum]
  | .ifElse _ c yes no =>
    form ([sym "if", c.toDatum, form (sym "block" :: stmtData yes)]
      ++ if no.isEmpty then [] else [form (sym "block" :: stmtData no)])
  | .whileDo _ c body => form [sym "while", c.toDatum, form (sym "block" :: stmtData body)]
  | .forDo _ i c s body =>
    form [sym "for", i.toDatum, c.toDatum, Stmt.toDatum s, form (sym "block" :: stmtData body)]
  | .ret _ e => form (sym "return" :: (e.map Expr.toDatum).toList)
  | .expr _ e => form [sym "expr", e.toDatum]

def stmtData : List Stmt → List Datum
  | [] => []
  | s :: rest => Stmt.toDatum s :: stmtData rest

end

def Decl.toDatum : Decl → Datum
  | .fn f =>
    .list default
      (sym "fun" :: sym f.name :: f.ret.toDatum :: form (f.params.map fun p => form [sym p.1, p.2.toDatum])
        :: stmtData f.body)
      (if f.isEntry then [("entry", sym "true")] else [])
  | .type t => form [sym "type", sym t.name, t.ty.toDatum]

def Program.toDatum (p : Program) : Datum := form (sym "program" :: p.decls.map Decl.toDatum)

def Program.render (p : Program) : String := p.toDatum.render

end WhileStack.Source
