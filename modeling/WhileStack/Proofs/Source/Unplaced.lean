import WhileStack.Proofs.Datum.RoundTrip
import WhileStack.Source.ToDatum

/-! Programs without their places, and the strings they hold. -/
namespace WhileStack.Source

def Attr.unplaced (a : Attr) : Attr := { a with loc := .unknown }

namespace Expr

mutual

/-- The expression with all places unknown. -/
def unplaced : Expr → Expr
  | const a v => const a.unplaced v
  | var a n => var a.unplaced n
  | binary a op lhs rhs => binary a.unplaced op (unplaced lhs) (unplaced rhs)
  | unary a op e => unary a.unplaced op (unplaced e)
  | cast a e => cast a.unplaced (unplaced e)
  | call a f args => call a.unplaced f (unplacedAll args)
  | index a source position => index a.unplaced (unplaced source) (unplaced position)
  | list a elems => list a.unplaced (unplacedAll elems)
  | record a fields => record a.unplaced (unplacedFields fields)
  | field a source n => field a.unplaced (unplaced source) n

def unplacedAll : List Expr → List Expr
  | [] => []
  | e :: es => unplaced e :: unplacedAll es

def unplacedFields : List (String × Expr) → List (String × Expr)
  | [] => []
  | (n, e) :: fs => (n, unplaced e) :: unplacedFields fs

end

mutual

/-- The string constants of an expression. -/
def strings : Expr → List String
  | const _ (.string s) => [s]
  | const _ _ => []
  | var .. => []
  | binary _ _ lhs rhs => strings lhs ++ strings rhs
  | unary _ _ e => strings e
  | cast _ e => strings e
  | call _ _ args => stringsIn args
  | index _ source position => strings source ++ strings position
  | list _ elems => stringsIn elems
  | record _ fields => fieldStrings fields
  | field _ source _ => strings source

def stringsIn : List Expr → List String
  | [] => []
  | e :: es => strings e ++ stringsIn es

def fieldStrings : List (String × Expr) → List String
  | [] => []
  | (_, e) :: fs => strings e ++ fieldStrings fs

end

end Expr

def Target.unplaced : Target → Target
  | var a n => var a.unplaced n
  | index a source position => index a.unplaced source.unplaced position.unplaced
  | field a source n => field a.unplaced source.unplaced n

namespace VarDecl

def unplaced (d : VarDecl) : VarDecl := ⟨.unknown, d.ty, d.name, d.init.map Expr.unplaced⟩

def strings (d : VarDecl) : List String := (d.init.map Expr.strings).getD []

end VarDecl

namespace Stmt

mutual

/-- The statement with all places unknown. -/
def unplaced : Stmt → Stmt
  | decl d => decl d.unplaced
  | assign _ target value => assign .unknown target.unplaced value.unplaced
  | print _ value => print .unknown value.unplaced
  | ifElse _ cond yes no => ifElse .unknown cond.unplaced (unplacedAll yes) (unplacedAll no)
  | whileDo _ cond body => whileDo .unknown cond.unplaced (unplacedAll body)
  | forDo _ init cond step body => forDo .unknown init.unplaced cond.unplaced (unplaced step) (unplacedAll body)
  | ret _ value => ret .unknown (value.map Expr.unplaced)
  | expr _ value => expr .unknown value.unplaced

def unplacedAll : List Stmt → List Stmt
  | [] => []
  | s :: rest => unplaced s :: unplacedAll rest

end

mutual

/-- The string constants of a statement. -/
def strings : Stmt → List String
  | decl d => d.strings
  | assign _ target value => target.toExpr.strings ++ value.strings
  | print _ value => value.strings
  | ifElse _ cond yes no => cond.strings ++ stringsIn yes ++ stringsIn no
  | whileDo _ cond body => cond.strings ++ stringsIn body
  | forDo _ init cond step body => init.strings ++ cond.strings ++ strings step ++ stringsIn body
  | ret _ value => (value.map Expr.strings).getD []
  | expr _ value => value.strings

def stringsIn : List Stmt → List String
  | [] => []
  | s :: rest => strings s ++ stringsIn rest

end

end Stmt

namespace Decl

def unplaced : Decl → Decl
  | fn f => fn { f with loc := .unknown, body := Stmt.unplacedAll f.body }
  | type t => type { t with loc := .unknown }

def strings : Decl → List String
  | fn f => Stmt.stringsIn f.body
  | type _ => []

end Decl

namespace Program

/-- The program with all places unknown. -/
def unplaced (p : Program) : Program := ⟨p.decls.map Decl.unplaced⟩

/-- The string constants of a program. -/
def strings (p : Program) : List String := p.decls.flatMap Decl.strings

end Program

section Strings
open Datum (itemStrings entryStrings)

@[simp] theorem strings_sym (s : String) : (sym s).strings = [] := rfl

@[simp] theorem strings_form (items : List Datum) : (form items).strings = itemStrings items := by
  simp [form, Datum.strings, entryStrings]

mutual

@[simp] theorem Ty.strings_toDatum : ∀ t : Ty, t.toDatum.strings = []
  | .void | .bool | .int | .string | .named _ => rfl
  | .list t => by simp [Ty.toDatum, itemStrings, Ty.strings_toDatum t]
  | .record fs => by simp [Ty.toDatum, itemStrings, strings_fieldTyData fs]

theorem strings_fieldTyData : ∀ fs : List (String × Ty), itemStrings (fieldTyData fs) = []
  | [] => rfl
  | (n, t) :: fs => by simp [fieldTyData, itemStrings, Ty.strings_toDatum t, strings_fieldTyData fs]

end

mutual

@[simp] theorem Expr.strings_toDatum : ∀ e : Expr, e.toDatum.strings = e.strings
  | .const a v => by
    cases v with
    | bool b => cases b <;> simp [Expr.toDatum, Literal.toDatum, itemStrings, Expr.strings]
    | int n | string s => simp [Expr.toDatum, Literal.toDatum, itemStrings, Datum.strings, Expr.strings]
  | .var a n => by simp [Expr.toDatum, itemStrings, Expr.strings]
  | .binary a op l r => by
    simp [Expr.toDatum, itemStrings, Expr.strings, Expr.strings_toDatum l, Expr.strings_toDatum r]
  | .unary a op e | .cast a e => by simp [Expr.toDatum, itemStrings, Expr.strings, Expr.strings_toDatum e]
  | .call a f es | .list a es => by simp [Expr.toDatum, itemStrings, Expr.strings, strings_exprData es]
  | .index a s i => by
    simp [Expr.toDatum, itemStrings, Expr.strings, Expr.strings_toDatum s, Expr.strings_toDatum i]
  | .record a fs => by simp [Expr.toDatum, itemStrings, Expr.strings, strings_fieldValueData fs]
  | .field a s n => by simp [Expr.toDatum, itemStrings, Expr.strings, Expr.strings_toDatum s]

theorem strings_exprData : ∀ es : List Expr, itemStrings (exprData es) = Expr.stringsIn es
  | [] => rfl
  | e :: es => by simp [exprData, itemStrings, Expr.stringsIn, Expr.strings_toDatum e, strings_exprData es]

theorem strings_fieldValueData : ∀ fs : List (String × Expr), itemStrings (fieldValueData fs) = Expr.fieldStrings fs
  | [] => rfl
  | (n, e) :: fs => by
    simp [fieldValueData, itemStrings, Expr.fieldStrings, Expr.strings_toDatum e, strings_fieldValueData fs]

end

@[simp] theorem VarDecl.strings_toDatum (d : VarDecl) : d.toDatum.strings = d.strings := by
  obtain ⟨loc, ty, name, _ | init⟩ := d <;> simp [VarDecl.toDatum, VarDecl.strings, itemStrings]

mutual

theorem Stmt.strings_toDatum : ∀ s : Stmt, s.toDatum.strings = s.strings
  | .decl d => d.strings_toDatum
  | .assign _ t e => by simp [Stmt.toDatum, itemStrings, Stmt.strings]
  | .print _ e | .expr _ e => by simp [Stmt.toDatum, itemStrings, Stmt.strings]
  | .ifElse _ c yes no => by
    cases no <;> simp [Stmt.toDatum, itemStrings, Stmt.strings, Stmt.stringsIn, strings_stmtData]
  | .whileDo _ c body => by simp [Stmt.toDatum, itemStrings, Stmt.strings, strings_stmtData body]
  | .forDo _ i c s body => by
    simp [Stmt.toDatum, itemStrings, Stmt.strings, Stmt.strings_toDatum s, strings_stmtData body]
  | .ret _ e => by cases e <;> simp [Stmt.toDatum, itemStrings, Stmt.strings]

theorem strings_stmtData : ∀ ss : List Stmt, itemStrings (stmtData ss) = Stmt.stringsIn ss
  | [] => rfl
  | s :: rest => by simp [stmtData, itemStrings, Stmt.stringsIn, Stmt.strings_toDatum s, strings_stmtData rest]

end

private theorem itemStrings_eq_flatMap (ds : List Datum) : itemStrings ds = ds.flatMap Datum.strings := by
  induction ds with
  | nil => rfl
  | cons d ds ih => simp [itemStrings, ih]

theorem Decl.strings_toDatum (d : Decl) : d.toDatum.strings = d.strings := by
  cases d with
  | type t => simp [Decl.toDatum, Decl.strings, itemStrings]
  | fn f =>
    have hparams : itemStrings (f.params.map fun p => form [sym p.1, p.2.toDatum]) = [] := by
      simp [itemStrings_eq_flatMap, List.flatMap_map, itemStrings]
    have hnotes : entryStrings (if f.isEntry then [("entry", sym "true")] else []) = [] := by split <;> rfl
    simp [Decl.toDatum, Datum.strings, Decl.strings, itemStrings, hparams, hnotes, strings_stmtData]

/-- A program and its datum hold the same strings. -/
theorem Program.strings_toDatum (p : Program) : p.toDatum.strings = p.strings := by
  simp [Program.toDatum, Program.strings, itemStrings_eq_flatMap, List.flatMap_map, Decl.strings_toDatum]

end Strings

end WhileStack.Source
