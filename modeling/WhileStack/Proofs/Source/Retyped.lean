import WhileStack.Source.Program

/-! Programs under another choice of types. Every type that a function carries is replaced by a function of types; names,
places and the order of things stay. -/
namespace WhileStack.Source
variable (φ : Ty → Ty)

def Attr.retype (a : Attr) : Attr := { a with ty := φ a.ty }

namespace Expr

mutual

/-- The expression with the types of all its attributes replaced. -/
def retype : Expr → Expr
  | const a v => const (a.retype φ) v
  | var a n => var (a.retype φ) n
  | binary a op lhs rhs => binary (a.retype φ) op (retype lhs) (retype rhs)
  | unary a op e => unary (a.retype φ) op (retype e)
  | cast a e => cast (a.retype φ) (retype e)
  | call a f args => call (a.retype φ) f (retypeAll args)
  | index a source position => index (a.retype φ) (retype source) (retype position)
  | list a elems => list (a.retype φ) (retypeAll elems)
  | record a fields => record (a.retype φ) (retypeFields fields)
  | field a source n => field (a.retype φ) (retype source) n

def retypeAll : List Expr → List Expr
  | [] => []
  | e :: es => retype e :: retypeAll es

def retypeFields : List (String × Expr) → List (String × Expr)
  | [] => []
  | (n, e) :: fs => (n, retype e) :: retypeFields fs

end

@[simp] theorem loc_retype (e : Expr) : (e.retype φ).loc = e.loc := by cases e <;> rfl

@[simp] theorem length_retypeAll (es : List Expr) : (retypeAll φ es).length = es.length := by
  induction es with
  | nil => rfl
  | cons e es ih => simp [retypeAll, ih]

@[simp] theorem names_retypeFields (fs : List (String × Expr)) : (retypeFields φ fs).map Prod.fst = fs.map Prod.fst := by
  induction fs with
  | nil => rfl
  | cons f fs ih => simp [retypeFields, ih]

end Expr

def Target.retype : Target → Target
  | var a n => var (a.retype φ) n
  | index a source position => index (a.retype φ) (source.retype φ) (position.retype φ)
  | field a source n => field (a.retype φ) (source.retype φ) n

def VarDecl.retype (d : VarDecl) : VarDecl := ⟨d.loc, φ d.ty, d.name, d.init.map (Expr.retype φ)⟩

namespace Stmt

mutual

/-- The statement with the types of its declarations and attributes replaced. -/
def retype : Stmt → Stmt
  | decl d => decl (d.retype φ)
  | assign loc target value => assign loc (target.retype φ) (value.retype φ)
  | print loc value => print loc (value.retype φ)
  | ifElse loc cond yes no => ifElse loc (cond.retype φ) (retypeAll yes) (retypeAll no)
  | whileDo loc cond body => whileDo loc (cond.retype φ) (retypeAll body)
  | forDo loc init cond step body => forDo loc (init.retype φ) (cond.retype φ) (retype step) (retypeAll body)
  | ret loc value => ret loc (value.map (Expr.retype φ))
  | expr loc value => expr loc (value.retype φ)

def retypeAll : List Stmt → List Stmt
  | [] => []
  | s :: rest => retype s :: retypeAll rest

end

mutual

@[simp] theorem returns_retype : ∀ s : Stmt, (s.retype φ).returns = s.returns
  | ifElse _ _ yes no => by simp only [retype, returns, allReturn_retypeAll yes, allReturn_retypeAll no]
  | decl _ | assign _ _ _ | print _ _ | whileDo _ _ _ | forDo _ _ _ _ _ | ret _ _ | expr _ _ => by
    simp only [retype, returns]

@[simp] theorem allReturn_retypeAll : ∀ ss : List Stmt, allReturn (retypeAll φ ss) = allReturn ss
  | [] => rfl
  | s :: rest => by
    have hempty : (retypeAll φ rest).isEmpty = rest.isEmpty := by cases rest <;> rfl
    simp only [retypeAll, allReturn, hempty, returns_retype s, allReturn_retypeAll rest]

end

end Stmt

/-- The function with the types of its signature and of its body replaced. -/
def FunDecl.retype (f : FunDecl) : FunDecl :=
  { f with params := f.params.map fun q => (q.1, φ q.2), ret := φ f.ret, body := Stmt.retypeAll φ f.body }

/-! Types that are kept make no difference. -/

theorem Attr.retype_id (a : Attr) : a.retype (fun t => t) = a := rfl

mutual

theorem Expr.retype_id : ∀ e : Expr, e.retype (fun t => t) = e
  | .const _ _ | .var _ _ => rfl
  | .binary _ _ lhs rhs => by rw [Expr.retype, Expr.retype_id lhs, Expr.retype_id rhs, Attr.retype_id]
  | .unary _ _ e | .cast _ e | .field _ e _ => by rw [Expr.retype, Expr.retype_id e, Attr.retype_id]
  | .call _ _ es | .list _ es => by rw [Expr.retype, Expr.retypeAll_id es, Attr.retype_id]
  | .index _ source position => by rw [Expr.retype, Expr.retype_id source, Expr.retype_id position, Attr.retype_id]
  | .record _ fields => by rw [Expr.retype, Expr.retypeFields_id fields, Attr.retype_id]

theorem Expr.retypeAll_id : ∀ es : List Expr, Expr.retypeAll (fun t => t) es = es
  | [] => rfl
  | e :: es => by rw [Expr.retypeAll, Expr.retype_id e, Expr.retypeAll_id es]

theorem Expr.retypeFields_id : ∀ fs : List (String × Expr), Expr.retypeFields (fun t => t) fs = fs
  | [] => rfl
  | (n, e) :: fs => by rw [Expr.retypeFields, Expr.retype_id e, Expr.retypeFields_id fs]

end

theorem Target.retype_id (t : Target) : t.retype (fun t => t) = t := by
  cases t <;> simp only [Target.retype, Expr.retype_id, Attr.retype_id]

private theorem map_retype_id (e : Option Expr) : e.map (Expr.retype fun t => t) = e := by
  cases e <;> simp only [Option.map_none, Option.map_some, Expr.retype_id]

theorem VarDecl.retype_id (d : VarDecl) : d.retype (fun t => t) = d := by simp only [VarDecl.retype, map_retype_id]

mutual

theorem Stmt.retype_id : ∀ s : Stmt, s.retype (fun t => t) = s
  | .decl d => by rw [Stmt.retype, VarDecl.retype_id]
  | .assign _ t e => by rw [Stmt.retype, Target.retype_id, Expr.retype_id]
  | .print _ e | .expr _ e => by rw [Stmt.retype, Expr.retype_id]
  | .ret _ e => by rw [Stmt.retype, map_retype_id]
  | .ifElse _ c yes no => by rw [Stmt.retype, Expr.retype_id, Stmt.retypeAll_id yes, Stmt.retypeAll_id no]
  | .whileDo _ c body => by rw [Stmt.retype, Expr.retype_id, Stmt.retypeAll_id body]
  | .forDo _ i c s body => by
    rw [Stmt.retype, VarDecl.retype_id, Expr.retype_id, Stmt.retype_id s, Stmt.retypeAll_id body]

theorem Stmt.retypeAll_id : ∀ ss : List Stmt, Stmt.retypeAll (fun t => t) ss = ss
  | [] => rfl
  | s :: rest => by rw [Stmt.retypeAll, Stmt.retype_id s, Stmt.retypeAll_id rest]

end

theorem FunDecl.retype_id (f : FunDecl) : f.retype (fun t => t) = f := by
  obtain ⟨loc, name, params, ret, body, isEntry⟩ := f
  simp only [FunDecl.retype, Stmt.retypeAll_id, List.map_id']

end WhileStack.Source
