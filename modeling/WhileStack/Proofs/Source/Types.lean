import WhileStack.Source.Alias

/-! The types that a program is written with. -/
namespace WhileStack.Source

/-- A name is followed through its declaration. -/
theorem Aliases.follow_eq_ok {aliases : Aliases} {left : Nat} {seen : List String} {n : String} {u : Ty}
    (h : aliases.follow left seen (.named n) = .ok u) :
    ∃ k t, left = k + 1 ∧ n ∉ seen ∧ aliases.lookup n = some t ∧ aliases.follow k (n :: seen) t = .ok u := by
  unfold Aliases.follow at h
  split at h
  · cases h
  · rename_i he
    split at h
    · cases h
    · cases h
    · exact ⟨_, _, rfl, he, ‹_›, h⟩

namespace Ty

mutual

/-- No record in the type has two fields of one name. -/
def isDistinct : Ty → Bool
  | list t => isDistinct t
  | record fs => decide (fs.map Prod.fst).Nodup && areDistinct fs
  | _ => true

def areDistinct : List (String × Ty) → Bool
  | [] => true
  | (_, t) :: fs => isDistinct t && areDistinct fs

end

theorem nodup_of_isDistinct {fs : List (String × Ty)} (h : (record fs).isDistinct = true) : (fs.map Prod.fst).Nodup := by
  simp only [isDistinct, Bool.and_eq_true, decide_eq_true_eq] at h
  exact h.1

end Ty

namespace Expr

mutual

/-- Every type that is written in the expression is of one kind. -/
def everyTy (P : Ty → Bool) : Expr → Bool
  | const a _ => P a.ty
  | var a _ => P a.ty
  | binary a _ lhs rhs => P a.ty && everyTy P lhs && everyTy P rhs
  | unary a _ e => P a.ty && everyTy P e
  | cast a e => P a.ty && everyTy P e
  | call a _ args => P a.ty && everyTyIn P args
  | index a source position => P a.ty && everyTy P source && everyTy P position
  | list a elems => P a.ty && everyTyIn P elems
  | record a fields => P a.ty && everyFieldTy P fields
  | field a source _ => P a.ty && everyTy P source

def everyTyIn (P : Ty → Bool) : List Expr → Bool
  | [] => true
  | e :: es => everyTy P e && everyTyIn P es

def everyFieldTy (P : Ty → Bool) : List (String × Expr) → Bool
  | [] => true
  | (_, e) :: rest => everyTy P e && everyFieldTy P rest

end

end Expr

def VarDecl.everyTy (P : Ty → Bool) (d : VarDecl) : Bool := P d.ty && d.init.all (Expr.everyTy P)

namespace Stmt

mutual

def everyTy (P : Ty → Bool) : Stmt → Bool
  | decl d => d.everyTy P
  | assign _ target value => target.toExpr.everyTy P && value.everyTy P
  | print _ e => e.everyTy P
  | ifElse _ cond yes no => cond.everyTy P && everyTyIn P yes && everyTyIn P no
  | whileDo _ cond body => cond.everyTy P && everyTyIn P body
  | forDo _ init cond step body => init.everyTy P && cond.everyTy P && everyTy P step && everyTyIn P body
  | ret _ value => value.all (Expr.everyTy P)
  | expr _ e => e.everyTy P

def everyTyIn (P : Ty → Bool) : List Stmt → Bool
  | [] => true
  | s :: rest => everyTy P s && everyTyIn P rest

end

end Stmt

section
variable {P : Ty → Bool}

mutual

private theorem Expr.everyTy_of_forall (hP : ∀ t, P t = true) : ∀ e : Expr, e.everyTy P = true
  | .const _ _ | .var _ _ => by simp only [Expr.everyTy, hP]
  | .binary _ _ lhs rhs => by simp [Expr.everyTy, hP, everyTy_of_forall hP lhs, everyTy_of_forall hP rhs]
  | .unary _ _ e | .cast _ e | .field _ e _ => by simp [Expr.everyTy, hP, everyTy_of_forall hP e]
  | .call _ _ es | .list _ es => by simp [Expr.everyTy, hP, everyTyIn_of_forall hP es]
  | .index _ source position => by
    simp [Expr.everyTy, hP, everyTy_of_forall hP source, everyTy_of_forall hP position]
  | .record _ fields => by simp [Expr.everyTy, hP, everyFieldTy_of_forall hP fields]

private theorem Expr.everyTyIn_of_forall (hP : ∀ t, P t = true) : ∀ es : List Expr, Expr.everyTyIn P es = true
  | [] => rfl
  | e :: es => by simp [Expr.everyTyIn, everyTy_of_forall hP e, everyTyIn_of_forall hP es]

private theorem Expr.everyFieldTy_of_forall (hP : ∀ t, P t = true) :
    ∀ fields : List (String × Expr), Expr.everyFieldTy P fields = true
  | [] => rfl
  | (_, e) :: rest => by simp [Expr.everyFieldTy, everyTy_of_forall hP e, everyFieldTy_of_forall hP rest]

end

private theorem Expr.all_everyTy_of_forall (hP : ∀ t, P t = true) (value : Option Expr) :
    value.all (Expr.everyTy P) = true := by
  cases value with
  | none => rfl
  | some e => exact everyTy_of_forall hP e

private theorem VarDecl.everyTy_of_forall (hP : ∀ t, P t = true) (d : VarDecl) : d.everyTy P = true := by
  simp [VarDecl.everyTy, hP, Expr.all_everyTy_of_forall hP]

mutual

private theorem Stmt.everyTy_of_forall (hP : ∀ t, P t = true) : ∀ s : Stmt, s.everyTy P = true
  | .decl d => by simp [Stmt.everyTy, VarDecl.everyTy_of_forall hP]
  | .assign _ _ _ | .print _ _ | .expr _ _ => by simp [Stmt.everyTy, Expr.everyTy_of_forall hP]
  | .ret _ value => by simp [Stmt.everyTy, Expr.all_everyTy_of_forall hP]
  | .ifElse _ _ yes no => by
    simp [Stmt.everyTy, Expr.everyTy_of_forall hP, everyTyIn_of_forall hP yes, everyTyIn_of_forall hP no]
  | .whileDo _ _ body => by simp [Stmt.everyTy, Expr.everyTy_of_forall hP, everyTyIn_of_forall hP body]
  | .forDo _ _ _ step body => by
    simp [Stmt.everyTy, VarDecl.everyTy_of_forall hP, Expr.everyTy_of_forall hP, everyTy_of_forall hP step,
      everyTyIn_of_forall hP body]

/-- Types written in statements are of a kind that all types are of. -/
theorem Stmt.everyTyIn_of_forall (hP : ∀ t, P t = true) : ∀ ss : List Stmt, Stmt.everyTyIn P ss = true
  | [] => rfl
  | s :: rest => by simp [Stmt.everyTyIn, everyTy_of_forall hP s, everyTyIn_of_forall hP rest]

end

end

def FunDecl.everyTy (P : Ty → Bool) (f : FunDecl) : Bool :=
  f.params.all (fun p => P p.2) && P f.ret && Stmt.everyTyIn P f.body

def Decl.everyTy (P : Ty → Bool) : Decl → Bool
  | fn f => f.everyTy P
  | type t => P t.ty

section
variable {p : Program} {P : Ty → Bool} (h : p.decls.all (Decl.everyTy P) = true)
include h

theorem Program.everyTy_function {f : FunDecl} (hf : f ∈ p.functions) : f.everyTy P = true := by
  obtain ⟨d, hd, he⟩ := List.mem_filterMap.mp hf
  have hall := List.all_eq_true.mp h d hd
  cases d with
  | fn g =>
    cases he
    exact hall
  | type t => cases he

theorem Program.everyTy_alias {n : String} {t : Ty} (hn : p.aliases.lookup n = some t) : P t = true := by
  obtain ⟨l, r, hl, -⟩ := List.lookup_eq_some_iff.mp hn
  have hm : (n, t) ∈ p.aliases := by
    rw [hl]
    simp
  obtain ⟨d, hd, he⟩ := List.mem_map.mp (List.mem_reverse.mp hm)
  obtain ⟨d', hd', he'⟩ := List.mem_filterMap.mp hd
  have hall := List.all_eq_true.mp h d' hd'
  cases d' with
  | fn g => cases he'
  | type g =>
    cases he'
    cases he
    exact hall

end

/-- A type name that stands for void. -/
def Program.IsVoidName (p : Program) (t : Ty) : Prop := ∃ n, t = .named n ∧ p.aliases.underlying t = .ok .void

/-- No record type of the program has two fields of one name. -/
def Program.FieldsDistinct (p : Program) : Prop := p.decls.all (Decl.everyTy Ty.isDistinct) = true

namespace Program.FieldsDistinct
variable {p : Program} {t u : Ty}

theorem function {f : FunDecl} (h : p.FieldsDistinct) (hf : f ∈ p.functions) : f.everyTy Ty.isDistinct = true :=
  Program.everyTy_function h hf

/-- What stands behind the name of a type is again such a type. -/
theorem underlying (h : p.FieldsDistinct) (ht : t.isDistinct = true) (hu : p.aliases.underlying t = .ok u) :
    u.isDistinct = true := by
  have hfollow : ∀ left seen t, t.isDistinct = true → p.aliases.follow left seen t = .ok u → u.isDistinct = true := by
    intro left
    induction left with
    | zero =>
      intro seen t ht hu
      cases t with
      | named n =>
        obtain ⟨_, _, hk, -⟩ := Aliases.follow_eq_ok hu
        cases hk
      | _ =>
        simp only [Aliases.follow, Except.ok.injEq] at hu
        exact hu ▸ ht
    | succ left ih =>
      intro seen t ht hu
      cases t with
      | named n =>
        obtain ⟨_, t', hk, -, hn, hu⟩ := Aliases.follow_eq_ok hu
        cases hk
        exact ih _ t' (Program.everyTy_alias h hn) hu
      | _ =>
        simp only [Aliases.follow, Except.ok.injEq] at hu
        exact hu ▸ ht
  exact hfollow _ _ t ht hu

end Program.FieldsDistinct
end WhileStack.Source
