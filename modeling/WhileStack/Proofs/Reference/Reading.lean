import WhileStack.Proofs.Reference.Stmt
import WhileStack.Proofs.Source.Types
import WhileStack.Proofs.Tree.Select

/-! Expressions do not depend on the reading, as long as no type of the program names a field twice: a record that is
cast to its own type is then what projecting it gives. -/
namespace WhileStack

namespace Reference
open Source (Ty Expr Stmt VarDecl Target)

/-- The same view, with the program read literally. -/
abbrev View.literal (v : View) : View := { v with reading := .literal }

section
variable {v : View} {source target : Ty} {t : Tree}

private theorem keeps_project {names : List String} (hn : names.Nodup) (hk : keeps v source target names t = true) :
    ∃ fs, t.record? = some fs ∧ Tree.project fs names = .ok t := by
  simp only [keeps, Bool.and_eq_true] at hk
  obtain ⟨⟨-, hf⟩, -⟩ := hk
  unfold hasFields at hf
  split at hf
  · rename_i ns ts
    simp only [Bool.and_eq_true, beq_iff_eq] at hf
    obtain ⟨rfl, hl⟩ := hf
    exact ⟨_, rfl, Tree.project_all hn hl.symm⟩
  · cases hf

private theorem castTree_literal
    (hn : ∀ fs, v.program.aliases.underlying target = .ok (.record fs) → (fs.map Prod.fst).Nodup) :
    castTree v.literal source target t = castTree v source target t := by
  unfold castTree
  cases hu : v.program.aliases.underlying target with
  | error e => rfl
  | ok u =>
    cases u with
    | record fs =>
      have hk : keeps v.literal source target (fs.map Prod.fst) t = false := rfl
      simp only [liftAlias, pure_bind, hk]
      cases hkeep : keeps v source target (fs.map Prod.fst) t with
      | false => rfl
      | true =>
        obtain ⟨gs, hr, hp⟩ := keeps_project (hn fs hu) hkeep
        simp only [hr, hp]
        rfl
    | _ => rfl

end

mutual

/-- The value of an expression is the same in both readings. -/
theorem evalExpr_literal {v : View} (hp : v.program.FieldsDistinct) : ∀ (e : Expr), e.everyTy Ty.isDistinct = true →
    evalExpr v.literal e = evalExpr v e
  | .const _ _, _ => rfl
  | .var _ _, _ => rfl
  | .binary _ _ lhs rhs, h => by
    simp only [Expr.everyTy, Bool.and_eq_true] at h
    rw [evalExpr, evalExpr, evalExpr_literal hp lhs h.1.2, evalExpr_literal hp rhs h.2]
    rfl
  | .unary _ _ e, h => by
    simp only [Expr.everyTy, Bool.and_eq_true] at h
    rw [evalExpr, evalExpr, evalExpr_literal hp e h.2]
    rfl
  | .cast a e, h => by
    simp only [Expr.everyTy, Bool.and_eq_true] at h
    rw [evalExpr, evalExpr, evalExpr_literal hp e h.2]
    refine congrArg (evalExpr v e >>= ·) (funext fun t => castTree_literal fun fs hu => ?_)
    exact Ty.nodup_of_isDistinct (hp.underlying h.1 hu)
  | .call _ f args, h => by
    simp only [Expr.everyTy, Bool.and_eq_true] at h
    rw [evalExpr, evalExpr, evalArgs_literal hp args h.2]
  | .index _ source position, h => by
    simp only [Expr.everyTy, Bool.and_eq_true] at h
    rw [evalExpr, evalExpr, evalExpr_literal hp source h.1.2, evalExpr_literal hp position h.2]
    rfl
  | .list _ elems, h => by
    simp only [Expr.everyTy, Bool.and_eq_true] at h
    rw [evalExpr, evalExpr, evalArgs_literal hp elems h.2]
  | .record _ fields, h => by
    simp only [Expr.everyTy, Bool.and_eq_true] at h
    rw [evalExpr, evalExpr, fieldEvals_literal hp fields h.2]
    rfl
  | .field _ source _, h => by
    simp only [Expr.everyTy, Bool.and_eq_true] at h
    rw [evalExpr, evalExpr, evalExpr_literal hp source h.2]

theorem evalArgs_literal {v : View} (hp : v.program.FieldsDistinct) : ∀ (es : List Expr),
    Expr.everyTyIn Ty.isDistinct es = true →
    evalArgs v.literal es = evalArgs v es
  | [], _ => rfl
  | e :: es, h => by
    simp only [Expr.everyTyIn, Bool.and_eq_true] at h
    rw [evalArgs, evalArgs, evalExpr_literal hp e h.1, evalArgs_literal hp es h.2]

theorem fieldEvals_literal {v : View} (hp : v.program.FieldsDistinct) : ∀ (fields : List (String × Expr)),
    Expr.everyFieldTy Ty.isDistinct fields = true →
    fieldEvals v.literal fields = fieldEvals v fields
  | [], _ => rfl
  | (n, e) :: rest, h => by
    simp only [Expr.everyFieldTy, Bool.and_eq_true] at h
    rw [fieldEvals, fieldEvals, evalExpr_literal hp e h.1, fieldEvals_literal hp rest h.2]

end

theorem evalTarget_literal {v : View} (hp : v.program.FieldsDistinct) : ∀ (e : Expr), e.everyTy Ty.isDistinct = true →
    evalTarget v.literal e = evalTarget v e
  | .var _ _, _ => rfl
  | .index _ source position, h => by
    simp only [Expr.everyTy, Bool.and_eq_true] at h
    rw [evalTarget, evalTarget, evalTarget_literal hp source h.1.2, evalExpr_literal hp position h.2]
    rfl
  | .field _ source _, h => by
    simp only [Expr.everyTy, Bool.and_eq_true] at h
    rw [evalTarget, evalTarget, evalTarget_literal hp source h.2]
  | .const _ _, h | .binary _ _ _ _, h | .unary _ _ _, h | .cast _ _, h | .call _ _ _, h | .list _ _, h
  | .record _ _, h => by simp only [evalTarget, evalExpr_literal hp _ h]

/-- The same function, with its program read literally. -/
abbrev Host.literal (h : Host) : Host := { h with reading := .literal }

section
variable {h : Host} (hp : h.program.FieldsDistinct)
include hp

theorem eval_literal {e : Expr} (he : e.everyTy Ty.isDistinct = true) : eval h.literal e = eval h e := by
  funext fr
  have hv : evalExpr (h.literal.view fr.scopes) e = evalExpr (h.view fr.scopes) e :=
    evalExpr_literal (v := h.view fr.scopes) hp e he
  exact congrArg (fun x => x >>= fun t => pure (t, fr)) hv

theorem evalBool_literal {e : Expr} (he : e.everyTy Ty.isDistinct = true) : evalBool h.literal e = evalBool h e := by
  funext fr
  have hv : evalExpr (h.literal.view fr.scopes) e = evalExpr (h.view fr.scopes) e :=
    evalExpr_literal (v := h.view fr.scopes) hp e he
  exact congrArg (fun x => needBool (h.view fr.scopes) e x >>= fun b => pure (b, fr)) hv

private theorem assignTo_literal {target : Target} (ht : target.toExpr.everyTy Ty.isDistinct = true) (t : Tree) :
    assignTo h.literal target t = assignTo h target t := by
  funext fr o
  cases target with
  | var a name => rfl
  | index a source position =>
    simp only [Target.toExpr, Expr.everyTy, Bool.and_eq_true] at ht
    have hs : evalTarget (h.literal.view fr.scopes) source = evalTarget (h.view fr.scopes) source :=
      evalTarget_literal (v := h.view fr.scopes) hp source ht.1.2
    have hq : evalExpr (h.literal.view fr.scopes) position = evalExpr (h.view fr.scopes) position :=
      evalExpr_literal (v := h.view fr.scopes) hp position ht.2
    rw [assignTo_index, assignTo_index, hs, hq]
    rfl
  | field a source name =>
    simp only [Target.toExpr, Expr.everyTy, Bool.and_eq_true] at ht
    have hs : evalTarget (h.literal.view fr.scopes) source = evalTarget (h.view fr.scopes) source :=
      evalTarget_literal (v := h.view fr.scopes) hp source ht.2
    rw [assignTo_field, assignTo_field, hs]

theorem runAssign_literal {target : Target} {value : Expr} (ht : target.toExpr.everyTy Ty.isDistinct = true)
    (hv : value.everyTy Ty.isDistinct = true) : runAssign h.literal target value = runAssign h target value := by
  simp only [runAssign, eval_literal hp hv, assignTo_literal hp ht]

end

end Reference
end WhileStack
