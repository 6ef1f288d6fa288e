import WhileStack.Proofs.Lower.Failures

/-! What lowering comes before: failures of labels and depths are not among its own, and whether depths are checked
makes no difference to it. -/
namespace WhileStack.Lower
open Source (Expr Stmt VarDecl Target BinOp UnOp Literal Attr Loc)
open Machine (Code Instr)

/-- Failures that only finished code can have. -/
def Cause.isLate : Cause → Bool
  | .badLabel _ => true
  | .badDepth _ _ => true
  | _ => false

theorem Cause.IsOf.isLate {K : Machine.Ty → Prop} {e : Cause} (h : e.IsOf K) : e.isLate = false := by
  cases e with
  | badLabel | badDepth => cases h
  | _ => rfl

section
variable {env : Env} {f : Source.FunDecl} {sig : Machine.Signature} {e : Cause}

private theorem gives_any (env : Env) : env.Gives (fun _ => true) fun _ => True where
  kind := ⟨trivial, trivial, trivial, trivial, fun _ => trivial, fun _ _ => trivial⟩
  layout _ _ := trivial
  params _ _ _ _ _ _ := trivial
  ret _ _ _ := trivial

/-- The body of a function fails to be lowered for a cause of its own. -/
theorem isLate_bodyCode (he : bodyCode env f sig = .error e) : e.isLate = false :=
  (isOf_bodyCode (gives_any env) trivial (fun _ _ _ _ => trivial) (Stmt.everyTyIn_of_forall (fun _ => rfl) f.body)
    he).isLate

theorem isLate_signatureIn (he : signatureIn env f = .error e) : e.isLate = false := by
  obtain ⟨x, rfl⟩ := signatureIn_eq_error he
  rfl

end

/-! The wish to have depths checked is not looked at before there is code. -/

def Env.withVerify (env : Env) (b : Bool) : Env := { env with verify := b }

def View.withVerify (v : View) (b : Bool) : View := { v with env := v.env.withVerify b }

def Host.withVerify (h : Host) (b : Bool) : Host := { h with env := h.env.withVerify b }

mutual

private theorem exprCode_withVerify (v : View) (b : Bool) : ∀ e, exprCode (v.withVerify b) e = exprCode v e
  | .const a l => rfl
  | .var a name => rfl
  | .binary a op lhs rhs => by
    simp only [exprCode, exprCode_withVerify v b lhs, exprCode_withVerify v b rhs]
    rfl
  | .unary a op e => by
    simp only [exprCode, exprCode_withVerify v b e]
    rfl
  | .cast a e => by
    simp only [exprCode, exprCode_withVerify v b e]
    rfl
  | .call a f args => by
    simp only [exprCode, argsCode_withVerify v b args]
    rfl
  | .index a source position => by
    simp only [exprCode, exprCode_withVerify v b source, exprCode_withVerify v b position]
    rfl
  | .list a elems => by
    simp only [exprCode, argsCode_withVerify v b elems]
    rfl
  | .record a fields => by
    simp only [exprCode, fieldValues_withVerify v b fields]
    rfl
  | .field a source name => by
    simp only [exprCode, exprCode_withVerify v b source]
    rfl

private theorem argsCode_withVerify (v : View) (b : Bool) : ∀ es {context ts},
    argsCode (v.withVerify b) context ts es = argsCode v context ts es
  | [], context, ts => by cases ts <;> rfl
  | e :: es, context, [] => rfl
  | e :: es, context, t :: ts => by simp only [argsCode, exprCode_withVerify v b e, argsCode_withVerify v b es]

private theorem fieldValues_withVerify (v : View) (b : Bool) : ∀ fs, fieldValues (v.withVerify b) fs = fieldValues v fs
  | [] => rfl
  | (n, e) :: fs => by simp only [fieldValues, exprCode_withVerify v b e, fieldValues_withVerify v b fs]

end

private theorem targetCode_withVerify (v : View) (b : Bool) : ∀ e, targetCode (v.withVerify b) e = targetCode v e
  | .var a name => rfl
  | .index a source position => by
    simp only [targetCode, targetCode_withVerify v b source, exprCode_withVerify v b position]
    rfl
  | .field a source name => by
    simp only [targetCode, targetCode_withVerify v b source]
    rfl
  | .const _ _ | .binary _ _ _ _ | .unary _ _ _ | .cast _ _ | .call _ _ _ | .list _ _ | .record _ _ => by
    simp only [targetCode, exprCode_withVerify]

section
variable {h : Host} {b : Bool}

private theorem withView_withVerify {α : Type} {f g : View → Lowering α} (hf : ∀ v, f (v.withVerify b) = g v) :
    withView (h.withVerify b) f = withView h g := by
  funext s
  simp only [withView, ← hf]
  rfl

private theorem newLabel_withVerify :
    withView (h.withVerify b) (fun _ => newLabel) = withView h fun _ => newLabel := withView_withVerify fun _ => rfl

private theorem needTyped_withVerify (context : Context) (t : Machine.Ty) (e : Expr) :
    withView (h.withVerify b) (fun v => needTyped context t e.loc (exprCode v e)) =
      withView h fun v => needTyped context t e.loc (exprCode v e) :=
  withView_withVerify fun v => by rw [exprCode_withVerify]

private theorem declCode_withVerify (d : VarDecl) : declCode (h.withVerify b) d = declCode h d := by
  unfold declCode
  rw [withView_withVerify (g := fun v => liftLayout (valueLayout v.env.aliases d.ty)) fun _ => rfl]
  congr 1
  funext t
  cases d.init with
  | none => rfl
  | some e =>
    simp only [needTyped_withVerify]

private theorem assignCode_withVerify (v : View) (loc : Loc) (target : Target) (value : Expr) :
    assignCode (v.withVerify b) loc target value = assignCode v loc target value := by
  cases target with
  | var =>
    simp only [assignCode, exprCode_withVerify]
    rfl
  | index | field => simp only [assignCode, exprCode_withVerify, targetCode_withVerify]

private theorem loopCode_withVerify {cond : Expr} {body step : StmtLowering Code} :
    loopCode (h.withVerify b) cond body step = loopCode h cond body step := by
  simp only [loopCode, newLabel_withVerify, needTyped_withVerify]

mutual

private theorem stmtCode_withVerify (h : Host) (b : Bool) : ∀ s, stmtCode (h.withVerify b) s = stmtCode h s
  | .decl d => declCode_withVerify d
  | .assign loc target value => withView_withVerify fun v => assignCode_withVerify v loc target value
  | .print loc value => withView_withVerify fun v => by simp only [printCode, exprCode_withVerify]
  | .ret loc value => withView_withVerify fun v => by
      cases value <;> simp only [returnCode, exprCode_withVerify] <;> rfl
  | .expr _ value => withView_withVerify fun v => by simp only [effectCode, exprCode_withVerify]
  | .ifElse _ cond yes no => by
    simp only [stmtCode, blockCode_withVerify h b yes, blockCode_withVerify h b no, newLabel_withVerify,
      needTyped_withVerify]
  | .whileDo _ cond body => by simp only [stmtCode, blockCode_withVerify h b body, loopCode_withVerify]
  | .forDo _ init cond step body => by
    simp only [stmtCode, blockCode_withVerify h b body, stmtCode_withVerify h b step, loopCode_withVerify,
      declCode_withVerify]

private theorem blockCode_withVerify (h : Host) (b : Bool) : ∀ ss, blockCode (h.withVerify b) ss = blockCode h ss
  | [] => rfl
  | s :: rest => by simp only [blockCode, stmtCode_withVerify h b s, blockCode_withVerify h b rest]

end

end

theorem bodyCode_withVerify (env : Env) (b : Bool) (f : Source.FunDecl) (sig : Machine.Signature) :
    bodyCode (env.withVerify b) f sig = bodyCode env f sig := by
  unfold bodyCode
  have : blockCode ⟨env.withVerify b, f.name, sig⟩ f.body = blockCode ⟨env, f.name, sig⟩ f.body :=
    blockCode_withVerify ⟨env, f.name, sig⟩ b f.body
  rw [this]
  rfl

end WhileStack.Lower
