import Mathlib.Data.List.Forall2
import WhileStack.Eval.Run
import WhileStack.Proofs.Exec
import WhileStack.Proofs.Lookup

/-! How many rounds loops may take. A run in which no loop is cut short stays the same when they may take more. -/
namespace WhileStack.Eval
open Source (Expr Stmt FunDecl)

/-- The first computation runs out of rounds, or else the second does the same. -/
def Within {α : Type} (x y : Exec α) : Prop := ∀ st, (∃ st', x st = .error .outOfBudget st') ∨ x st = y st

namespace Within
variable {α β : Type} {x y : Exec α} {f g : α → Exec β}

theorem refl (x : Exec α) : Within x x := fun _ => .inr rfl

theorem bind (h : Within x y) (hf : ∀ a, Within (f a) (g a)) : Within (x >>= f) (y >>= g) := by
  intro st
  rw [Exec.bind_apply, Exec.bind_apply]
  rcases h st with ⟨st', hx⟩ | hx
  · rw [hx]
    exact .inl ⟨st', rfl⟩
  · rw [← hx]
    cases x st with
    | ok a st' => exact hf a st'
    | error e st' => exact .inr rfl

/-- Only the first part differs. -/
theorem andThen (h : Within x y) : Within (x >>= f) (y >>= f) := h.bind fun a => refl (f a)

end Within

/-- Every call is within the other. -/
abbrev CallsWithin (call call' : FunDecl → List Value → Exec Value) : Prop :=
  ∀ f args, Within (call f args) (call' f args)

/-- The same view, with other calls. -/
abbrev View.calling (v : View) (call : FunDecl → List Value → Exec Value) : View := { v with call := call }

section
variable {v : View} {call : FunDecl → List Value → Exec Value} {x y x' y' : Exec Value} {e lhs rhs : Expr}

private theorem needInt_within (h : Within x y) : Within (needInt v e x) (needInt (v.calling call) e y) := h.andThen

private theorem needBool_within (h : Within x y) : Within (needBool v e x) (needBool (v.calling call) e y) := h.andThen

private theorem binaryValue_within (op : Source.BinOp) (h : Within x y) (h' : Within x' y') :
    Within (binaryValue v op lhs rhs x x') (binaryValue (v.calling call) op lhs rhs y y') := by
  cases op with
  | and | or =>
    refine (needBool_within h).bind fun b => ?_
    split
    all_goals first | exact .refl _ | exact (needBool_within h').andThen
  | eq | ne | append => exact h.bind fun a => h'.andThen
  | _ => exact (needInt_within h).bind fun a => (needInt_within h').andThen

private theorem unaryValue_within (op : Source.UnOp) (h : Within x y) :
    Within (unaryValue v op e x) (unaryValue (v.calling call) op e y) := by
  cases op with
  | not => exact (needBool_within h).andThen
  | neg => exact (needInt_within h).andThen
  | length => exact h.andThen
  | other s => exact .refl _

private theorem elementValue_within (list : Value) (h : Within x y) :
    Within (elementValue v list e x) (elementValue (v.calling call) list e y) := by
  refine (Within.refl get).bind fun st => ?_
  split
  · exact .refl _
  · exact (needInt_within h).andThen

/-- Named computations, each within the one of the same name. -/
abbrev FieldsWithin : List (String × Exec Value) → List (String × Exec Value) → Prop :=
  List.Forall₂ fun a b => a.1 = b.1 ∧ Within a.2 b.2

private theorem evalFields_within {given given' : List (String × Exec Value)} (h : FieldsWithin given given')
    (names : List String) : Within (evalFields given names) (evalFields given' names) := by
  induction names with
  | nil => exact .refl _
  | cons n names ih =>
    rw [evalFields, evalFields]
    rcases lookup_forall₂ h n with ⟨hx, hy⟩ | ⟨x, y, hx, hy, hxy⟩
    · rw [hx, hy]
      exact .refl _
    · rw [hx, hy]
      exact hxy.bind fun a => ih.andThen

end

section
variable {v : View} {call : FunDecl → List Value → Exec Value}

mutual

theorem evalExpr_within (hc : CallsWithin v.call call) : ∀ e : Expr,
    Within (evalExpr v e) (evalExpr (v.calling call) e)
  | .const _ _ => .refl _
  | .var _ _ => .refl _
  | .binary _ op lhs rhs => by
    rw [evalExpr, evalExpr]
    exact binaryValue_within op (evalExpr_within hc lhs) (evalExpr_within hc rhs)
  | .unary _ op e => by
    rw [evalExpr, evalExpr]
    exact unaryValue_within op (evalExpr_within hc e)
  | .cast a e => by
    rw [evalExpr, evalExpr]
    exact (evalExpr_within hc e).andThen
  | .call _ f args => by
    rw [evalExpr, evalExpr]
    dsimp only [View.calling]
    split
    · exact .refl _
    · exact (evalArgs_within hc args).bind fun vs => hc _ vs
  | .index _ source position => by
    rw [evalExpr, evalExpr]
    exact (evalExpr_within hc source).bind fun s => elementValue_within s (evalExpr_within hc position)
  | .list _ elems => by
    rw [evalExpr, evalExpr]
    exact (evalArgs_within hc elems).andThen
  | .record a fields => by
    rw [evalExpr, evalExpr]
    exact (Within.refl _).bind fun names => (evalFields_within (fieldEvals_within hc fields) names).andThen
  | .field _ source _ => by
    rw [evalExpr, evalExpr]
    exact (evalExpr_within hc source).andThen

theorem evalArgs_within (hc : CallsWithin v.call call) : ∀ es : List Expr,
    Within (evalArgs v es) (evalArgs (v.calling call) es)
  | [] => .refl _
  | e :: es => by
    rw [evalArgs, evalArgs]
    exact (evalExpr_within hc e).bind fun x => (evalArgs_within hc es).andThen

theorem fieldEvals_within (hc : CallsWithin v.call call) : ∀ fields : List (String × Expr),
    FieldsWithin (fieldEvals v fields) (fieldEvals (v.calling call) fields)
  | [] => .nil
  | (_, e) :: rest => .cons ⟨rfl, evalExpr_within hc e⟩ (fieldEvals_within hc rest)

end

private theorem evalTarget_within (hc : CallsWithin v.call call) : ∀ e : Expr,
    Within (evalTarget v e) (evalTarget (v.calling call) e)
  | .var _ _ => .refl _
  | .index _ source position => by
    rw [evalTarget, evalTarget]
    exact (evalTarget_within hc source).bind fun s => elementValue_within s (evalExpr_within hc position)
  | .field _ source _ => by
    rw [evalTarget, evalTarget]
    exact (evalTarget_within hc source).andThen
  | .const _ _ | .binary _ _ _ _ | .unary _ _ _ | .cast _ _ | .call _ _ _ | .list _ _ | .record _ _ => by
    simp only [evalTarget]
    exact evalExpr_within hc _

private theorem storeElement_within (hc : CallsWithin v.call call) (list : Value) (position : Expr)
    (x : Value) : Within (storeElement v list position x) (storeElement (v.calling call) list position x) := by
  refine (Within.refl get).bind fun st => ?_
  split
  · exact .refl _
  · exact (needInt_within (evalExpr_within hc position)).andThen

end

/-- The same for computations that change the frame of a function. -/
def RunsWithin {α : Type} (x y : Run α) : Prop := ∀ fr, Within (x fr) (y fr)

namespace RunsWithin
variable {α β : Type} {x y : Run α} {f g : α → Run β}

theorem refl (x : Run α) : RunsWithin x x := fun fr => .refl (x fr)

theorem bind (h : RunsWithin x y) (hf : ∀ a, RunsWithin (f a) (g a)) : RunsWithin (x >>= f) (y >>= g) :=
  fun fr => (h fr).bind fun r => hf r.1 r.2

theorem andThen (h : RunsWithin x y) : RunsWithin (x >>= f) (y >>= f) := h.bind fun a => refl (f a)

theorem lift {x y : Exec α} (h : Within x y) : RunsWithin (liftM x : Run α) (liftM y) := fun _ => h.andThen

theorem inScope {x y : Run Unit} (h : RunsWithin x y) : RunsWithin (inScope x) (inScope y) :=
  (refl (modify Frame.enter)).bind fun _ => h.andThen

end RunsWithin

/-- The same host, with other calls and another number of rounds. -/
abbrev Host.allowing (h : Host) (call : FunDecl → List Value → Exec Value) (rounds : Nat) : Host :=
  { h with call := call, rounds := rounds }

section
variable {h : Host} {call : FunDecl → List Value → Exec Value} {rounds : Nat}

private theorem loop_within {cond cond' : Run Bool} {body body' step step' : Run Unit} (hcond : RunsWithin cond cond')
    (hbody : RunsWithin body body') (hstep : RunsWithin step step') {m n : Nat} (hn : m ≤ n) :
    RunsWithin (loop cond body step m) (loop cond' body' step' n) := by
  induction m generalizing n with
  | zero => exact fun fr st => .inl ⟨st, rfl⟩
  | succ m ih =>
    obtain ⟨n, rfl⟩ := Nat.exists_eq_add_of_le' (Nat.le_trans (Nat.succ_pos m) hn)
    rw [loop, loop]
    refine hcond.bind fun b => ?_
    split
    · refine hbody.bind fun _ => (RunsWithin.refl get).bind fun fr => ?_
      split
      · exact .refl _
      · exact hstep.bind fun _ => ih (Nat.le_of_succ_le_succ hn)
    · exact .refl _

section
variable (hc : CallsWithin h.call call)
include hc

private theorem eval_within (e : Expr) : RunsWithin (eval h e) (eval (h.allowing call rounds) e) :=
  fun fr => (evalExpr_within (v := ⟨h.program, h.function, fr.scopes, h.call⟩) hc e).andThen

private theorem evalBool_within (e : Expr) : RunsWithin (evalBool h e) (evalBool (h.allowing call rounds) e) :=
  fun fr => (needBool_within (v := ⟨h.program, h.function, fr.scopes, h.call⟩) (evalExpr_within hc e)).andThen

private theorem runDecl_within (d : Source.VarDecl) :
    RunsWithin (runDecl h d) (runDecl (h.allowing call rounds) d) := by
  unfold runDecl
  cases d.init with
  | none => exact .refl _
  | some e => exact (eval_within hc e).andThen

private theorem runReturn_within (value : Option Expr) :
    RunsWithin (runReturn h value) (runReturn (h.allowing call rounds) value) := by
  cases value with
  | none => exact .refl _
  | some e => exact (eval_within hc e).andThen

private theorem runAssign_within (target : Source.Target) (value : Expr) :
    RunsWithin (runAssign h target value) (runAssign (h.allowing call rounds) target value) := by
  refine (eval_within hc value).bind fun x fr => ?_
  have hv : CallsWithin (⟨h.program, h.function, fr.scopes, h.call⟩ : View).call call := hc
  cases target with
  | var a name => exact .refl _
  | index a source position =>
    exact RunsWithin.bind (.lift (evalTarget_within hv source))
      (fun l => .lift (storeElement_within hv l position x)) fr
  | field a source name =>
    exact RunsWithin.bind (.lift (evalTarget_within hv source)) (fun r => .refl (liftM (storeField r name x))) fr

end

mutual

private theorem runStmt_within (hc : CallsWithin h.call call) (hr : h.rounds ≤ rounds) :
    ∀ s : Stmt, RunsWithin (runStmt h s) (runStmt (h.allowing call rounds) s)
  | .decl d => by
    rw [runStmt, runStmt]
    exact runDecl_within hc d
  | .assign _ target value => by
    rw [runStmt, runStmt]
    exact runAssign_within hc target value
  | .print _ e | .expr _ e => by
    rw [runStmt, runStmt]
    exact (eval_within hc e).andThen
  | .ifElse _ cond yes no => by
    rw [runStmt, runStmt]
    refine (evalBool_within hc cond).bind fun b => ?_
    split
    · exact (runAll_within hc hr yes).inScope
    · exact (runAll_within hc hr no).inScope
  | .whileDo _ cond body => by
    rw [runStmt, runStmt]
    exact loop_within (evalBool_within hc cond) (runAll_within hc hr body).inScope (.refl _) hr
  | .forDo _ init cond step body => by
    rw [runStmt, runStmt]
    refine RunsWithin.inScope ((runDecl_within hc init).bind fun _ => ?_)
    exact loop_within (evalBool_within hc cond) (runAll_within hc hr body).inScope (runStmt_within hc hr step) hr
  | .ret _ value => by
    rw [runStmt, runStmt]
    exact runReturn_within hc value

private theorem runAll_within (hc : CallsWithin h.call call) (hr : h.rounds ≤ rounds) :
    ∀ ss : List Stmt, RunsWithin (runAll h ss) (runAll (h.allowing call rounds) ss)
  | [] => .refl _
  | s :: rest => by
    rw [runAll, runAll]
    refine (runStmt_within hc hr s).bind fun _ => (RunsWithin.refl get).bind fun fr => ?_
    split
    · exact .refl _
    · exact runAll_within hc hr rest

end

end

section
variable {p : Source.Program} {m n : Nat}

/-- A call that is made with more rounds. -/
theorem call_within (hn : m ≤ n) (left : Nat) (f : FunDecl) (args : List Value) :
    Within (call p m left f args) (call p n left f args) := by
  induction left generalizing f args with
  | zero => exact .refl _
  | succ left ih =>
    rw [call, call]
    split
    · exact .refl _
    · have hbody := runAll_within (h := ⟨p, f.name, call p m left, m⟩) ih hn f.body
      exact (hbody.inScope (openFrame f args)).andThen

/-- More rounds than are needed make no difference. -/
theorem run_mono (hn : m ≤ n) (h : (run p m).stop ≠ some .outOfBudget) : run p n = run p m := by
  have hrun : Within (runEntry p m) (runEntry p n) := by
    unfold runEntry
    split
    · exact .refl _
    · exact (Within.refl _).bind fun args => (call_within hn _ _ args).andThen
  unfold run at h ⊢
  rcases hrun Store.empty with ⟨st, hx⟩ | hx
  · rw [hx] at h
    exact absurd rfl h
  · rw [hx]

end

end WhileStack.Eval
