import WhileStack.Eval.Run
import WhileStack.Proofs.Exec
import WhileStack.Proofs.Lookup

/-! Which function a missing return is blamed on. Only a call that runs past the end of its body raises this fault; all
other evaluation passes on what the calls in it raise. -/
namespace WhileStack.Eval
open Source (Expr Stmt FunDecl BinOp UnOp)

/-- The function that has not returned. -/
def Stop.blamed? : Stop → Option String
  | .fault ⟨.missingReturn, f, _⟩ => some f
  | _ => none

/-- A missing return in the computation is blamed on functions of one kind. -/
def Blames {α : Type} (P : String → Prop) (x : Exec α) : Prop :=
  ∀ st e st' f, x st = .error e st' → e.blamed? = some f → P f

variable {P : String → Prop}

namespace Blames
variable {α β : Type} {x y : Exec α} {f : α → Exec β}

theorem pure {a : α} : Blames P (pure a : Exec α) := by
  intro st e st' f h
  cases h

theorem get : Blames P (get : Exec Store) := by
  intro st e st' f h
  cases h

theorem modify (g : Store → Store) : Blames P (modify g : Exec PUnit) := by
  intro st e st' f h
  cases h

theorem throw {e : Stop} (he : e.blamed? = none) : Blames P (throw e : Exec α) := by
  intro st e' st' f h hf
  cases h
  rw [he] at hf
  cases hf

theorem bind (hx : Blames P x) (hf : ∀ a, Blames P (f a)) : Blames P (x >>= f) := by
  intro st e st' g h hg
  rw [Exec.bind_apply] at h
  cases hr : x st with
  | ok a st₁ =>
    rw [hr] at h
    exact hf a st₁ e st' g h hg
  | error e₁ st₁ =>
    rw [hr] at h
    cases h
    exact hx st _ _ g hr hg

theorem ite {c : Prop} [Decidable c] (hx : Blames P x) (hy : Blames P y) : Blames P (if c then x else y) := by
  split
  · exact hx
  · exact hy

end Blames

/-! ### Expressions -/

section
variable {v : View} {x y : Exec Value} {e lhs rhs : Expr}

theorem blames_liftFault {α : Type} {r : Except Fault α} (h : ∀ e, r = .error e → e.kind ≠ .missingReturn) :
    Blames P (liftFault r) := by
  cases r with
  | ok a => exact .pure
  | error e =>
    obtain ⟨kind, f, detail⟩ := e
    apply Blames.throw
    cases kind with
    | missingReturn => exact absurd rfl (h _ rfl)
    | _ => rfl

theorem blames_liftAlias {α : Type} (r : Except Source.AliasError α) : Blames P (liftAlias r) := by
  cases r with
  | ok a => exact .pure
  | error e => exact .throw rfl

theorem blames_tagOf (u : Value) : Blames P (tagOf u) := Blames.get.bind fun _ => .pure

theorem blames_onHeap (op : Heap → Except ValueError (Value × Heap)) : Blames P (onHeap op) := by
  refine Blames.get.bind fun st => ?_
  cases op st.heap with
  | ok r =>
    intro st e st' f h
    cases h
  | error e => exact .throw rfl

theorem blames_readVar (v : View) (name : String) : Blames P (readVar v name) := by
  unfold readVar
  split
  · exact .throw rfl
  · exact .throw rfl
  · exact .pure

theorem blames_needInt (hx : Blames P x) : Blames P (needInt v e x) := by
  refine hx.bind fun a => ?_
  cases a with
  | int n => exact .pure
  | _ => exact (blames_tagOf _).bind fun _ => .throw rfl

theorem blames_needBool (hx : Blames P x) : Blames P (needBool v e x) := by
  refine hx.bind fun a => ?_
  cases a with
  | bool b => exact .pure
  | _ => exact (blames_tagOf _).bind fun _ => .throw rfl

theorem blames_divide {function : String} (a b : Int32) : Blames P (liftFault (divide function a b)) := by
  apply blames_liftFault
  intro e h
  unfold divide at h
  split at h
  · cases h
    nofun
  · cases h

theorem blames_remainder {function : String} (a b : Int32) : Blames P (liftFault (remainder function a b)) := by
  apply blames_liftFault
  intro e h
  unfold remainder at h
  split at h
  · cases h
    nofun
  · cases h

theorem blames_elementAt {function : String} (n : Nat) (i : Int32) : Blames P (liftFault (elementAt function n i)) := by
  apply blames_liftFault
  intro e h
  unfold elementAt at h
  split at h
  · cases h
    nofun
  · cases h

private theorem blames_intOperation (op : BinOp) (a b : Int32) : Blames P (intOperation v op a b) := by
  cases op with
  | add | sub | mul | lt | le | gt | ge => exact .pure
  | div => exact (blames_divide a b).bind fun _ => .pure
  | rem => exact (blames_remainder a b).bind fun _ => .pure
  | _ => exact .throw rfl

private theorem blames_binaryValue (op : BinOp) (hx : Blames P x) (hy : Blames P y) :
    Blames P (binaryValue v op lhs rhs x y) := by
  cases op with
  | and => exact (blames_needBool hx).bind fun _ => .ite ((blames_needBool hy).bind fun _ => .pure) .pure
  | or => exact (blames_needBool hx).bind fun _ => .ite .pure ((blames_needBool hy).bind fun _ => .pure)
  | eq | ne => exact hx.bind fun _ => hy.bind fun _ => Blames.get.bind fun _ => .pure
  | append => exact hx.bind fun _ => hy.bind fun _ => blames_onHeap _
  | _ => exact (blames_needInt hx).bind fun _ => (blames_needInt hy).bind fun _ => blames_intOperation _ _ _

private theorem blames_unaryValue (op : UnOp) (hx : Blames P x) : Blames P (unaryValue v op e x) := by
  cases op with
  | not => exact (blames_needBool hx).bind fun _ => .pure
  | neg => exact (blames_needInt hx).bind fun _ => .pure
  | length =>
    refine hx.bind fun a => Blames.get.bind fun st => ?_
    split
    · exact .pure
    · exact .throw rfl
  | other s => exact .throw rfl

private theorem blames_castValue (ty : Source.Ty) (a : Value) : Blames P (castValue v ty a) := by
  refine (blames_liftAlias _).bind fun t => ?_
  cases t with
  | string => exact Blames.get.bind fun _ => .pure
  | record fields =>
    refine Blames.get.bind fun st => ?_
    split
    · exact blames_onHeap _
    · exact (blames_tagOf a).bind fun _ => .throw rfl
  | _ => exact .pure

private theorem blames_elementValue (list : Value) (hx : Blames P x) : Blames P (elementValue v list e x) := by
  refine Blames.get.bind fun st => ?_
  split
  · exact (blames_tagOf list).bind fun _ => .throw rfl
  · refine (blames_needInt hx).bind fun i => Blames.get.bind fun st => ?_
    split
    · exact (blames_tagOf list).bind fun _ => .throw rfl
    · exact (blames_elementAt _ i).bind fun _ => .pure

private theorem blames_fieldOf (record : Value) (name : String) : Blames P (fieldOf record name) := by
  refine Blames.get.bind fun st => ?_
  split
  · exact (blames_tagOf record).bind fun _ => .throw rfl
  · split
    · exact .pure
    · exact .throw rfl

private theorem blames_recordFields (ty : Source.Ty) : Blames P (recordFields v ty) := by
  refine (blames_liftAlias _).bind fun t => ?_
  cases t with
  | record fields => exact .pure
  | _ => exact .throw rfl

private theorem blames_evalFields {given : List (String × Exec Value)} (h : ∀ b ∈ given, Blames P b.2)
    (names : List String) : Blames P (evalFields given names) := by
  induction names with
  | nil => exact .pure
  | cons n names ih =>
    rw [evalFields]
    cases hl : given.lookup n with
    | none => exact .throw rfl
    | some x => exact (h _ (mem_of_lookup hl)).bind fun _ => ih.bind fun _ => .pure

end

/-- The functions of the program blame missing returns on functions of one kind. -/
abbrev CallsBlame (P : String → Prop) (program : Source.Program) (call : FunDecl → List Value → Exec Value) : Prop :=
  ∀ f ∈ program.functions, ∀ args, Blames P (call f args)

section
variable {v : View}

mutual

theorem blames_evalExpr (hc : CallsBlame P v.program v.call) : ∀ e : Expr, Blames P (evalExpr v e)
  | .const _ _ => .pure
  | .var _ name => (blames_readVar v name).bind fun _ => blames_onHeap _
  | .binary _ op lhs rhs => by
    rw [evalExpr]
    exact blames_binaryValue op (blames_evalExpr hc lhs) (blames_evalExpr hc rhs)
  | .unary _ op e => by
    rw [evalExpr]
    exact blames_unaryValue op (blames_evalExpr hc e)
  | .cast a e => by
    rw [evalExpr]
    exact (blames_evalExpr hc e).bind fun x => blames_castValue a.ty x
  | .call _ f args => by
    rw [evalExpr]
    cases hf : v.program.function? f with
    | none => exact .throw rfl
    | some callee => exact (blames_evalArgs hc args).bind fun vs => hc callee (List.mem_of_find?_eq_some hf) vs
  | .index _ source position => by
    rw [evalExpr]
    exact (blames_evalExpr hc source).bind fun s => blames_elementValue s (blames_evalExpr hc position)
  | .list _ elems => by
    rw [evalExpr]
    exact (blames_evalArgs hc elems).bind fun _ => blames_onHeap _
  | .record a fields => by
    rw [evalExpr]
    refine (blames_recordFields a.ty).bind fun names => ?_
    exact (blames_evalFields (blames_fieldEvals hc fields) names).bind fun _ => blames_onHeap _
  | .field _ source name => by
    rw [evalExpr]
    exact (blames_evalExpr hc source).bind fun s => blames_fieldOf s name

theorem blames_evalArgs (hc : CallsBlame P v.program v.call) : ∀ es : List Expr, Blames P (evalArgs v es)
  | [] => .pure
  | e :: es => by
    rw [evalArgs]
    exact (blames_evalExpr hc e).bind fun _ => (blames_evalArgs hc es).bind fun _ => .pure

theorem blames_fieldEvals (hc : CallsBlame P v.program v.call) : ∀ fields : List (String × Expr),
    ∀ b ∈ fieldEvals v fields, Blames P b.2
  | [] => by simp [fieldEvals]
  | (n, e) :: rest => by
    rw [fieldEvals]
    exact List.forall_mem_cons.mpr ⟨blames_evalExpr hc e, blames_fieldEvals hc rest⟩

end

variable (hc : CallsBlame P v.program v.call)
include hc

private theorem blames_evalTarget : ∀ e : Expr, Blames P (evalTarget v e)
  | .var _ name => blames_readVar v name
  | .index _ source position => by
    rw [evalTarget]
    exact (blames_evalTarget source).bind fun s => blames_elementValue s (blames_evalExpr hc position)
  | .field _ source name => by
    rw [evalTarget]
    exact (blames_evalTarget source).bind fun s => blames_fieldOf s name
  | .const _ _ | .binary _ _ _ _ | .unary _ _ _ | .cast _ _ | .call _ _ _ | .list _ _ | .record _ _ => by
    simp only [evalTarget]
    exact blames_evalExpr hc _

private theorem blames_storeElement (list : Value) (position : Expr) (x : Value) :
    Blames P (storeElement v list position x) := by
  refine Blames.get.bind fun st => ?_
  split
  · exact (blames_tagOf list).bind fun _ => .throw rfl
  · refine (blames_needInt (blames_evalExpr hc position)).bind fun i => Blames.get.bind fun st => ?_
    split
    · exact (blames_tagOf list).bind fun _ => .throw rfl
    · exact (blames_elementAt _ i).bind fun _ => .modify _

end

private theorem blames_storeField (record : Value) (name : String) (x : Value) : Blames P (storeField record name x) := by
  refine Blames.get.bind fun st => ?_
  split
  · exact (blames_tagOf record).bind fun _ => .throw rfl
  · refine Blames.get.bind fun st => ?_
    split
    · exact .modify _
    · exact (blames_tagOf record).bind fun _ => .throw rfl

/-! ### Statements -/

/-- The same of a computation that changes the frame of a function. -/
def RunBlames {α : Type} (P : String → Prop) (x : Run α) : Prop := ∀ fr, Blames P (x fr)

namespace RunBlames
variable {α β : Type} {x y : Run α} {f : α → Run β}

theorem pure {a : α} : RunBlames P (pure a : Run α) := fun _ => Blames.pure

theorem get : RunBlames P (get : Run Frame) := fun _ => Blames.pure

theorem modify (g : Frame → Frame) : RunBlames P (modify g : Run PUnit) := fun _ => Blames.pure

theorem bind (hx : RunBlames P x) (hf : ∀ a, RunBlames P (f a)) : RunBlames P (x >>= f) :=
  fun fr => (hx fr).bind fun r => hf r.1 r.2

theorem lift {x : Exec α} (h : Blames P x) : RunBlames P (liftM x : Run α) := fun _ => h.bind fun _ => .pure

theorem throw {e : Stop} (he : e.blamed? = none) : RunBlames P (throw e : Run α) := lift (Blames.throw he)

theorem ite {c : Prop} [Decidable c] (hx : RunBlames P x) (hy : RunBlames P y) : RunBlames P (if c then x else y) := by
  split
  · exact hx
  · exact hy

theorem inScope {x : Run Unit} (h : RunBlames P x) : RunBlames P (inScope x) :=
  (modify _).bind fun _ => h.bind fun _ => modify _

end RunBlames

section
variable {h : Host} (hc : CallsBlame P h.program h.call)
include hc

private theorem blames_eval (e : Expr) : RunBlames P (eval h e) :=
  fun fr => (blames_evalExpr (v := ⟨h.program, h.function, fr.scopes, h.call⟩) hc e).bind fun _ => .pure

private theorem blames_evalBool (e : Expr) : RunBlames P (evalBool h e) :=
  fun fr => (blames_needBool (blames_evalExpr (v := ⟨h.program, h.function, fr.scopes, h.call⟩) hc e)).bind fun _ => .pure

private theorem blames_runDecl (d : Source.VarDecl) : RunBlames P (runDecl h d) := by
  unfold runDecl
  cases d.init with
  | none => exact RunBlames.pure.bind fun _ => .modify _
  | some e => exact (blames_eval hc e).bind fun _ => .modify _

private theorem blames_runReturn (value : Option Expr) : RunBlames P (runReturn h value) := by
  cases value with
  | none => exact .modify _
  | some e => exact (blames_eval hc e).bind fun _ => .modify _

private theorem blames_runAssign (target : Source.Target) (value : Expr) : RunBlames P (runAssign h target value) := by
  refine (blames_eval hc value).bind fun x fr => ?_
  have hv : CallsBlame P (⟨h.program, h.function, fr.scopes, h.call⟩ : View).program h.call := hc
  cases target with
  | var a name =>
    refine RunBlames.bind (RunBlames.get.bind fun _ => .pure) (fun v => ?_) fr
    dsimp only
    split
    · exact .modify _
    · exact .throw rfl
  | index a source position =>
    exact RunBlames.bind (.lift (blames_evalTarget hv source))
      (fun l => .lift (blames_storeElement hv l position x)) fr
  | field a source name =>
    exact RunBlames.bind (.lift (blames_evalTarget hv source)) (fun r => .lift (blames_storeField r name x)) fr

end

private theorem blames_loop {cond : Run Bool} {body step : Run Unit} (hcond : RunBlames P cond)
    (hbody : RunBlames P body) (hstep : RunBlames P step) (n : Nat) : RunBlames P (loop cond body step n) := by
  induction n with
  | zero => exact .throw rfl
  | succ n ih =>
    rw [loop]
    refine hcond.bind fun b => .ite ?_ .pure
    exact hbody.bind fun _ => RunBlames.get.bind fun fr => .ite .pure (hstep.bind fun _ => ih)

section
variable {h : Host}

mutual

theorem blames_runStmt (hc : CallsBlame P h.program h.call) : ∀ s : Stmt, RunBlames P (runStmt h s)
  | .decl d => by
    rw [runStmt]
    exact blames_runDecl hc d
  | .assign _ target value => by
    rw [runStmt]
    exact blames_runAssign hc target value
  | .print _ e => by
    rw [runStmt]
    exact (blames_eval hc e).bind fun x => .lift (.modify _)
  | .expr _ e => by
    rw [runStmt]
    exact (blames_eval hc e).bind fun _ => .pure
  | .ifElse _ cond yes no => by
    rw [runStmt]
    exact (blames_evalBool hc cond).bind fun _ => .ite (blames_runAll hc yes).inScope (blames_runAll hc no).inScope
  | .whileDo _ cond body => by
    rw [runStmt]
    exact blames_loop (blames_evalBool hc cond) (blames_runAll hc body).inScope .pure h.rounds
  | .forDo _ init cond step body => by
    rw [runStmt]
    apply RunBlames.inScope
    apply (blames_runDecl hc init).bind
    intro _
    exact blames_loop (blames_evalBool hc cond) (blames_runAll hc body).inScope (blames_runStmt hc step) h.rounds
  | .ret _ value => by
    rw [runStmt]
    exact blames_runReturn hc value

theorem blames_runAll (hc : CallsBlame P h.program h.call) : ∀ ss : List Stmt, RunBlames P (runAll h ss)
  | [] => .pure
  | s :: rest => by
    rw [runAll]
    exact (blames_runStmt hc s).bind fun _ => RunBlames.get.bind fun fr => .ite .pure (blames_runAll hc rest)

end

end

end WhileStack.Eval
