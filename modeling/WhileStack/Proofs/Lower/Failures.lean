import WhileStack.Lower.Program
import WhileStack.Proofs.Lower.Layout
import WhileStack.Proofs.Lower.Symbols

/-! What lowering fails with. If the types that it looks up are of one kind, then so are those that it finds not to fit,
and it never fails for a reason that only finished code can have. -/
namespace WhileStack.Lower
open Source (Expr Stmt VarDecl Target BinOp UnOp Attr Loc FunDecl)
open Machine (Code Instr)

/-- A kind of types that has those of literals and operators, and with a type its parts. -/
structure IsKind (K : Machine.Ty → Prop) : Prop where
  void : K .void
  int : K .int
  boolean : K .boolean
  string : K .string
  elem : ∀ {t}, K (.list t) → K t
  field : ∀ {fs f}, K (.record fs) → f ∈ fs → K f.2

/-- Failures about types of one kind, none of them one of finished code. -/
def Cause.IsOf (K : Machine.Ty → Prop) : Cause → Prop
  | .mismatch _ want got _ => K want ∧ K got ∧ want.same got = false
  | .badLabel _ | .badDepth _ _ => False
  | _ => True

/-- From states of one kind a computation comes to such states, with results of one kind, or its failure is about types
of one kind. -/
def Within {σ α : Type} (K : Machine.Ty → Prop) (I : σ → Prop) (Q : α → Prop)
    (x : StateT σ (Except Cause) α) : Prop :=
  ∀ s, I s → match x s with
    | .ok (a, s') => Q a ∧ I s'
    | .error e => e.IsOf K

variable {W : Source.Ty → Bool} {K : Machine.Ty → Prop}

namespace Within
variable {σ α β : Type} {I : σ → Prop} {Q : α → Prop} {R : β → Prop} {x y : StateT σ (Except Cause) α}
  {f : α → StateT σ (Except Cause) β}

theorem pure {a : α} (h : Q a) : Within K I Q (Pure.pure a) := fun _ hs => ⟨h, hs⟩

theorem throw {e : Cause} (h : e.IsOf K) : Within K I Q (throw e) := fun _ _ => h

theorem bind (hx : Within K I Q x) (hf : ∀ a, Q a → Within K I R (f a)) : Within K I R (x >>= f) := by
  intro s hs
  have h := hx s hs
  rcases hxs : x s with e | ⟨a, s'⟩ <;> simp only [hxs] at h
  · simpa only [Bind.bind, StateT.bind, hxs, Except.bind] using h
  · simpa only [Bind.bind, StateT.bind, hxs, Except.bind] using hf a h.1 s' h.2

theorem ite {c : Prop} [Decidable c] (hx : c → Within K I Q x) (hy : ¬ c → Within K I Q y) :
    Within K I Q (if c then x else y) := by
  split
  · exact hx ‹_›
  · exact hy ‹_›

end Within

/-- Lowering from any number of labels on. -/
abbrev Lowering.Within {α : Type} (K : Machine.Ty → Prop) (Q : α → Prop) (x : Lowering α) : Prop :=
  Lower.Within K (fun _ => True) Q x

/-- Lowering to code of a value whose type is of one kind. -/
abbrev Yields (K : Machine.Ty → Prop) (x : Lowering Typed) : Prop := Lowering.Within K (fun r => K r.2) x

/-- Any result. -/
def Any {α : Type} (_ : α) : Prop := True

/-! ### Expressions -/

/-- Whatever lowering looks up has a type of one kind, if types are written in one way. -/
structure Env.Gives (env : Env) (W : Source.Ty → Bool) (K : Machine.Ty → Prop) : Prop where
  kind : IsKind K
  layout : ∀ {t m}, W t = true → layout env.aliases t = .ok m → K m
  params : ∀ f sig, env.signatures.lookup f = some sig → sig.isStatic = false → ∀ t ∈ sig.params, K t
  ret : ∀ f sig, env.signatures.lookup f = some sig → K sig.ret

def Symbols.Of (K : Machine.Ty → Prop) (s : Symbols) : Prop := ∀ b ∈ s.visible, K b.2.ty

theorem Symbols.Of.exit {s : Symbols} (h : s.Of K) : s.exit.Of K := by
  obtain ⟨inner, outer, allocated⟩ := s
  cases outer with
  | nil => exact h
  | cons scope outer => exact fun b hb => h b (List.mem_append_right _ hb)

theorem Symbols.Of.declare {s s' : Symbols} {name : String} {ty : Machine.Ty} {l : Machine.Local} (h : s.Of K)
    (ht : K ty) (hd : s.declare name ty = .ok (l, s')) : s'.Of K := by
  obtain ⟨-, rfl, rfl⟩ := Symbols.declare_eq_ok hd
  exact List.forall_mem_cons.mpr ⟨ht, h⟩

structure View.Gives (v : View) (W : Source.Ty → Bool) (K : Machine.Ty → Prop) : Prop where
  env : v.env.Gives W K
  symbols : v.symbols.Of K

section
variable {v : View} {a : Attr} {context : Context} {loc l₁ l₂ : Loc} {want got t : Machine.Ty} {x y : Lowering Typed}

private theorem within_newLabel : Lowering.Within K Any newLabel := fun _ _ => ⟨trivial, trivial⟩

private theorem within_expect (hw : K want) (hg : K got) :
    Lowering.Within K Any (expect context want got loc) := by
  refine .ite (fun _ => .pure trivial) fun hne => .throw ⟨hw, hg, ?_⟩
  exact Bool.eq_false_iff.mpr fun hs => hne (Machine.Ty.eq_of_same hs)

private theorem within_needValue (hx : Yields K x) : Yields K (needValue loc x) :=
  hx.bind fun _ h => .ite (fun _ => .bind (Q := Any) (.throw trivial) fun _ _ => .pure h) fun _ => .pure h

private theorem within_needTyped (hw : K want) (hx : Yields K x) :
    Lowering.Within K Any (needTyped context want loc x) :=
  (within_needValue hx).bind fun _ h => (within_expect hw h).bind fun _ _ => .pure trivial

private theorem within_layout (hv : v.Gives W K) {ty : Source.Ty} (ht : W ty = true) :
    Lowering.Within K K (liftLayout (layout v.env.aliases ty)) := by
  cases h : layout v.env.aliases ty with
  | ok m => exact .pure (hv.env.layout ht h)
  | error e => exact .throw trivial

private theorem within_valueLayout (hv : v.Gives W K) {ty : Source.Ty} (ht : W ty = true) :
    Lowering.Within K K (liftLayout (valueLayout v.env.aliases ty)) := by
  cases h : valueLayout v.env.aliases ty with
  | ok m => exact .pure (hv.env.layout ht (layout_of_valueLayout h))
  | error e => exact .throw trivial

private theorem within_agree (hv : v.Gives W K) {code : Code} (ha : W a.ty = true) (hg : K got) :
    Yields K (agree v a context code got) :=
  (within_layout hv ha).bind fun _ hw => (within_expect hw hg).bind fun _ _ => .pure hg

private theorem within_findLocal (hv : v.Gives W K) {name : String} :
    Lowering.Within K (fun l : Machine.Local => K l.ty) (findLocal v name loc) := by
  unfold findLocal
  cases h : v.symbols.lookup? name with
  | none => exact .throw trivial
  | some l => exact .pure (hv.symbols _ (Symbols.mem_of_lookup? h))

private theorem within_compareCode {cond : Machine.Cond} : Lowering.Within K Any (compareCode cond) :=
  within_newLabel.bind fun _ _ => within_newLabel.bind fun _ _ => .pure trivial

private theorem within_binaryCode (hk : IsKind K) {op : BinOp} (hx : Yields K x) (hy : Yields K y) :
    Yields K (binaryCode loc op x y l₁ l₂) := by
  have hlogic : ∀ isOr, Lowering.Within K Any (shortCircuit isOr (needTyped (.operator op.symbol) .boolean l₁ x)
      (needTyped (.operator op.symbol) .boolean l₂ y)) := fun _ =>
    (within_needTyped hk.boolean hx).bind fun _ _ => within_newLabel.bind fun _ _ => within_newLabel.bind fun _ _ =>
      (within_needTyped hk.boolean hy).bind fun _ _ => .pure trivial
  have hequality : ∀ isNe t, Lowering.Within K Any (equalityCode isNe t) := fun _ _ =>
    .ite (fun _ => .pure trivial) fun _ => within_compareCode
  cases op with
  | and | or => exact (hlogic _).bind fun _ _ => .pure hk.boolean
  | eq | ne =>
    exact (within_needValue hx).bind fun _ ht => (within_needTyped ht hy).bind fun _ _ =>
      (hequality _ _).bind fun _ _ => .pure hk.boolean
  | append =>
    refine (within_needValue hx).bind ?_
    rintro ⟨_, t⟩ ht
    cases t with
    | string | list => exact (within_needTyped ht hy).bind fun _ _ => .pure ht
    | _ => exact .throw trivial
  | lt | le | gt | ge =>
    exact (within_needTyped hk.int hx).bind fun _ _ => (within_needTyped hk.int hy).bind fun _ _ =>
      within_compareCode.bind fun _ _ => .pure hk.boolean
  | add | sub | mul | div | rem =>
    exact (within_needTyped hk.int hx).bind fun _ _ => (within_needTyped hk.int hy).bind fun _ _ => .pure hk.int
  | other => exact .throw trivial

private theorem within_unaryCode (hk : IsKind K) {op : UnOp} (hx : Yields K x) :
    Yields K (unaryCode loc op x l₁) := by
  cases op with
  | not => exact (within_needTyped hk.boolean hx).bind fun _ _ => .pure hk.boolean
  | neg => exact (within_needTyped hk.int hx).bind fun _ _ => .pure hk.int
  | length =>
    refine (within_needValue hx).bind ?_
    rintro ⟨_, t⟩ -
    cases t with
    | string | list => exact .pure hk.int
    | _ => exact .throw trivial
  | other => exact .throw trivial

private theorem within_castCode (hv : v.Gives W K) (ha : W a.ty = true) {ty : Source.Ty}
    (hx : Yields K x) : Yields K (castCode v a ty x loc) := by
  refine (within_needValue hx).bind ?_
  rintro ⟨_, s⟩ -
  refine (within_valueLayout hv ha).bind fun target ht => ?_
  cases castKind? s target with
  | none => exact .throw trivial
  | some k => cases k <;> exact .pure ht

/-- Only the entry point has a parameter that may be of another kind, and it is not called. -/
private theorem within_callee (hv : v.Gives W K) {f : String} {n : Nat} :
    Lowering.Within K (fun sig : Machine.Signature => (∀ t ∈ sig.params, K t) ∧ K sig.ret)
      (callee v f n loc) := by
  unfold callee
  cases h : v.env.signatures.lookup f with
  | none => exact .throw trivial
  | some sig =>
    refine .ite (fun _ => .throw trivial) fun hs => .ite (fun _ => .throw trivial) fun _ => .pure ?_
    exact ⟨hv.env.params f sig h (Bool.eq_false_iff.mpr hs), hv.env.ret f sig h⟩

private theorem within_elemOf (hk : IsKind K) (ht : K t) : Lowering.Within K K (elemOf t loc) := by
  cases t with
  | list => exact .pure (hk.elem ht)
  | _ => exact .throw trivial

private theorem within_fieldOf (hk : IsKind K) (ht : K t) {name : String} :
    Lowering.Within K (fun f => K f.2) (fieldOf t name loc) := by
  cases t with
  | record fs =>
    simp only [fieldOf]
    cases h : (Machine.Ty.record fs).field? name with
    | none => exact .throw trivial
    | some f =>
      obtain ⟨j, -, hj⟩ := Machine.Ty.mem_of_findField h
      exact .pure (hk.field ht (List.mem_of_getElem? hj))
  | _ => exact .throw trivial

private theorem within_indexCode (hv : v.Gives W K) (ha : W a.ty = true) {s : Typed} (hs : K s.2)
    (hx : Yields K x) : Yields K (indexCode v a s x loc) :=
  (within_elemOf hv.env.kind hs).bind fun _ ht => (within_needTyped hv.env.kind.int hx).bind fun _ _ =>
    within_agree hv ha ht

private theorem within_accessCode (hv : v.Gives W K) (ha : W a.ty = true) {s : Typed} (hs : K s.2) {name : String} :
    Yields K (accessCode v a s name) :=
  (within_fieldOf hv.env.kind hs).bind fun _ ht => within_agree hv ha ht

private theorem within_checkFieldNames {seen names : List String} :
    Lowering.Within K Any (checkFieldNames t loc seen names) := by
  induction names generalizing seen with
  | nil => exact .pure trivial
  | cons n names ih => exact .ite (fun _ => .throw trivial) fun _ => .ite (fun _ => .throw trivial) fun _ => ih

private theorem within_fieldsCode {given : List (String × Loc × Lowering Typed)}
    (hg : ∀ n l x, given.lookup n = some (l, x) → Yields K x) {fs : List (String × Machine.Ty)}
    (hfs : ∀ f ∈ fs, K f.2) : Lowering.Within K Any (fieldsCode given loc fs) := by
  induction fs with
  | nil => exact .pure trivial
  | cons f fs ih =>
    obtain ⟨n, t⟩ := f
    rw [List.forall_mem_cons] at hfs
    simp only [fieldsCode]
    cases hl : given.lookup n with
    | none => exact .throw trivial
    | some y =>
      exact (within_needTyped hfs.1 (hg n _ _ hl)).bind fun _ _ => (ih hfs.2).bind fun _ _ => .pure trivial

end

mutual

private theorem within_exprCode {v : View} (hv : v.Gives W K) :
    ∀ e : Expr, e.everyTy W = true → Yields K (exprCode v e)
  | .const a l, h => by
    rw [Expr.everyTy] at h
    refine .bind (Q := fun r : Typed => K r.2) ?_ fun _ ht => within_agree hv h ht
    cases l with
    | bool => exact .pure hv.env.kind.boolean
    | int => exact .ite (fun _ => .pure hv.env.kind.int) fun _ => .throw trivial
    | string => exact .pure hv.env.kind.string
  | .var a name, h => by
    rw [Expr.everyTy] at h
    exact (within_findLocal hv).bind fun _ ht => within_agree hv h ht
  | .binary a op lhs rhs, h => by
    simp only [Expr.everyTy, Bool.and_eq_true] at h
    exact (within_binaryCode hv.env.kind (within_exprCode hv lhs h.1.2) (within_exprCode hv rhs h.2)).bind fun _ ht =>
      within_agree hv h.1.1 ht
  | .unary a op e, h => by
    simp only [Expr.everyTy, Bool.and_eq_true] at h
    exact (within_unaryCode hv.env.kind (within_exprCode hv e h.2)).bind fun _ ht => within_agree hv h.1 ht
  | .cast a e, h => by
    simp only [Expr.everyTy, Bool.and_eq_true] at h
    exact within_castCode hv h.1 (within_exprCode hv e h.2)
  | .call a f args, h => by
    simp only [Expr.everyTy, Bool.and_eq_true] at h
    exact (within_callee hv).bind fun _ hs => (within_argsCode hv args h.2 hs.1).bind fun _ _ =>
      within_agree hv h.1 hs.2
  | .index a source position, h => by
    simp only [Expr.everyTy, Bool.and_eq_true] at h
    exact (within_needValue (within_exprCode hv source h.1.2)).bind fun _ hs =>
      within_indexCode hv h.1.1 hs (within_exprCode hv position h.2)
  | .list a elems, h => by
    simp only [Expr.everyTy, Bool.and_eq_true] at h
    refine (within_layout hv h.1).bind fun t ht => ?_
    cases t with
    | list u =>
      have hu : K u := hv.env.kind.elem ht
      exact (within_argsCode hv elems h.2 fun _ hm => List.eq_of_mem_replicate hm ▸ hu).bind fun _ _ => .pure ht
    | _ => exact .throw trivial
  | .record a fields, h => by
    simp only [Expr.everyTy, Bool.and_eq_true] at h
    refine (within_layout hv h.1).bind fun t ht => ?_
    cases t with
    | record fs =>
      exact within_checkFieldNames.bind fun _ _ =>
        (within_fieldsCode (within_fieldValues hv fields h.2) fun _ => hv.env.kind.field ht).bind fun _ _ => .pure ht
    | _ => exact .throw trivial
  | .field a source name, h => by
    simp only [Expr.everyTy, Bool.and_eq_true] at h
    exact (within_needValue (within_exprCode hv source h.2)).bind fun _ hs => within_accessCode hv h.1 hs

private theorem within_argsCode {v : View} (hv : v.Gives W K) {context : Context} :
    ∀ es : List Expr, Expr.everyTyIn W es = true → ∀ {ts : List Machine.Ty},
      (∀ t ∈ ts, K t) → Lowering.Within K Any (argsCode v context ts es)
  | [], _, ts, _ => by cases ts <;> exact .pure trivial
  | e :: es, _, [], _ => .pure trivial
  | e :: es, h, t :: ts, ht => by
    simp only [Expr.everyTyIn, Bool.and_eq_true] at h
    rw [List.forall_mem_cons] at ht
    exact (within_needTyped ht.1 (within_exprCode hv e h.1)).bind fun _ _ =>
      (within_argsCode hv es h.2 ht.2).bind fun _ _ => .pure trivial

private theorem within_fieldValues {v : View} (hv : v.Gives W K) :
    ∀ fields : List (String × Expr), Expr.everyFieldTy W fields = true → ∀ n l x,
      (fieldValues v fields).lookup n = some (l, x) → Yields K x
  | [], _, n, l, x, hl => by simp [fieldValues] at hl
  | (m, e) :: rest, h, n, l, x, hl => by
    simp only [Expr.everyFieldTy, Bool.and_eq_true] at h
    simp only [fieldValues, List.lookup_cons] at hl
    split at hl
    · cases hl
      exact within_exprCode hv e h.1
    · exact within_fieldValues hv rest h.2 n l x hl

end

private theorem within_targetCode {v : View} (hv : v.Gives W K) :
    ∀ e : Expr, e.everyTy W = true → Yields K (targetCode v e)
  | .var a name, h => by
    rw [Expr.everyTy] at h
    exact (within_findLocal hv).bind fun _ ht => within_agree hv h ht
  | .index a source position, h => by
    simp only [Expr.everyTy, Bool.and_eq_true] at h
    exact (within_targetCode hv source h.1.2).bind fun _ hs =>
      within_indexCode hv h.1.1 hs (within_exprCode hv position h.2)
  | .field a source name, h => by
    simp only [Expr.everyTy, Bool.and_eq_true] at h
    exact (within_targetCode hv source h.2).bind fun _ hs => within_accessCode hv h.1 hs
  | .const a l, h => within_needValue (within_exprCode hv (.const a l) h)
  | .binary a op x y, h => within_needValue (within_exprCode hv (.binary a op x y) h)
  | .unary a op x, h => within_needValue (within_exprCode hv (.unary a op x) h)
  | .cast a x, h => within_needValue (within_exprCode hv (.cast a x) h)
  | .call a f es, h => within_needValue (within_exprCode hv (.call a f es) h)
  | .list a es, h => within_needValue (within_exprCode hv (.list a es) h)
  | .record a fs, h => within_needValue (within_exprCode hv (.record a fs) h)

/-! ### Statements -/

/-- Lowering of statements among variables whose types are of one kind. -/
abbrev StmtLowering.Within {α : Type} (K : Machine.Ty → Prop) (Q : α → Prop) (x : StmtLowering α) : Prop :=
  Lower.Within K (fun s : State => s.symbols.Of K) Q x

/-- A function is lowered where whatever it looks up, and its own result, have types of one kind. -/
structure Host.Gives (h : Host) (W : Source.Ty → Bool) (K : Machine.Ty → Prop) : Prop where
  env : h.env.Gives W K
  ret : K h.sig.ret

section
variable {h : Host} {loc : Loc}

private theorem within_withView (hh : h.Gives W K) {α : Type} {Q : α → Prop} {f : View → Lowering α}
    (hf : ∀ v : View, v.Gives W K → Lowering.Within K Q (f v)) : StmtLowering.Within K Q (withView h f) := by
  intro s hs
  have hr := hf ⟨h.env, s.symbols, h.sig.isStatic⟩ ⟨hh.env, hs⟩ s.labels trivial
  unfold withView
  rcases hx : (f ⟨h.env, s.symbols, h.sig.isStatic⟩).run s.labels with e | ⟨a, n⟩
  all_goals
    rw [StateT.run] at hx
    simp only [hx] at hr
  · exact hr
  · exact ⟨hr.1, hs⟩

private theorem within_newLabels (hh : h.Gives W K) : StmtLowering.Within K Any (withView h fun _ => newLabel) :=
  within_withView hh fun _ _ => within_newLabel

private theorem within_needExpr (hh : h.Gives W K) {context : Context} {want : Machine.Ty} (hw : K want)
    {e : Expr} (he : e.everyTy W = true) :
    StmtLowering.Within K Any (withView h fun v => needTyped context want e.loc (exprCode v e)) :=
  within_withView hh fun _ hv => within_needTyped hw (within_exprCode hv e he)

private theorem within_declareLocal {name : String} {ty : Machine.Ty} (ht : K ty) :
    StmtLowering.Within K Any (declareLocal name ty) := by
  intro s hs
  unfold declareLocal
  cases hd : s.symbols.declare name ty with
  | error e => exact trivial
  | ok r => exact ⟨trivial, Symbols.Of.declare hs ht hd⟩

private theorem within_inScope {α : Type} {Q : α → Prop} {body : StmtLowering α} (hb : StmtLowering.Within K Q body) :
    StmtLowering.Within K Q (inScope body) := by
  refine .bind (Q := Any) (fun _ hs => ⟨trivial, hs⟩) fun _ _ => hb.bind fun _ ha => ?_
  exact .bind (Q := Any) (fun _ hs => ⟨trivial, hs.exit⟩) fun _ _ => .pure ha

private theorem within_declCode (hh : h.Gives W K) {d : VarDecl} (hd : d.everyTy W = true) :
    StmtLowering.Within K Any (declCode h d) := by
  simp only [VarDecl.everyTy, Bool.and_eq_true] at hd
  refine (within_withView hh fun _ hv => within_valueLayout hv hd.1).bind fun t ht => ?_
  cases hi : d.init with
  | none => exact (within_declareLocal ht).bind fun _ _ => .pure trivial
  | some e =>
    have he : e.everyTy W = true := by simpa [hi] using hd.2
    exact (within_needExpr hh ht he).bind fun _ _ => (within_declareLocal ht).bind fun _ _ => .pure trivial

private theorem within_assignCode {v : View} (hv : v.Gives W K) {target : Target} {value : Expr}
    (ht : target.toExpr.everyTy W = true) (he : value.everyTy W = true) :
    Lowering.Within K Any (assignCode v loc target value) := by
  refine (within_needValue (within_exprCode hv value he)).bind fun _ hg => ?_
  cases target with
  | var => exact (within_findLocal hv).bind fun _ hw => (within_expect hw hg).bind fun _ _ => .pure trivial
  | index _ source position =>
    simp only [Target.toExpr, Expr.everyTy, Bool.and_eq_true] at ht
    exact (within_targetCode hv source ht.1.2).bind fun _ hs => (within_elemOf hv.env.kind hs).bind fun _ hw =>
      (within_needTyped hv.env.kind.int (within_exprCode hv position ht.2)).bind fun _ _ =>
        (within_expect hw hg).bind fun _ _ => .pure trivial
  | field _ source =>
    simp only [Target.toExpr, Expr.everyTy, Bool.and_eq_true] at ht
    exact (within_targetCode hv source ht.2).bind fun _ hs => (within_fieldOf hv.env.kind hs).bind fun _ hw =>
      (within_expect hw hg).bind fun _ _ => .pure trivial

private theorem within_returnCode (hh : h.Gives W K) {v : View} (hv : v.Gives W K) {value : Option Expr}
    (he : value.all (Expr.everyTy W) = true) : Lowering.Within K Any (returnCode h loc value v) := by
  cases value with
  | none => exact (within_expect hh.ret hh.env.kind.void).bind fun _ _ => .pure trivial
  | some e =>
    have hvalue : Lowering.Within K Any (do
        let c ← needTyped .result h.sig.ret e.loc (exprCode v e)
        return c ++ [.ret h.sig.ret]) :=
      (within_needTyped hh.ret (within_exprCode hv e he)).bind fun _ _ => .pure trivial
    exact .ite (fun _ => .bind (Q := Any) (.throw trivial) fun _ _ => hvalue) fun _ => hvalue

private theorem within_loopCode (hh : h.Gives W K) {cond : Expr} (hc : cond.everyTy W = true)
    {body step : StmtLowering Code} (hb : StmtLowering.Within K Any body) (hs : StmtLowering.Within K Any step) :
    StmtLowering.Within K Any (loopCode h cond body step) :=
  (within_newLabels hh).bind fun _ _ => (within_newLabels hh).bind fun _ _ =>
    (within_needExpr hh hh.env.kind.boolean hc).bind fun _ _ => hb.bind fun _ _ => hs.bind fun _ _ => .pure trivial

mutual

private theorem within_stmtCode {h : Host} (hh : h.Gives W K) :
    ∀ s : Stmt, s.everyTy W = true → StmtLowering.Within K Any (stmtCode h s)
  | .decl d, hs => within_declCode hh (by simpa only [Stmt.everyTy] using hs)
  | .assign loc target value, hs => by
    simp only [Stmt.everyTy, Bool.and_eq_true] at hs
    exact within_withView hh fun _ hv => within_assignCode hv hs.1 hs.2
  | .print loc value, hs => by
    simp only [Stmt.everyTy] at hs
    exact within_withView hh fun _ hv => (within_exprCode hv value hs).bind fun _ _ =>
      .ite (fun _ => .bind (Q := Any) (.throw trivial) fun _ _ => .pure trivial) fun _ => .pure trivial
  | .ret loc value, hs => by
    simp only [Stmt.everyTy] at hs
    exact within_withView hh fun _ hv => within_returnCode hh hv hs
  | .expr _ value, hs => by
    simp only [Stmt.everyTy] at hs
    exact within_withView hh fun _ hv => (within_exprCode hv value hs).bind fun _ _ => .pure trivial
  | .ifElse _ cond yes no, hs => by
    simp only [Stmt.everyTy, Bool.and_eq_true] at hs
    exact (within_needExpr hh hh.env.kind.boolean hs.1.1).bind fun _ _ => (within_newLabels hh).bind fun _ _ =>
      (within_newLabels hh).bind fun _ _ => (within_inScope (within_blockCode hh yes hs.1.2)).bind fun _ _ =>
        (within_inScope (within_blockCode hh no hs.2)).bind fun _ _ => .pure trivial
  | .whileDo _ cond body, hs => by
    simp only [Stmt.everyTy, Bool.and_eq_true] at hs
    exact within_loopCode hh hs.1 (within_inScope (within_blockCode hh body hs.2)) (.pure trivial)
  | .forDo _ init cond step body, hs => by
    simp only [Stmt.everyTy, Bool.and_eq_true] at hs
    exact within_inScope <| (within_declCode hh hs.1.1.1).bind fun _ _ =>
      (within_loopCode hh hs.1.1.2 (within_inScope (within_blockCode hh body hs.2))
        (within_stmtCode hh step hs.1.2)).bind fun _ _ => .pure trivial

private theorem within_blockCode {h : Host} (hh : h.Gives W K) :
    ∀ ss : List Stmt, Stmt.everyTyIn W ss = true → StmtLowering.Within K Any (blockCode h ss)
  | [], _ => .pure trivial
  | s :: rest, hs => by
    simp only [Stmt.everyTyIn, Bool.and_eq_true] at hs
    exact (within_stmtCode hh s hs.1).bind fun _ _ => (within_blockCode hh rest hs.2).bind fun _ _ => .pure trivial

end

end

/-! ### Functions -/

section
variable {env : Env} {f : FunDecl} {sig : Machine.Signature} {e : Cause}

private theorem declareParams_eq_error {seen : List String} {ps : List (String × Machine.Ty)} {s : Symbols}
    (he : declareParams f seen ps s = .error e) : (∃ x, e = .badType x) ∨ ∃ n, e = .duplicateParameter f.name n := by
  induction ps generalizing seen s with
  | nil => cases he
  | cons p ps ih =>
    obtain ⟨n, t⟩ := p
    simp only [declareParams] at he
    split at he
    · cases he
      exact .inr ⟨n, rfl⟩
    · split at he
      · cases he
        exact .inl ⟨_, rfl⟩
      · exact ih he

/-- Parameters that cannot be given slots have no room or share a name. -/
theorem initialSymbols_eq_error (he : initialSymbols env f sig = .error e) :
    (∃ x, e = .badType x) ∨ ∃ n, e = .duplicateParameter f.name n := by
  unfold initialSymbols at he
  rcases hr : Symbols.empty.reserve (implicitSlot env f).1 (implicitSlot env f).2 with e' | ⟨l, s⟩
  · simp only [hr, Partial.mapError_error, bind, Except.bind, Except.error.injEq] at he
    exact .inl ⟨e', he.symm⟩
  · simp only [hr, Partial.mapError_ok, bind, Except.bind] at he
    exact declareParams_eq_error he

theorem signatureIn_eq_error (he : signatureIn env f = .error e) : ∃ x, e = .badType x := by
  unfold signatureIn at he
  split at he
  · cases he
  · cases hs : signatureOf env f with
    | ok sig => simp [hs, Partial.mapError_ok] at he
    | error x =>
      simp only [hs, Partial.mapError_error, Except.error.injEq] at he
      exact ⟨x, he.symm⟩

/-- Lowering the body of a function fails for a reason of its own, about types of one kind. -/
theorem isOf_bodyCode (he : env.Gives W K) (hret : K sig.ret) (hs : ∀ s, initialSymbols env f sig = .ok s → s.Of K)
    (hf : Stmt.everyTyIn W f.body = true) (h : bodyCode env f sig = .error e) : e.IsOf K := by
  unfold bodyCode at h
  rcases Partial.then_eq_error.mp h with hi | ⟨s, hi, h⟩
  · rcases initialSymbols_eq_error hi with ⟨x, rfl⟩ | ⟨n, rfl⟩ <;> trivial
  · have hbody := within_blockCode (h := ⟨env, f.name, sig⟩) ⟨he, hret⟩ f.body hf
    have hwithin := within_inScope hbody ⟨0, s⟩ (hs s hi)
    rcases Partial.then_eq_error.mp h with hb | ⟨r, -, h⟩
    · rw [StateT.run] at hb
      simpa only [hb] using hwithin
    · cases h

end

end WhileStack.Lower
