import WhileStack.Proofs.Datum.RoundTrip
import WhileStack.Proofs.Source.Decoded

/-! The programs that a text can hold. A program that has been read is one of them: its names are symbols, its numbers
have 64 bits, its operators and types are what their symbols stand for. -/
namespace WhileStack.Source
open WhileStack.Text
open Datum (isWritten areWritten isSymbolText)

mutual

/-- The types that a text can hold. -/
inductive Ty.Readable : Ty → Prop
  | ofSymbol {s : String} (hs : isSymbolText s.toList = true) : Ty.Readable (Ty.ofSymbol s)
  | list {t : Ty} (ht : t.Readable) : Ty.Readable (.list t)
  | record {fs : List (String × Ty)} (hfs : FieldTysReadable [] fs) : Ty.Readable (.record fs)

/-- Record fields behind those of the given names. -/
inductive FieldTysReadable : List String → List (String × Ty) → Prop
  | nil {seen : List String} : FieldTysReadable seen []
  | cons {seen : List String} {s : String} {t : Ty} {fs : List (String × Ty)} (hs : isSymbolText s.toList = true)
      (hnew : s ∉ seen) (ht : t.Readable) (hfs : FieldTysReadable (s :: seen) fs) :
      FieldTysReadable seen ((s, t) :: fs)

end

inductive Literal.Readable : Literal → Prop
  | int {n : Int} (hn : InInt64 n) : Literal.Readable (.int n)
  | string (s : String) : Literal.Readable (.string s)
  | bool (b : Bool) : Literal.Readable (.bool b)

mutual

/-- The expressions that a text can hold. -/
inductive Expr.Readable : Expr → Prop
  | const {t : Ty} {loc : Loc} {v : Literal} (ht : t.Readable) (hv : v.Readable) : Expr.Readable (.const ⟨t, loc⟩ v)
  | var {t : Ty} {loc : Loc} {n : String} (ht : t.Readable) (hn : isSymbolText n.toList = true) :
      Expr.Readable (.var ⟨t, loc⟩ n)
  | binary {t : Ty} {loc : Loc} {op : BinOp} {l r : Expr} (ht : t.Readable) (hop : BinOp.ofSymbol op.symbol = op)
      (hs : isSymbolText op.symbol.toList = true) (hl : l.Readable) (hr : r.Readable) :
      Expr.Readable (.binary ⟨t, loc⟩ op l r)
  | unary {t : Ty} {loc : Loc} {op : UnOp} {e : Expr} (ht : t.Readable) (hop : UnOp.ofSymbol op.symbol = op)
      (hs : isSymbolText op.symbol.toList = true) (he : e.Readable) : Expr.Readable (.unary ⟨t, loc⟩ op e)
  | cast {t : Ty} {loc : Loc} {e : Expr} (ht : t.Readable) (he : e.Readable) : Expr.Readable (.cast ⟨t, loc⟩ e)
  | call {t : Ty} {loc : Loc} {f : String} {args : List Expr} (ht : t.Readable) (hf : isSymbolText f.toList = true)
      (hargs : ExprsReadable args) : Expr.Readable (.call ⟨t, loc⟩ f args)
  | index {t : Ty} {loc : Loc} {s i : Expr} (ht : t.Readable) (hs : s.Readable) (hi : i.Readable) :
      Expr.Readable (.index ⟨t, loc⟩ s i)
  | list {t : Ty} {loc : Loc} {es : List Expr} (ht : t.Readable) (hes : ExprsReadable es) :
      Expr.Readable (.list ⟨t, loc⟩ es)
  | record {t : Ty} {loc : Loc} {fs : List (String × Expr)} (ht : t.Readable) (hfs : FieldValuesReadable fs) :
      Expr.Readable (.record ⟨t, loc⟩ fs)
  | field {t : Ty} {loc : Loc} {s : Expr} {n : String} (ht : t.Readable) (hs : s.Readable)
      (hn : isSymbolText n.toList = true) : Expr.Readable (.field ⟨t, loc⟩ s n)

inductive ExprsReadable : List Expr → Prop
  | nil : ExprsReadable []
  | cons {e : Expr} {es : List Expr} (he : e.Readable) (hes : ExprsReadable es) : ExprsReadable (e :: es)

inductive FieldValuesReadable : List (String × Expr) → Prop
  | nil : FieldValuesReadable []
  | cons {n : String} {e : Expr} {fs : List (String × Expr)} (hn : isSymbolText n.toList = true) (he : e.Readable)
      (hfs : FieldValuesReadable fs) : FieldValuesReadable ((n, e) :: fs)

end

inductive VarDecl.Readable : VarDecl → Prop
  | unset {loc : Loc} {t : Ty} {n : String} (ht : t.Readable) (hn : isSymbolText n.toList = true) :
      VarDecl.Readable ⟨loc, t, n, none⟩
  | set {loc : Loc} {t : Ty} {n : String} {e : Expr} (ht : t.Readable) (hn : isSymbolText n.toList = true)
      (he : e.Readable) : VarDecl.Readable ⟨loc, t, n, some e⟩

mutual

/-- The statements that a text can hold. -/
inductive Stmt.Readable : Stmt → Prop
  | decl {v : VarDecl} (hv : v.Readable) : Stmt.Readable (.decl v)
  | assign {loc : Loc} {t : Target} {e : Expr} (ht : t.toExpr.Readable) (he : e.Readable) :
      Stmt.Readable (.assign loc t e)
  | print {loc : Loc} {e : Expr} (he : e.Readable) : Stmt.Readable (.print loc e)
  | ifElse {loc : Loc} {c : Expr} {yes no : List Stmt} (hc : c.Readable) (hy : StmtsReadable yes)
      (hn : StmtsReadable no) : Stmt.Readable (.ifElse loc c yes no)
  | whileDo {loc : Loc} {c : Expr} {body : List Stmt} (hc : c.Readable) (hb : StmtsReadable body) :
      Stmt.Readable (.whileDo loc c body)
  | forDo {loc : Loc} {v : VarDecl} {c : Expr} {step : Stmt} {body : List Stmt} (hv : v.Readable) (hc : c.Readable)
      (hs : step.Readable) (hb : StmtsReadable body) : Stmt.Readable (.forDo loc v c step body)
  | ret {loc : Loc} : Stmt.Readable (.ret loc none)
  | retValue {loc : Loc} {e : Expr} (he : e.Readable) : Stmt.Readable (.ret loc (some e))
  | expr {loc : Loc} {e : Expr} (he : e.Readable) : Stmt.Readable (.expr loc e)

inductive StmtsReadable : List Stmt → Prop
  | nil : StmtsReadable []
  | cons {s : Stmt} {rest : List Stmt} (hs : s.Readable) (hrest : StmtsReadable rest) : StmtsReadable (s :: rest)

end

/-- The declarations that a text can hold. A function may be marked as the entry point or not. -/
inductive Decl.Readable : Decl → Prop
  | fn {loc : Loc} {n : String} {params : List (String × Ty)} {ret : Ty} {body : List Stmt} {isEntry : Bool}
      (hn : isSymbolText n.toList = true) (hparams : ∀ p ∈ params, isSymbolText p.1.toList = true ∧ p.2.Readable)
      (hret : ret.Readable) (hbody : StmtsReadable body) : Decl.Readable (.fn ⟨loc, n, params, ret, body, isEntry⟩)
  | type {loc : Loc} {n : String} {t : Ty} (hn : isSymbolText n.toList = true) (ht : t.Readable) :
      Decl.Readable (.type ⟨loc, n, t⟩)

theorem Gives.mapM_mem {α γ : Type} {g : γ → Decoded α} {Q : α → Prop} :
    ∀ {cs : List γ}, (∀ c ∈ cs, Gives (g c) Q) → Gives (cs.mapM g) fun as => ∀ a ∈ as, Q a
  | [], _ => .ok (by simp)
  | c :: cs, h => by
    rw [List.forall_mem_cons] at h
    rw [List.mapM_cons]
    exact h.1.bind fun a ha => (Gives.mapM_mem h.2).bind fun as has => .ok (List.forall_mem_cons.mpr ⟨ha, has⟩)

theorem BinOp.symbol_ofSymbol (s : String) : (BinOp.ofSymbol s).symbol = s := by
  unfold BinOp.ofSymbol
  cases h : BinOp.known.find? fun op => op.symbol = s with
  | none => rfl
  | some op => simpa using List.find?_some h

theorem UnOp.symbol_ofSymbol (s : String) : (UnOp.ofSymbol s).symbol = s := by
  unfold UnOp.ofSymbol
  cases h : UnOp.known.find? fun op => op.symbol = s with
  | none => rfl
  | some op => simpa using List.find?_some h

private theorem symbol_written {d : Datum} (hw : d.isWritten = true) :
    Gives (symbolOf d) fun s => isSymbolText s.toList = true := by
  unfold symbolOf
  split
  · exact .ok hw
  · exact .refuse

mutual

private theorem ty_readable : ∀ d : Datum, d.isWritten = true → Gives (tyOf d) Ty.Readable
  | d, hw => by
    unfold tyOf
    split
    · exact .ok (.ofSymbol hw)
    · simp only [isWritten, areWritten, Bool.and_eq_true] at hw
      split
      · simp only [areWritten, Bool.and_true] at hw
        exact (ty_readable _ hw.1.1.2).bind fun t ht => .ok (.list ht)
      · exact .refuse
    · simp only [isWritten, areWritten, Bool.and_eq_true] at hw
      exact (fieldTys_readable [] _ hw.1.1.2).bind fun fs hfs => .ok (.record hfs)
    · exact .refuse
  termination_by d => sizeOf d
  decreasing_by all_goals (subst_vars; simp only [Datum.list.sizeOf_spec, List.cons.sizeOf_spec]; omega)

private theorem fieldTys_readable : ∀ (seen : List String) (ds : List Datum), areWritten ds = true →
    Gives (fieldTysOf seen ds) (FieldTysReadable seen)
  | seen, ds, hw => by
    unfold fieldTysOf
    split
    · exact .ok .nil
    · simp only [isWritten, areWritten, Bool.and_eq_true] at hw
      refine (symbol_written hw.1.1.1.1).bind fun n hn => ?_
      dsimp only
      split
      · exact .refuseFirst
      · rename_i hseen
        exact (ty_readable _ hw.1.1.1.2.1).bind fun t ht => (fieldTys_readable (n :: seen) _ hw.2).bind fun fs hfs =>
          .ok (.cons hn hseen ht hfs)
    · exact .refuse
  termination_by _ ds => sizeOf ds
  decreasing_by all_goals (subst_vars; simp only [Datum.list.sizeOf_spec, List.cons.sizeOf_spec]; omega)

end

private theorem literal_readable {d : Datum} (hw : d.isWritten = true) : Gives (literalOf d) Literal.Readable := by
  unfold literalOf
  split
  · simp only [isWritten, readInt64?, Bool.and_eq_true, decide_eq_true_eq, Option.filter_eq_some_iff] at hw
    exact .ok (.int hw.2.2)
  · exact .ok (.string _)
  · split
    · exact .ok (.bool true)
    · split
      · exact .ok (.bool false)
      · exact .refuse
  · exact .refuse

mutual

private theorem expr_readable : ∀ d : Datum, d.isWritten = true → Gives (exprOf d) Expr.Readable
  | d, hw => by
    unfold exprOf
    split <;> try exact .refuse
    simp only [isWritten, areWritten, Bool.and_eq_true] at hw
    obtain ⟨⟨⟨-, ht, hops⟩, -⟩, -⟩ := hw
    refine (ty_readable _ ht).bind fun t ht => ?_
    dsimp only
    split <;> try exact .refuse
    all_goals try simp only [areWritten, Bool.and_eq_true, Bool.and_true] at hops
    · exact (literal_readable hops).bind fun v hv => .ok (.const ht hv)
    · exact (symbol_written hops).bind fun n hn => .ok (.var ht hn)
    · refine (symbol_written hops.1).bind fun o ho => (expr_readable _ hops.2.1).bind fun l hl => ?_
      refine (expr_readable _ hops.2.2).bind fun r hr => .ok (.binary ht ?_ ?_ hl hr)
      · rw [BinOp.symbol_ofSymbol]
      · rwa [BinOp.symbol_ofSymbol]
    · refine (symbol_written hops.1).bind fun o ho => (expr_readable _ hops.2).bind fun e he => .ok (.unary ht ?_ ?_ he)
      · rw [UnOp.symbol_ofSymbol]
      · rwa [UnOp.symbol_ofSymbol]
    · exact (expr_readable _ hops).bind fun e he => .ok (.cast ht he)
    · exact (symbol_written hops.1).bind fun n hn => (exprs_readable _ hops.2).bind fun es hes => .ok (.call ht hn hes)
    · exact (expr_readable _ hops.1).bind fun l hl => (expr_readable _ hops.2).bind fun r hr => .ok (.index ht hl hr)
    · exact (exprs_readable _ hops).bind fun es hes => .ok (.list ht hes)
    · exact (fieldValues_readable _ hops).bind fun fs hfs => .ok (.record ht hfs)
    · exact (expr_readable _ hops.1).bind fun e he => (symbol_written hops.2).bind fun n hn => .ok (.field ht he hn)
  termination_by d => sizeOf d
  decreasing_by all_goals (subst_vars; simp only [Datum.list.sizeOf_spec, List.cons.sizeOf_spec]; omega)

private theorem exprs_readable : ∀ ds : List Datum, areWritten ds = true → Gives (exprsOf ds) ExprsReadable
  | [], _ => .ok .nil
  | d :: ds, hw => by
    rw [areWritten, Bool.and_eq_true] at hw
    rw [exprsOf]
    exact (expr_readable d hw.1).bind fun e he => (exprs_readable ds hw.2).bind fun es hes => .ok (.cons he hes)
  termination_by ds => sizeOf ds
  decreasing_by all_goals (simp only [List.cons.sizeOf_spec]; omega)

private theorem fieldValues_readable : ∀ ds : List Datum, areWritten ds = true →
    Gives (fieldValuesOf ds) FieldValuesReadable
  | ds, hw => by
    unfold fieldValuesOf
    split
    · exact .ok .nil
    · simp only [isWritten, areWritten, Bool.and_eq_true] at hw
      exact (symbol_written hw.1.1.1.1).bind fun n hn => (expr_readable _ hw.1.1.1.2.1).bind fun e he =>
        (fieldValues_readable _ hw.2).bind fun fs hfs => .ok (.cons hn he hfs)
    · exact .refuse
  termination_by ds => sizeOf ds
  decreasing_by all_goals (subst_vars; simp only [Datum.list.sizeOf_spec, List.cons.sizeOf_spec]; omega)

end

private theorem target_readable {d : Datum} (hw : d.isWritten = true) : Gives (targetOf d) fun t => t.toExpr.Readable := by
  unfold targetOf
  refine (expr_readable d hw).bind fun e he => ?_
  split
  · rename_i t ht
    rw [← Target.toExpr_of_ofExpr? ht] at he
    exact .ok he
  · exact .refuse

private theorem isWritten_of_mem {d : Datum} : ∀ {ds : List Datum}, areWritten ds = true → d ∈ ds → d.isWritten = true
  | x :: ds, hw, hd => by
    rw [areWritten, Bool.and_eq_true] at hw
    rcases List.mem_cons.mp hd with rfl | hd
    · exact hw.1
    · exact isWritten_of_mem hw.2 hd

private theorem areWritten_items {d : Datum} (hw : d.isWritten = true) : areWritten d.items = true := by
  cases d with
  | list =>
    simp only [isWritten, Bool.and_eq_true] at hw
    exact hw.1.1
  | symbol | string | integer | map => rfl

private theorem varDecl_readable {d : Datum} (hw : d.isWritten = true) : Gives (varDeclOf d) VarDecl.Readable := by
  have hitems := areWritten_items hw
  unfold varDeclOf
  split
  all_goals try simp only [*, areWritten, Bool.and_eq_true, Bool.and_true] at hitems
  · exact (ty_readable _ hitems.2.1).bind fun t ht => (symbol_written hitems.2.2).bind fun n hn => .ok (.unset ht hn)
  · exact (ty_readable _ hitems.2.1).bind fun t ht => (symbol_written hitems.2.2.1).bind fun n hn =>
      (expr_readable _ hitems.2.2.2).bind fun e he => .ok (.set ht hn he)
  · exact .refuse

mutual

private theorem stmt_readable : ∀ d : Datum, d.isWritten = true → Gives (stmtOf d) Stmt.Readable
  | d, hw => by
    unfold stmtOf
    split <;> try exact .refuse
    have hops := hw
    simp only [isWritten, areWritten, Bool.and_eq_true] at hops
    obtain ⟨⟨⟨-, hops⟩, -⟩, -⟩ := hops
    dsimp only
    split <;> try exact .refuse
    all_goals try simp only [areWritten, Bool.and_eq_true, Bool.and_true] at hops
    · exact (varDecl_readable hw).bind fun v hv => .ok (.decl hv)
    · exact (target_readable hops.1).bind fun t ht => (expr_readable _ hops.2).bind fun e he => .ok (.assign ht he)
    · exact (expr_readable _ hops).bind fun e he => .ok (.print he)
    · exact (expr_readable _ hops).bind fun e he => .ok (.expr he)
    · exact (expr_readable _ hops.1).bind fun c hc => (block_readable _ hops.2).bind fun y hy =>
        .ok (.ifElse hc hy .nil)
    · exact (expr_readable _ hops.1).bind fun c hc => (block_readable _ hops.2.1).bind fun y hy =>
        (block_readable _ hops.2.2).bind fun n hn => .ok (.ifElse hc hy hn)
    · exact (expr_readable _ hops.1).bind fun c hc => (block_readable _ hops.2).bind fun b hb => .ok (.whileDo hc hb)
    · split
      · exact .refuseFirst
      · exact (varDecl_readable hops.1).bind fun v hv => (expr_readable _ hops.2.1).bind fun c hc =>
          (stmt_readable _ hops.2.2.1).bind fun s hs => (block_readable _ hops.2.2.2).bind fun b hb =>
            .ok (.forDo hv hc hs hb)
    · exact .ok .ret
    · exact (expr_readable _ hops).bind fun e he => .ok (.retValue he)
  termination_by d => sizeOf d
  decreasing_by all_goals (subst_vars; simp only [Datum.list.sizeOf_spec, List.cons.sizeOf_spec]; omega)

private theorem block_readable : ∀ d : Datum, d.isWritten = true → Gives (blockOf d) StmtsReadable
  | d, hw => by
    unfold blockOf
    split
    · simp only [isWritten, areWritten, Bool.and_eq_true] at hw
      exact stmts_readable _ hw.1.1.2
    · exact .refuse
  termination_by d => sizeOf d
  decreasing_by all_goals (subst_vars; simp only [Datum.list.sizeOf_spec, List.cons.sizeOf_spec]; omega)

private theorem stmts_readable : ∀ ds : List Datum, areWritten ds = true → Gives (stmtsOf ds) StmtsReadable
  | [], _ => .ok .nil
  | d :: ds, hw => by
    rw [areWritten, Bool.and_eq_true] at hw
    rw [stmtsOf]
    exact (stmt_readable d hw.1).bind fun s hs => (stmts_readable ds hw.2).bind fun ss hss => .ok (.cons hs hss)
  termination_by ds => sizeOf ds
  decreasing_by all_goals (simp only [List.cons.sizeOf_spec]; omega)

end

private theorem params_readable {d : Datum} (hw : d.isWritten = true) :
    Gives (paramsOf d) fun ps => ∀ p ∈ ps, isSymbolText p.1.toList = true ∧ p.2.Readable := by
  have param {d : Datum} (hw : d.isWritten = true) :
      Gives (paramOf d) fun p => isSymbolText p.1.toList = true ∧ p.2.Readable := by
    unfold paramOf
    split
    · simp only [isWritten, areWritten, Bool.and_eq_true] at hw
      exact (symbol_written hw.1.1.1).bind fun n hn => (ty_readable _ hw.1.1.2.1).bind fun t ht => .ok ⟨hn, ht⟩
    · exact .refuse
  have hitems := areWritten_items hw
  unfold paramsOf
  split
  · exact .mapM_mem fun c hc => param (isWritten_of_mem hitems hc)
  · exact .refuse

private theorem decl_readable {d : Datum} (hw : d.isWritten = true) : Gives (declOf d) Decl.Readable := by
  have hitems := areWritten_items hw
  unfold declOf
  split <;> try exact .refuse
  all_goals simp only [*, areWritten, Bool.and_eq_true, Bool.and_true] at hitems
  · refine (symbol_written hitems.2.1).bind fun n hn => (ty_readable _ hitems.2.2.1).bind fun r hr => ?_
    exact (params_readable hitems.2.2.2.1).bind fun ps hps => (stmts_readable _ hitems.2.2.2.2).bind fun b hb =>
      .ok (.fn hn hps hr hb)
  · exact (symbol_written hitems.2.1).bind fun n hn => (ty_readable _ hitems.2.2).bind fun t ht => .ok (.type hn ht)

private theorem readable_markEntry (entry : String) {ds : List Decl} (h : ∀ d ∈ ds, d.Readable) :
    ∀ d ∈ markEntry entry ds, d.Readable := by
  induction ds with
  | nil => nofun
  | cons x ds ih =>
    rw [List.forall_mem_cons] at h
    cases x with
    | type t => exact List.forall_mem_cons.mpr ⟨h.1, ih h.2⟩
    | fn f =>
      unfold markEntry
      split
      · cases h.1 with
        | fn hn hparams hret hbody => exact List.forall_mem_cons.mpr ⟨.fn hn hparams hret hbody, h.2⟩
      · exact List.forall_mem_cons.mpr ⟨h.1, ih h.2⟩

/-- What is read from a datum of a text can be written in a text. -/
theorem Program.readable_of_ofDatum {entry : String} {d : Datum} (hw : d.isWritten = true) :
    Gives (Program.ofDatum entry d) fun p => ∀ x ∈ p.decls, x.Readable := by
  unfold Program.ofDatum
  split
  · have hitems := areWritten_items hw
    refine (Gives.mapM_mem fun c hc => decl_readable (isWritten_of_mem hitems (List.mem_of_mem_drop hc))).bind
      fun ds hds => .ok ?_
    unfold Program.withEntry
    split
    · exact hds
    · exact readable_markEntry entry hds
  · exact .refuse

end WhileStack.Source
