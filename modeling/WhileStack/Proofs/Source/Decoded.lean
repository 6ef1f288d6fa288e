import WhileStack.Proofs.Source.Types
import WhileStack.Source.OfDatum

/-! What programs that are read are like. A record type that names a field twice is not read. -/
namespace WhileStack.Source

/-- Whatever a reading gives has a property. -/
def Gives {α : Type} (x : Decoded α) (Q : α → Prop) : Prop := ∀ a, x = .ok a → Q a

namespace Gives
variable {α β γ : Type} {x : Decoded α} {f : α → Decoded β} {a : α} {Q : α → Prop} {R : β → Prop}

theorem ok (h : Q a) : Gives (.ok a) Q := by
  rintro _ ⟨⟩
  exact h

theorem refuse {d : Datum} {cause : DecodeCause} : Gives (refuse d cause) Q := by
  rintro _ ⟨⟩

theorem bind (h : Gives x Q) (hf : ∀ a, Q a → Gives (f a) R) : Gives (x >>= f) R := by
  intro b hb
  cases x with
  | error e => cases hb
  | ok a => exact hf a (h a rfl) b hb

theorem refuseFirst {d : Datum} {cause : DecodeCause} : Gives (Source.refuse d cause >>= f) R := by
  rintro _ ⟨⟩

/-- A part of which nothing need be known. -/
theorem skip (hf : ∀ a, Gives (f a) R) : Gives (x >>= f) R :=
  bind (Q := fun _ => True) (fun _ _ => trivial) fun a _ => hf a

theorem mapM {g : γ → Decoded α} {B : α → Bool} (hg : ∀ c, Gives (g c) fun a => B a = true) (cs : List γ) :
    Gives (cs.mapM g) fun as => as.all B = true := by
  induction cs with
  | nil => exact ok rfl
  | cons c cs ih =>
    rw [List.mapM_cons]
    exact (hg c).bind fun a ha => ih.bind fun as has => ok (by simp [ha, has])

end Gives

/-- Record fields behind those of the given names. -/
private structure FieldsAfter (seen : List String) (fs : List (String × Ty)) : Prop where
  distinct : Ty.areDistinct fs = true
  nodup : (fs.map Prod.fst).Nodup
  fresh : ∀ n ∈ fs.map Prod.fst, n ∉ seen

mutual

private theorem ty_distinct : ∀ d, Gives (tyOf d) fun t => t.isDistinct = true
  | d => by
    unfold tyOf
    split
    · refine .ok ?_
      unfold Ty.ofSymbol
      repeat' split
      all_goals rfl
    · split
      · exact (ty_distinct _).bind fun t ht => .ok ht
      · exact .refuse
    · refine (fieldTys_distinct [] _).bind fun fs h => .ok ?_
      simp [Ty.isDistinct, h.distinct, h.nodup]
    · exact .refuse
  termination_by d => sizeOf d
  decreasing_by all_goals (subst_vars; simp only [Datum.list.sizeOf_spec, List.cons.sizeOf_spec]; omega)

private theorem fieldTys_distinct : ∀ seen ds, Gives (fieldTysOf seen ds) (FieldsAfter seen)
  | seen, ds => by
    unfold fieldTysOf
    split
    · exact .ok ⟨rfl, .nil, by simp⟩
    · refine .skip fun n => ?_
      dsimp only
      split
      · exact .refuseFirst
      · rename_i hn
        refine (ty_distinct _).bind fun t ht => (fieldTys_distinct (n :: seen) _).bind fun fs h => .ok ⟨?_, ?_, ?_⟩
        · simp [Ty.areDistinct, ht, h.distinct]
        · have hnew : n ∉ fs.map Prod.fst := fun hm => h.fresh n hm (List.mem_cons_self ..)
          exact List.nodup_cons.mpr ⟨hnew, h.nodup⟩
        · intro m hm hs
          rcases List.mem_cons.mp hm with rfl | hm
          · exact hn hs
          · exact h.fresh m hm (List.mem_cons_of_mem _ hs)
    · exact .refuse
  termination_by _ ds => sizeOf ds
  decreasing_by all_goals (subst_vars; simp only [Datum.list.sizeOf_spec, List.cons.sizeOf_spec]; omega)

end

theorem Target.toExpr_of_ofExpr? {e : Expr} {t : Target} (h : ofExpr? e = some t) : t.toExpr = e := by
  cases e <;> cases h <;> rfl

mutual

private theorem expr_distinct : ∀ d, Gives (exprOf d) fun e => e.everyTy Ty.isDistinct = true
  | d => by
    unfold exprOf
    split <;> try exact .refuse
    refine (ty_distinct _).bind fun t ht => ?_
    dsimp only
    split <;> try exact .refuse
    · exact .skip fun value => .ok (by simp [Expr.everyTy, ht])
    · exact .skip fun name => .ok (by simp [Expr.everyTy, ht])
    · exact .skip fun op => (expr_distinct _).bind fun l hl => (expr_distinct _).bind fun r hr =>
        .ok (by simp [Expr.everyTy, ht, hl, hr])
    · exact .skip fun op => (expr_distinct _).bind fun e he => .ok (by simp [Expr.everyTy, ht, he])
    · exact (expr_distinct _).bind fun e he => .ok (by simp [Expr.everyTy, ht, he])
    · exact .skip fun name => (exprs_distinct _).bind fun args ha => .ok (by simp [Expr.everyTy, ht, ha])
    · exact (expr_distinct _).bind fun s hs => (expr_distinct _).bind fun i hi =>
        .ok (by simp [Expr.everyTy, ht, hs, hi])
    · exact (exprs_distinct _).bind fun elems he => .ok (by simp [Expr.everyTy, ht, he])
    · exact (fieldValues_distinct _).bind fun fields hf => .ok (by simp [Expr.everyTy, ht, hf])
    · exact (expr_distinct _).bind fun source hs => .skip fun name => .ok (by simp [Expr.everyTy, ht, hs])
  termination_by d => sizeOf d
  decreasing_by all_goals (subst_vars; simp only [Datum.list.sizeOf_spec, List.cons.sizeOf_spec]; omega)

private theorem exprs_distinct : ∀ ds, Gives (exprsOf ds) fun es => Expr.everyTyIn Ty.isDistinct es = true
  | [] => .ok rfl
  | d :: ds => by
    rw [exprsOf]
    exact (expr_distinct d).bind fun e he => (exprs_distinct ds).bind fun es hes =>
      .ok (by simp [Expr.everyTyIn, he, hes])
  termination_by ds => sizeOf ds
  decreasing_by all_goals (simp only [List.cons.sizeOf_spec]; omega)

private theorem fieldValues_distinct : ∀ ds,
    Gives (fieldValuesOf ds) fun fs => Expr.everyFieldTy Ty.isDistinct fs = true
  | ds => by
    unfold fieldValuesOf
    split
    · exact .ok rfl
    · exact .skip fun n => (expr_distinct _).bind fun e he => (fieldValues_distinct _).bind fun fs hfs =>
        .ok (by simp [Expr.everyFieldTy, he, hfs])
    · exact .refuse
  termination_by ds => sizeOf ds
  decreasing_by all_goals (subst_vars; simp only [Datum.list.sizeOf_spec, List.cons.sizeOf_spec]; omega)

end

private theorem varDecl_distinct (d : Datum) : Gives (varDeclOf d) fun v => v.everyTy Ty.isDistinct = true := by
  unfold varDeclOf
  split
  · exact (ty_distinct _).bind fun t ht => .skip fun n => .ok (by simp [VarDecl.everyTy, ht])
  · exact (ty_distinct _).bind fun t ht => .skip fun n => (expr_distinct _).bind fun e he =>
      .ok (by simp [VarDecl.everyTy, ht, he])
  · exact .refuse

private theorem target_distinct (d : Datum) : Gives (targetOf d) fun t => t.toExpr.everyTy Ty.isDistinct = true := by
  unfold targetOf
  refine (expr_distinct d).bind fun e he => ?_
  split
  · rename_i t ht
    rw [← Target.toExpr_of_ofExpr? ht] at he
    exact .ok he
  · exact .refuse

mutual

private theorem stmt_distinct : ∀ d, Gives (stmtOf d) fun s => s.everyTy Ty.isDistinct = true
  | d => by
    unfold stmtOf
    split <;> try exact .refuse
    dsimp only
    split <;> try exact .refuse
    · exact (varDecl_distinct _).bind fun v hv => .ok (by simp [Stmt.everyTy, hv])
    · exact (target_distinct _).bind fun t ht => (expr_distinct _).bind fun e he =>
        .ok (by simp [Stmt.everyTy, ht, he])
    · exact (expr_distinct _).bind fun e he => .ok (by simp [Stmt.everyTy, he])
    · exact (expr_distinct _).bind fun e he => .ok (by simp [Stmt.everyTy, he])
    · exact (expr_distinct _).bind fun c hc => (block_distinct _).bind fun y hy =>
        .ok (by simp [Stmt.everyTy, Stmt.everyTyIn, hc, hy])
    · exact (expr_distinct _).bind fun c hc => (block_distinct _).bind fun y hy => (block_distinct _).bind fun n hn =>
        .ok (by simp [Stmt.everyTy, hc, hy, hn])
    · exact (expr_distinct _).bind fun c hc => (block_distinct _).bind fun b hb => .ok (by simp [Stmt.everyTy, hc, hb])
    · split
      · exact .refuseFirst
      · exact (varDecl_distinct _).bind fun i hi => (expr_distinct _).bind fun c hc => (stmt_distinct _).bind fun s hs =>
          (block_distinct _).bind fun b hb => .ok (by simp [Stmt.everyTy, hi, hc, hs, hb])
    · exact .ok rfl
    · exact (expr_distinct _).bind fun e he => .ok (by simp [Stmt.everyTy, he])
  termination_by d => sizeOf d
  decreasing_by all_goals (subst_vars; simp only [Datum.list.sizeOf_spec, List.cons.sizeOf_spec]; omega)

private theorem block_distinct : ∀ d, Gives (blockOf d) fun b => Stmt.everyTyIn Ty.isDistinct b = true
  | d => by
    unfold blockOf
    split
    · exact stmts_distinct _
    · exact .refuse
  termination_by d => sizeOf d
  decreasing_by all_goals (subst_vars; simp only [Datum.list.sizeOf_spec, List.cons.sizeOf_spec]; omega)

private theorem stmts_distinct : ∀ ds, Gives (stmtsOf ds) fun ss => Stmt.everyTyIn Ty.isDistinct ss = true
  | [] => .ok rfl
  | d :: ds => by
    rw [stmtsOf]
    exact (stmt_distinct d).bind fun s hs => (stmts_distinct ds).bind fun ss hss =>
      .ok (by simp [Stmt.everyTyIn, hs, hss])
  termination_by ds => sizeOf ds
  decreasing_by all_goals (simp only [List.cons.sizeOf_spec]; omega)

end

private theorem params_distinct (d : Datum) : Gives (paramsOf d) fun ps => ps.all (fun p => p.2.isDistinct) = true := by
  have param : ∀ d, Gives (paramOf d) fun p => p.2.isDistinct = true := fun d => by
    unfold paramOf
    split
    · exact .skip fun n => (ty_distinct _).bind fun t ht => .ok ht
    · exact .refuse
  unfold paramsOf
  split
  · exact .mapM param _
  · exact .refuse

private theorem decl_distinct (d : Datum) : Gives (declOf d) fun x => x.everyTy Ty.isDistinct = true := by
  unfold declOf
  split <;> try exact .refuse
  · refine .skip fun n => (ty_distinct _).bind fun r hr => (params_distinct _).bind fun ps hps => ?_
    exact (stmts_distinct _).bind fun b hb => .ok (by simp [Decl.everyTy, FunDecl.everyTy, hr, hps, hb])
  · exact .skip fun n => (ty_distinct _).bind fun t ht => .ok ht

/-- Marking an entry point changes no type. -/
private theorem all_markEntry {P : Ty → Bool} (name : String) (ds : List Decl) :
    (markEntry name ds).all (Decl.everyTy P) = ds.all (Decl.everyTy P) := by
  induction ds with
  | nil => rfl
  | cons d ds ih =>
    cases d with
    | type t => simp [markEntry, ih]
    | fn f =>
      unfold markEntry
      split
      · rfl
      · simp [ih]

private theorem ofDatum_fieldsDistinct (entry : String) (d : Datum) :
    Gives (Program.ofDatum entry d) Program.FieldsDistinct := by
  unfold Program.ofDatum
  split
  · refine (Gives.mapM decl_distinct _).bind fun ds hds => .ok ?_
    unfold Program.withEntry
    split
    · exact hds
    · exact (all_markEntry entry ds).trans hds
  · exact .refuse

/-- No program that is read names a field of a record type twice. -/
theorem Program.fieldsDistinct_of_parse {entry text : String} {p : Program} (h : Program.parse entry text = .ok p) :
    p.FieldsDistinct := by
  unfold Program.parse at h
  split at h
  · cases h
  · rename_i d _
    cases hd : Program.ofDatum entry d with
    | error e =>
      rw [hd] at h
      cases h
    | ok q =>
      rw [hd] at h
      cases h
      exact ofDatum_fieldsDistinct entry d p hd

end WhileStack.Source
