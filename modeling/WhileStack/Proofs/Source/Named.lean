import WhileStack.Proofs.Source.RoundTrip

/-! The record types of a program that has been read. Their fields have symbols for names, and the program has no other
types than those it is written with and their parts. -/
namespace WhileStack.Source
open Datum (isSymbolText)

namespace Ty

mutual

/-- Every record field in the type has a symbol for a name. -/
def isNamed : Ty → Bool
  | list t => isNamed t
  | record fs => areNamed fs
  | _ => true

def areNamed : List (String × Ty) → Bool
  | [] => true
  | (n, t) :: fs => isSymbolText n.toList && isNamed t && areNamed fs

end

theorem isNamed_of_mem {fs : List (String × Ty)} (h : areNamed fs = true) {f : String × Ty} (hf : f ∈ fs) :
    f.2.isNamed = true := by
  induction fs with
  | nil => cases hf
  | cons g fs ih =>
    simp only [areNamed, Bool.and_eq_true] at h
    rcases List.mem_cons.mp hf with rfl | hf
    · exact h.1.2
    · exact ih h.2 hf

mutual

private theorem Readable.isNamed : ∀ {t : Ty}, t.Readable → t.isNamed = true
  | _, .ofSymbol _ => by
    unfold Ty.ofSymbol
    repeat' split
    all_goals rfl
  | _, .list ht => by rw [Ty.isNamed]; exact ht.isNamed
  | _, .record hfs => by rw [Ty.isNamed]; exact fieldTysReadable_named hfs

private theorem fieldTysReadable_named : ∀ {seen : List String} {fs : List (String × Ty)}, FieldTysReadable seen fs →
    areNamed fs = true
  | _, _, .nil => rfl
  | _, _, .cons hs _ ht hfs => by simp [areNamed, hs, ht.isNamed, fieldTysReadable_named hfs]

end

end Ty

section
variable {P : Ty → Bool}

mutual

private theorem Expr.Readable.everyTy (hP : ∀ t : Ty, t.Readable → P t = true) :
    ∀ {e : Expr}, e.Readable → e.everyTy P = true
  | _, .const ht _ | _, .var ht _ => by simp [Expr.everyTy, hP _ ht]
  | _, .binary ht _ _ hl hr => by simp [Expr.everyTy, hP _ ht, hl.everyTy hP, hr.everyTy hP]
  | _, .unary ht _ _ he | _, .cast ht he | _, .field ht he _ => by simp [Expr.everyTy, hP _ ht, he.everyTy hP]
  | _, .index ht hs hi => by simp [Expr.everyTy, hP _ ht, hs.everyTy hP, hi.everyTy hP]
  | _, .call ht _ hes | _, .list ht hes => by simp [Expr.everyTy, hP _ ht, exprsReadable_everyTy hP hes]
  | _, .record ht hfs => by simp [Expr.everyTy, hP _ ht, fieldValuesReadable_everyTy hP hfs]

private theorem exprsReadable_everyTy (hP : ∀ t : Ty, t.Readable → P t = true) :
    ∀ {es : List Expr}, ExprsReadable es → Expr.everyTyIn P es = true
  | _, .nil => rfl
  | _, .cons he hes => by simp [Expr.everyTyIn, he.everyTy hP, exprsReadable_everyTy hP hes]

private theorem fieldValuesReadable_everyTy (hP : ∀ t : Ty, t.Readable → P t = true) :
    ∀ {fs : List (String × Expr)}, FieldValuesReadable fs → Expr.everyFieldTy P fs = true
  | _, .nil => rfl
  | _, .cons _ he hfs => by simp [Expr.everyFieldTy, he.everyTy hP, fieldValuesReadable_everyTy hP hfs]

end

private theorem VarDecl.Readable.everyTy (hP : ∀ t : Ty, t.Readable → P t = true) {d : VarDecl}
    (h : d.Readable) : d.everyTy P = true := by
  cases h with
  | unset ht _ => simp [VarDecl.everyTy, hP _ ht]
  | set ht _ he => simp [VarDecl.everyTy, hP _ ht, he.everyTy hP]

mutual

private theorem Stmt.Readable.everyTy (hP : ∀ t : Ty, t.Readable → P t = true) :
    ∀ {s : Stmt}, s.Readable → s.everyTy P = true
  | _, .decl hv => by simp [Stmt.everyTy, hv.everyTy hP]
  | _, .assign ht he => by simp [Stmt.everyTy, ht.everyTy hP, he.everyTy hP]
  | _, .print he | _, .expr he => by simp [Stmt.everyTy, he.everyTy hP]
  | _, .ifElse hc hy hn => by
    simp [Stmt.everyTy, hc.everyTy hP, stmtsReadable_everyTy hP hy, stmtsReadable_everyTy hP hn]
  | _, .whileDo hc hb => by simp [Stmt.everyTy, hc.everyTy hP, stmtsReadable_everyTy hP hb]
  | _, .forDo hv hc hs hb => by
    simp [Stmt.everyTy, hv.everyTy hP, hc.everyTy hP, hs.everyTy hP, stmtsReadable_everyTy hP hb]
  | _, .ret => by simp [Stmt.everyTy]
  | _, .retValue he => by simp [Stmt.everyTy, he.everyTy hP]

private theorem stmtsReadable_everyTy (hP : ∀ t : Ty, t.Readable → P t = true) :
    ∀ {ss : List Stmt}, StmtsReadable ss → Stmt.everyTyIn P ss = true
  | _, .nil => rfl
  | _, .cons hs hrest => by simp [Stmt.everyTyIn, hs.everyTy hP, stmtsReadable_everyTy hP hrest]

end

private theorem Decl.Readable.everyTy (hP : ∀ t : Ty, t.Readable → P t = true) {d : Decl}
    (h : d.Readable) : d.everyTy P = true := by
  cases h with
  | @fn _ _ params _ _ _ _ hparams hret hbody =>
    have hps : ∀ p ∈ params, P p.2 = true := fun p hp => hP _ (hparams p hp).2
    simp [Decl.everyTy, FunDecl.everyTy, hP _ hret, stmtsReadable_everyTy hP hbody, List.all_eq_true.mpr hps]
  | type _ ht => simp [Decl.everyTy, hP _ ht]

end

/-- Whatever is said of all types that a text can hold is true of those a decoded program is written with. -/
theorem Program.everyTy_of_parse {entry text : String} {p : Program} (h : Program.parse entry text = .ok p)
    {P : Ty → Bool} (hP : ∀ t : Ty, t.Readable → P t = true) : p.decls.all (Decl.everyTy P) = true := by
  obtain ⟨d, hd, hp⟩ := parse_eq_ok_iff.mp h
  have hall := Program.readable_of_ofDatum (Datum.isWritten_of_parse hd) p hp
  exact List.all_eq_true.mpr fun x hx => (hall x hx).everyTy hP

namespace Program
variable {p : Program} {t : Ty}

/-- The types of a program: those that it is written with, and their parts. -/
inductive HasTy (p : Program) : Ty → Prop
  | written {t : Ty} (h : ∀ P : Ty → Bool, p.decls.all (Decl.everyTy P) = true → P t = true) : HasTy p t
  | elem {t : Ty} (h : HasTy p (.list t)) : HasTy p t
  | field {fs : List (String × Ty)} {n : String} {t : Ty} (h : HasTy p (.record fs)) (hf : (n, t) ∈ fs) : HasTy p t

theorem HasTy.alias {n : String} (h : p.aliases.lookup n = some t) : p.HasTy t :=
  .written fun _ hall => everyTy_alias hall h

theorem HasTy.param {f : FunDecl} {x : String × Ty} (hf : f ∈ p.functions) (hx : x ∈ f.params) : p.HasTy x.2 := by
  refine .written fun P hall => ?_
  have h := everyTy_function hall hf
  simp only [FunDecl.everyTy, Bool.and_eq_true] at h
  exact List.all_eq_true.mp h.1.1 x hx

/-- Every record type that the program is written with names its fields with symbols. -/
def FieldsNamed (p : Program) : Prop := p.decls.all (Decl.everyTy Ty.isNamed) = true

theorem fieldsNamed_of_parse {entry text : String} (h : parse entry text = .ok p) : p.FieldsNamed :=
  everyTy_of_parse h fun _ ht => ht.isNamed

theorem FieldsNamed.hasTy (h : p.FieldsNamed) (ht : p.HasTy t) : t.isNamed = true := by
  induction ht with
  | written ht => exact ht _ h
  | elem _ ih => simpa only [Ty.isNamed] using ih
  | field _ hf ih => exact Ty.isNamed_of_mem (by simpa only [Ty.isNamed] using ih) hf

end Program

end WhileStack.Source
