import WhileStack.Proofs.Lower.Compiled
import WhileStack.Proofs.Source.Occurs

/-! The machine type of the value that an expression denotes: it follows from the declarations of variables and
functions and from the operators, and from a type attribute only where the expression makes a value of that type. -/
namespace WhileStack.Lower
open Source (Expr Stmt BinOp UnOp Names Literal)

/-- The machine type of a constant. -/
def literalTy : Literal → Machine.Ty
  | .bool _ => .boolean
  | .int _ => .int
  | .string _ => .string

mutual

inductive Denotes (p : Source.Program) (names : Names) : Expr → Machine.Ty → Prop
  | const {a l} : Denotes p names (.const a l) (literalTy l)
  /-- A variable has the type of its slot. -/
  | var {a name ty t} (hd : names.lookup name = some ty) (ht : valueLayout p.aliases ty = .ok t) :
    Denotes p names (.var a name) t
  | logic {a op lhs rhs} (ho : op ∈ [BinOp.and, .or]) (hl : Denotes p names lhs .boolean)
    (hr : Denotes p names rhs .boolean) : Denotes p names (.binary a op lhs rhs) .boolean
  | equality {a op lhs rhs t} (ho : op ∈ [BinOp.eq, .ne]) (hl : Denotes p names lhs t) (hr : Denotes p names rhs t) :
    Denotes p names (.binary a op lhs rhs) .boolean
  | order {a op lhs rhs} (ho : op ∈ [BinOp.lt, .le, .gt, .ge]) (hl : Denotes p names lhs .int)
    (hr : Denotes p names rhs .int) : Denotes p names (.binary a op lhs rhs) .boolean
  | arith {a op lhs rhs} (ho : op ∈ [BinOp.add, .sub, .mul, .div, .rem]) (hl : Denotes p names lhs .int)
    (hr : Denotes p names rhs .int) : Denotes p names (.binary a op lhs rhs) .int
  | append {a lhs rhs t} (ht : t = .string ∨ ∃ e, t = .list e) (hl : Denotes p names lhs t) (hr : Denotes p names rhs t) :
    Denotes p names (.binary a .append lhs rhs) t
  | not {a e} (h : Denotes p names e .boolean) : Denotes p names (.unary a .not e) .boolean
  | neg {a e} (h : Denotes p names e .int) : Denotes p names (.unary a .neg e) .int
  | length {a e t} (ht : t = .string ∨ ∃ u, t = .list u) (h : Denotes p names e t) :
    Denotes p names (.unary a .length e) .int
  /-- A cast makes a value of its attribute. -/
  | cast {a e s t} (h : Denotes p names e s) (ht : valueLayout p.aliases a.ty = .ok t)
    (hk : (castKind? s t).isSome = true) : Denotes p names (.cast a e) t
  /-- A call gives the return type that is declared. -/
  | call {a f args g types t} (hf : p.function? f = some g)
    (hp : List.Forall₂ (fun x u => valueLayout p.aliases x.2 = .ok u) g.params types)
    (hargs : DenoteAll p names args types) (ht : layout p.aliases g.ret = .ok t) : Denotes p names (.call a f args) t
  | index {a source position t} (hs : Denotes p names source (.list t)) (hp : Denotes p names position .int) :
    Denotes p names (.index a source position) t
  /-- A list makes a value of its attribute. -/
  | list {a elems t} (ht : layout p.aliases a.ty = .ok (.list t))
    (hes : DenoteAll p names elems (List.replicate elems.length t)) : Denotes p names (.list a elems) (.list t)
  /-- A record makes a value of its attribute. -/
  | record {a fields fs elems} (ht : layout p.aliases a.ty = .ok (.record fs))
    (hf : List.Forall₂ (fun f e => fields.lookup f.1 = some e) fs elems)
    (hes : DenoteAll p names elems (fs.map Prod.snd)) : Denotes p names (.record a fields) (.record fs)
  | field {a source name fs t} (hs : Denotes p names source (.record fs)) (ht : fs.lookup name = some t) :
    Denotes p names (.field a source name) t

inductive DenoteAll (p : Source.Program) (names : Names) : List Expr → List Machine.Ty → Prop
  | nil : DenoteAll p names [] []
  | cons {e es t ts} (h : Denotes p names e t) (hs : DenoteAll p names es ts) : DenoteAll p names (e :: es) (t :: ts)

end

/-- An expression denotes values of one type. -/
theorem Denotes.unique {p : Source.Program} {names : Names} : ∀ {e : Expr} {t u : Machine.Ty}, Denotes p names e t →
    Denotes p names e u → t = u
  | _, _, _, .const, h' => by cases h'; rfl
  | _, _, _, .var hd ht, h' => by
    cases h' with
    | var hd' ht' =>
      cases hd.symm.trans hd'
      cases ht.symm.trans ht'
      rfl
  | _, _, _, .logic ho .., h' | _, _, _, .equality ho .., h' | _, _, _, .order ho .., h' | _, _, _, .arith ho .., h' => by
    -- no operator stands under two rules with different results
    cases h' <;> first | rfl | grind
  | _, _, _, .append _ hl _, h' => by
    cases h' with
    | append _ hl' _ => exact hl.unique hl'
    | _ => simp_all
  | _, _, _, .not _, h' | _, _, _, .neg _, h' | _, _, _, .length .., h' => by cases h'; rfl
  | _, _, _, .cast _ ht _, h' => by
    cases h' with
    | cast _ ht' _ =>
      cases ht.symm.trans ht'
      rfl
  | _, _, _, .call hf _ _ ht, h' => by
    cases h' with
    | call hf' _ _ ht' =>
      cases hf.symm.trans hf'
      cases ht.symm.trans ht'
      rfl
  | _, _, _, .index hs _, h' => by
    cases h' with
    | index hs' _ =>
      cases hs.unique hs'
      rfl
  | _, _, _, .list ht _, h' => by
    cases h' with
    | list ht' _ =>
      cases ht.symm.trans ht'
      rfl
  | _, _, _, .record ht _ _, h' => by
    cases h' with
    | record ht' _ _ =>
      cases ht.symm.trans ht'
      rfl
  | _, _, _, .field hs ht, h' => by
    cases h' with
    | field hs' ht' =>
      cases hs.unique hs'
      cases ht.symm.trans ht'
      rfl

/-- What lowering sees of a program from where some variables can be seen. -/
structure Sees (p : Source.Program) (names : Names) (v : View) : Prop where
  aliases_eq : v.env.aliases = p.aliases
  callee : ∀ f sig, v.env.signatures.lookup f = some sig →
    ∃ g, p.function? f = some g ∧ signatureOf v.env g = .ok sig
  slots : List.Forall₂ (fun x b => x.1 = b.1 ∧ valueLayout p.aliases x.2 = .ok b.2.ty) names v.symbols.visible

section
variable {p : Source.Program} {names : Names}

theorem Sees.found {v : View} (hv : Sees p names v) {name : String} {l : Machine.Local}
    (hl : v.symbols.lookup? name = some l) : ∃ ty, names.lookup name = some ty ∧ valueLayout p.aliases ty = .ok l.ty := by
  rw [Symbols.lookup?_eq] at hl
  have hs := lookup_forall₂ (R := fun ty (l : Machine.Local) => valueLayout p.aliases ty = .ok l.ty) hv.slots name
  rcases hs with ⟨-, hnone⟩ | ⟨ty, l', hty, hl', ht⟩
  · cases hnone.symm.trans hl
  · cases hl'.symm.trans hl
    exact ⟨ty, hty, ht⟩

mutual

/-- The type that lowering derives is the one that the expression denotes. -/
theorem LowersExpr.denotes {v n e c t n'} (hv : Sees p names v) : LowersExpr v n e c t n' → Denotes p names e t
  | .const hk _ => by cases hk <;> exact .const
  | .var hl _ => by
    obtain ⟨ty, hd, ht⟩ := hv.found hl
    exact .var hd ht
  | @LowersExpr.logic _ _ _ _ _ op _ _ _ _ _ ho hl hr _ => by
    refine .logic ?_ (hl.denotes hv) (hr.denotes hv)
    cases op <;> simp [logicOf] at ho ⊢
  | @LowersExpr.equality _ _ _ _ _ _ op _ _ _ _ _ _ _ ho hl _ hr _ _ => by
    refine .equality ?_ (hl.denotes hv) (hr.denotes hv)
    cases op <;> simp [equalityOf] at ho ⊢
  | .append ht hl hr _ => .append ht (hl.denotes hv) (hr.denotes hv)
  | @LowersExpr.arith _ _ _ _ _ op _ _ _ _ _ ho hl hr _ => by
    refine .arith ?_ (hl.denotes hv) (hr.denotes hv)
    cases op <;> simp [arithOf] at ho ⊢
  | @LowersExpr.order _ _ _ _ _ op _ _ _ _ _ ho hl hr _ => by
    refine .order ?_ (hl.denotes hv) (hr.denotes hv)
    cases op <;> simp [orderOf] at ho ⊢
  | .not h _ => .not (h.denotes hv)
  | .neg h _ => .neg (h.denotes hv)
  | .length ht h _ => .length ht (h.denotes hv)
  | .keep h _ ha => .cast (h.denotes hv) (hv.aliases_eq ▸ ha) (by simp [castKind?])
  | .convert h _ ha hk => .cast (h.denotes hv) (hv.aliases_eq ▸ ha) (by rw [hk]; rfl)
  | @LowersExpr.call _ _ _ a f args _ sig hs hst ha _ => by
    obtain ⟨g, hg, hsig⟩ := hv.callee f sig hs
    obtain ⟨types, htypes, hret, hparams, hentry, -⟩ := signatureOf_eq_ok hsig
    rw [hv.aliases_eq] at htypes hret
    rw [← hentry, hst] at hparams
    have hargs := ha.denote hv
    rw [hparams] at hargs
    exact .call hg htypes hargs hret
  | .index hs hp _ => .index (hs.denotes hv) (hp.denotes hv)
  | .list ha hes => .list (hv.aliases_eq ▸ ha) (hes.denote hv)
  | .record ha hf hes => .record (hv.aliases_eq ▸ ha) hf (hes.denote hv)
  | .field hs hf _ => .field (hs.denotes hv) (Machine.Ty.lookup_of_findField hf)

theorem LowersArgs.denote {v n ts es c n'} (hv : Sees p names v) : LowersArgs v n ts es c n' → DenoteAll p names es ts
  | .nil => .nil
  | .cons h _ ha => .cons (h.denotes hv) (ha.denote hv)

end

theorem LowersTarget.denotes {v : View} {n n' : Nat} {e : Expr} {c : Machine.Code} {t : Machine.Ty} (hv : Sees p names v)
    (h : LowersTarget v n e c t n') : Denotes p names e t := by
  induction h with
  | var hl _ =>
    obtain ⟨ty, hd, ht⟩ := hv.found hl
    exact .var hd ht
  | index _ hp _ ih => exact .index ih (hp.denotes hv)
  | field _ hf _ ih => exact .field ih (Machine.Ty.lookup_of_findField hf)
  | value _ he _ => exact he.denotes hv

end

end WhileStack.Lower
