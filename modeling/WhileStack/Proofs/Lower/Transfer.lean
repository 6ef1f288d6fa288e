import WhileStack.Proofs.Lower.Accepted
import WhileStack.Proofs.Machine.Reclass
import WhileStack.Proofs.Source.Retyped

/-! Lowering under two environments. Where one answers as the other does, once types are replaced, what is lowered under
the other is lowered under the one too, to the same code but for the name of the class. -/
namespace WhileStack.Lower
open Source (Expr Stmt VarDecl Target BinOp UnOp Literal Attr Loc FunDecl Ty)
open Machine (Code Instr Method Signature)

/-- A result of one computation is one of the other, through `g`, where the states are related by `k`. -/
def Carries {σ α β : Type} (I : σ → Prop) (k : σ → σ) (g : α → β) (x : StateT σ (Except Cause) α)
    (y : StateT σ (Except Cause) β) : Prop :=
  ∀ s a s', I s → x s = .ok (a, s') → y (k s) = .ok (g a, k s') ∧ I s'

namespace Carries
variable {σ α β α' β' : Type} {I : σ → Prop} {k : σ → σ} {g : α → β} {g' : α' → β'} {x x' : StateT σ (Except Cause) α}
  {y y' : StateT σ (Except Cause) β} {f : α → StateT σ (Except Cause) α'} {f' : β → StateT σ (Except Cause) β'}

theorem pure {a : α} {b : β} (h : g a = b) : Carries I k g (Pure.pure a) (Pure.pure b) := by
  rintro s a' s' hs hx
  obtain ⟨rfl, rfl⟩ := Partial.pure_eq_ok.mp hx
  exact ⟨Partial.pure_eq_ok.mpr ⟨h.symm, rfl⟩, hs⟩

theorem throw {e : Cause} : Carries I k g (throw e) y := fun _ _ _ _ hx => absurd hx Partial.throw_ne_ok

theorem bind (hx : Carries I k g x y) (hf : ∀ a, Carries I k g' (f a) (f' (g a))) :
    Carries I k g' (x >>= f) (y >>= f') := by
  rintro s b s' hs h
  obtain ⟨a, s₁, ha, hb⟩ := Partial.bind_eq_ok.mp h
  obtain ⟨hy, hs₁⟩ := hx s a s₁ hs ha
  obtain ⟨hy', hs'⟩ := hf a s₁ b s' hs₁ hb
  exact ⟨Partial.bind_eq_ok.mpr ⟨_, _, hy, hy'⟩, hs'⟩

theorem ite {c : Prop} [Decidable c] (hx : c → Carries I k g x y) (hy : ¬ c → Carries I k g x' y') :
    Carries I k g (if c then x else x') (if c then y else y') := by
  split
  · exact hx ‹_›
  · exact hy ‹_›

end Carries

/-- Computations without variables, of which every result is one of the other. -/
abbrev Matches {α β : Type} (g : α → β) (x : Lowering α) (y : Lowering β) : Prop := Carries (fun _ => True) id g x y

theorem Matches.refl {α : Type} (x : Lowering α) : Matches id x x := fun _ _ _ _ h => ⟨h, trivial⟩

/-- Types that have a layout have the same one, once they are replaced. -/
structure LayoutsKept (φ : Ty → Ty) (aliases aliases' : Source.Aliases) : Prop where
  layout : ∀ t m, layout aliases t = .ok m → Lower.layout aliases' (φ t) = .ok m
  valueLayout : ∀ t m, valueLayout aliases t = .ok m → Lower.valueLayout aliases' (φ t) = .ok m

/-- What lowering asks of an environment is answered by another one in the same way. -/
structure Env.Answers (φ : Ty → Ty) (env env' : Env) : Prop where
  layouts : LayoutsKept φ env.aliases env'.aliases
  signatures : ∀ name, env'.signatures.lookup name = env.signatures.lookup name

/-- Names stand for the same slots, and slot 0 is not one of a name. -/
structure View.Answers (φ : Ty → Ty) (v v' : View) : Prop where
  env : v.env.Answers φ v'.env
  names : ∀ name, v'.symbols.lookup? name = v.symbols.lookup? name
  positive : ∀ name l, v.symbols.lookup? name = some l → 0 < l.slot
  static : v'.isStatic = v.isStatic

/-- The code with the name of the class changed. -/
abbrev reclass (a b : String) (c : Code) : Code := c.map (Instr.reclass a b)

def Typed.reclass (a b : String) (x : Typed) : Typed := (Lower.reclass a b x.1, x.2)

section
variable {a b : String} {loc : Loc} {context : Context} {want got t : Machine.Ty} {x y x' y' : Lowering Typed}

private theorem carries_liftLayout {r r' : Except LayoutError Machine.Ty} (h : ∀ m, r = .ok m → r' = .ok m) :
    Matches id (liftLayout r) (liftLayout r') := by
  cases r with
  | error e => exact .throw
  | ok m =>
    rw [h m rfl]
    exact .refl _

private theorem carries_needValue (hx : Matches (Typed.reclass a b) x y) :
    Matches (Typed.reclass a b) (needValue loc x) (needValue loc y) :=
  hx.bind fun _ => .ite (fun _ => .bind (g := id) .throw fun _ => .pure rfl) fun _ => .pure rfl

private theorem carries_needTyped (hx : Matches (Typed.reclass a b) x y) :
    Matches (reclass a b) (needTyped context want loc x) (needTyped context want loc y) :=
  (carries_needValue hx).bind fun _ => (Matches.refl _).bind fun _ => .pure rfl

private theorem carries_compareCode (a b : String) {cond : Machine.Cond} :
    Matches (reclass a b) (compareCode cond) (compareCode cond) :=
  (Matches.refl _).bind fun _ => (Matches.refl _).bind fun _ => .pure rfl

private theorem carries_constCode {l : Literal} : Matches (Typed.reclass a b) (constCode loc l) (constCode loc l) := by
  cases l with
  | int n => exact .ite (fun _ => .pure rfl) fun _ => .throw
  | _ => exact .pure rfl

private theorem carries_binaryCode {op : BinOp} {l₁ l₂ : Loc} (hx : Matches (Typed.reclass a b) x y)
    (hx' : Matches (Typed.reclass a b) x' y') :
    Matches (Typed.reclass a b) (binaryCode loc op x x' l₁ l₂) (binaryCode loc op y y' l₁ l₂) := by
  have hlogic (isOr : Bool) : Matches (reclass a b)
      (shortCircuit isOr (needTyped (.operator op.symbol) .boolean l₁ x) (needTyped (.operator op.symbol) .boolean l₂ x'))
      (shortCircuit isOr (needTyped (.operator op.symbol) .boolean l₁ y) (needTyped (.operator op.symbol) .boolean l₂ y')) :=
    (carries_needTyped hx).bind fun _ => (Matches.refl _).bind fun _ => (Matches.refl _).bind fun _ =>
      (carries_needTyped hx').bind fun _ => .pure (by cases isOr <;> simp [reclass, Instr.reclass])
  have hequality (isNe : Bool) (t : Machine.Ty) : Matches (reclass a b) (equalityCode isNe t) (equalityCode isNe t) :=
    .ite (fun _ => .pure (by cases isNe <;> rfl)) fun _ => carries_compareCode a b
  cases op with
  | and | or => exact (hlogic _).bind fun _ => .pure rfl
  | eq | ne =>
    exact (carries_needValue hx).bind fun _ => (carries_needTyped hx').bind fun _ => (hequality _ _).bind fun _ =>
      .pure (by simp [Typed.reclass, reclass])
  | append =>
    refine (carries_needValue hx).bind ?_
    rintro ⟨_, t⟩
    cases t with
    | string | list =>
      exact (carries_needTyped hx').bind fun _ => .pure (by simp [Typed.reclass, reclass, Instr.reclass])
    | _ => exact .throw
  | lt | le | gt | ge =>
    exact (carries_needTyped hx).bind fun _ => (carries_needTyped hx').bind fun _ => (carries_compareCode a b).bind fun _ =>
      .pure (by simp [Typed.reclass, reclass])
  | add | sub | mul | div | rem =>
    exact (carries_needTyped hx).bind fun _ => (carries_needTyped hx').bind fun _ =>
      .pure (by simp [Typed.reclass, reclass, Instr.reclass])
  | other => exact .throw

private theorem carries_unaryCode {op : UnOp} {l : Loc} (hx : Matches (Typed.reclass a b) x y) :
    Matches (Typed.reclass a b) (unaryCode loc op x l) (unaryCode loc op y l) := by
  cases op with
  | not | neg =>
    exact (carries_needTyped hx).bind fun _ => .pure (by simp [Typed.reclass, reclass, Instr.reclass, notCode])
  | length =>
    refine (carries_needValue hx).bind ?_
    rintro ⟨_, t⟩
    cases t with
    | string | list => exact .pure (by simp [Typed.reclass, reclass, Instr.reclass])
    | _ => exact .throw
  | other => exact .throw

private theorem carries_fieldsCode {given given' : List (String × Loc × Lowering Typed)}
    (hg : List.Forall₂ (fun x y => x.1 = y.1 ∧ x.2.1 = y.2.1 ∧ Matches (Typed.reclass a b) x.2.2 y.2.2) given given')
    (fs : List (String × Machine.Ty)) : Matches (reclass a b) (fieldsCode given loc fs) (fieldsCode given' loc fs) := by
  induction fs with
  | nil => exact .pure rfl
  | cons f fs ih =>
    obtain ⟨n, t⟩ := f
    simp only [fieldsCode]
    rcases lookup_forall₂ (R := fun (x y : Loc × Lowering Typed) => x.1 = y.1 ∧ Matches (Typed.reclass a b) x.2 y.2)
      hg n with ⟨h, -⟩ | ⟨⟨l, x⟩, ⟨l', y⟩, h, h', hl, hxy⟩
    · rw [h]
      exact .throw
    · rw [h, h']
      obtain rfl : l = l' := hl
      exact (carries_needTyped hxy).bind fun _ => ih.bind fun _ => .pure (by simp [reclass])

end

section
variable {φ : Ty → Ty} {v v' : View} {loc : Loc} {context : Context} {got : Machine.Ty} {x y : Lowering Typed} {a : Attr}

/-- Code with the class of one environment in place of that of another. -/
abbrev View.reclass (v v' : View) : Code → Code := Lower.reclass v.env.cls v'.env.cls

abbrev View.retyped (v v' : View) : Typed → Typed := Typed.reclass v.env.cls v'.env.cls

section
variable (hv : v.Answers φ v')
include hv

private theorem carries_layout (t : Ty) :
    Matches id (liftLayout (layout v.env.aliases t)) (liftLayout (layout v'.env.aliases (φ t))) :=
  carries_liftLayout (hv.env.layouts.layout t)

private theorem carries_agree {code code' : Code} (hc : v.reclass v' code = code') :
    Matches (v.retyped v') (agree v a context code got) (agree v' (a.retype φ) context code' got) :=
  (carries_layout hv a.ty).bind fun _ => (Matches.refl _).bind fun _ => .pure (by rw [← hc]; rfl)

/-- What follows a name may use that its slot is not slot 0. -/
private theorem carries_local {name : String} {α β : Type} {g : α → β} {f : Machine.Local → Lowering α}
    {f' : Machine.Local → Lowering β} (h : ∀ l, 0 < l.slot → Matches g (f l) (f' l)) :
    Matches g (findLocal v name loc >>= f) (findLocal v' name loc >>= f') := by
  unfold findLocal
  rw [hv.names]
  cases hl : v.symbols.lookup? name with
  | none => exact fun _ _ _ _ hx => nomatch hx
  | some l =>
    simp only [pure_bind]
    exact h l (hv.positive name l hl)

private theorem carries_castCode {ty ty' : Ty} (hx : Matches (v.retyped v') x y) :
    Matches (v.retyped v') (castCode v a ty x loc) (castCode v' (a.retype φ) ty' y loc) := by
  refine (carries_needValue hx).bind ?_
  rintro ⟨_, s⟩
  refine (carries_liftLayout (hv.env.layouts.valueLayout a.ty)).bind fun target => ?_
  simp only [id]
  cases castKind? s target with
  | none => exact .throw
  | some k => cases k <;> exact .pure (by simp [Typed.reclass, reclass, Instr.reclass])

private theorem carries_callee {f : String} {n : Nat} : Matches id (callee v f n loc) (callee v' f n loc) := by
  unfold callee
  rw [hv.env.signatures]
  exact .refl _

private theorem carries_indexCode {s : Typed} (hx : Matches (v.retyped v') x y) :
    Matches (v.retyped v') (indexCode v a s x loc) (indexCode v' (a.retype φ) (v.retyped v' s) y loc) :=
  (Matches.refl _).bind fun _ => (carries_needTyped hx).bind fun _ =>
    carries_agree hv (by simp [Typed.reclass, reclass, Instr.reclass])

private theorem carries_accessCode {s : Typed} {name : String} :
    Matches (v.retyped v') (accessCode v a s name) (accessCode v' (a.retype φ) (v.retyped v' s) name) :=
  (Matches.refl _).bind fun _ => carries_agree hv (by simp [Typed.reclass, reclass, Instr.reclass])

private theorem carries_receiverCode : receiverCode v' = (receiverCode v).reclass v.env.cls v'.env.cls := by
  simp only [receiverCode, hv.static, Env.receiver]
  split <;> simp [Instr.reclass]

end

mutual

private theorem carries_exprCode (hv : v.Answers φ v') :
    ∀ e, Matches (v.retyped v') (exprCode v e) (exprCode v' (e.retype φ))
  | .const a l => carries_constCode.bind fun _ => carries_agree hv rfl
  | .var a name => carries_local hv fun l hl => carries_agree hv (by
      simp only [List.map_cons, Instr.reclass_load hl]
      split <;> rfl)
  | .binary a op lhs rhs => by
    simp only [Expr.retype, exprCode, Expr.loc_retype]
    exact (carries_binaryCode (carries_exprCode hv lhs) (carries_exprCode hv rhs)).bind fun _ => carries_agree hv rfl
  | .unary a op e => by
    simp only [Expr.retype, exprCode, Expr.loc_retype]
    exact (carries_unaryCode (carries_exprCode hv e)).bind fun _ => carries_agree hv rfl
  | .cast a e => by
    simp only [Expr.retype, exprCode, Expr.loc_retype]
    exact carries_castCode hv (carries_exprCode hv e)
  | .call a f args => by
    simp only [Expr.retype, exprCode, Expr.length_retypeAll]
    exact (carries_callee hv).bind fun _ => (carries_argsCode hv args).bind fun _ =>
      carries_agree hv (by simp [carries_receiverCode hv, Instr.reclass])
  | .index a source position => by
    simp only [Expr.retype, exprCode, Expr.loc_retype]
    exact (carries_needValue (carries_exprCode hv source)).bind fun _ =>
      carries_indexCode hv (carries_exprCode hv position)
  | .list a elems => by
    simp only [Expr.retype, exprCode, Expr.length_retypeAll]
    refine (carries_layout hv a.ty).bind fun t => ?_
    cases t with
    | list => exact (carries_argsCode hv elems).bind fun _ => .pure (by simp [Typed.reclass, reclass, Instr.reclass])
    | _ => exact .throw
  | .record a fields => by
    simp only [Expr.retype, exprCode, Expr.names_retypeFields]
    refine (carries_layout hv a.ty).bind fun t => ?_
    cases t with
    | record fs =>
      exact (Matches.refl _).bind fun _ => (carries_fieldsCode (carries_fieldValues hv fields) fs).bind fun _ =>
        .pure (by simp [Typed.reclass, reclass, Instr.reclass])
    | _ => exact .throw
  | .field a source name => by
    simp only [Expr.retype, exprCode, Expr.loc_retype]
    exact (carries_needValue (carries_exprCode hv source)).bind fun _ => carries_accessCode hv

private theorem carries_argsCode (hv : v.Answers φ v') {context : Context} : ∀ es {ts},
    Matches (v.reclass v') (argsCode v context ts es) (argsCode v' context ts (Expr.retypeAll φ es))
  | [], ts => by cases ts <;> exact .pure rfl
  | e :: es, [] => .pure rfl
  | e :: es, t :: ts => by
    simp only [Expr.retypeAll, argsCode, Expr.loc_retype]
    exact (carries_needTyped (carries_exprCode hv e)).bind fun _ => (carries_argsCode hv es).bind fun _ =>
      .pure (by simp [reclass])

private theorem carries_fieldValues (hv : v.Answers φ v') : ∀ fields,
    List.Forall₂ (fun x y => x.1 = y.1 ∧ x.2.1 = y.2.1 ∧ Matches (v.retyped v') x.2.2 y.2.2)
      (fieldValues v fields) (fieldValues v' (Expr.retypeFields φ fields))
  | [] => .nil
  | (_, e) :: rest => .cons ⟨rfl, (Expr.loc_retype φ e).symm, carries_exprCode hv e⟩ (carries_fieldValues hv rest)

end

private theorem carries_targetCode (hv : v.Answers φ v') : ∀ e,
    Matches (v.retyped v') (targetCode v e) (targetCode v' (e.retype φ))
  | .var a name => carries_local hv fun l hl => carries_agree hv (by
      simp only [List.map_cons, Instr.reclass_load hl, List.map_nil])
  | .index a source position => by
    simp only [Expr.retype, targetCode, Expr.loc_retype]
    exact (carries_targetCode hv source).bind fun _ => carries_indexCode hv (carries_exprCode hv position)
  | .field a source name => by
    simp only [Expr.retype, targetCode]
    exact (carries_targetCode hv source).bind fun _ => carries_accessCode hv
  | .const a l => carries_needValue (carries_exprCode hv (.const a l))
  | .binary a op x y => carries_needValue (carries_exprCode hv (.binary a op x y))
  | .unary a op x => carries_needValue (carries_exprCode hv (.unary a op x))
  | .cast a x => carries_needValue (carries_exprCode hv (.cast a x))
  | .call a f es => carries_needValue (carries_exprCode hv (.call a f es))
  | .list a es => carries_needValue (carries_exprCode hv (.list a es))
  | .record a fs => carries_needValue (carries_exprCode hv (.record a fs))

end

/-! ### Statements -/

namespace Symbols

/-- The symbols under the name of another class. -/
def reclass (a b : String) (s : Symbols) : Symbols := { s with allocated := s.allocated.map (Machine.Local.reclass a b) }

@[simp] theorem size_reclass (a b : String) (s : Symbols) : (s.reclass a b).size = s.size := List.length_map _

@[simp] theorem locals_reclass (a b : String) (s : Symbols) :
    (s.reclass a b).locals = s.locals.map (Machine.Local.reclass a b) := (List.map_reverse ..).symm

theorem exit_reclass (a b : String) (s : Symbols) : (s.reclass a b).exit = s.exit.reclass a b := by
  obtain ⟨inner, outer, allocated⟩ := s
  cases outer <;> rfl

/-- A slot that is not the first one is given out alike. -/
theorem declare_reclass {a b name : String} {ty : Machine.Ty} {s s' : Symbols} {l : Machine.Local} (hs : 0 < s.size)
    (h : s.declare name ty = .ok (l, s')) : (s.reclass a b).declare name ty = .ok (l, s'.reclass a b) := by
  obtain ⟨hv, rfl, rfl⟩ := declare_eq_ok h
  have hl : Machine.Local.reclass a b ⟨name, s.allocated.length, ty⟩ = ⟨name, s.allocated.length, ty⟩ :=
    if_neg (Nat.ne_of_gt hs)
  simp [declare, reserve, Machine.Ty.width, hv, bind, Except.bind, reclass, hl, size]

end Symbols

def State.reclass (a b : String) (s : State) : State := { s with symbols := s.symbols.reclass a b }

section
variable {φ : Ty → Ty} {h h' : Host} {loc : Loc}

/-- Results that do not depend on the class, but for the code. -/
abbrev Host.Carries {α β : Type} (h h' : Host) (g : α → β) (x : StmtLowering α) (y : StmtLowering β) : Prop :=
  Lower.Carries (fun s => s.symbols.Valid) (State.reclass h.env.cls h'.env.cls) g x y

/-- Hosts of one function in two environments. -/
structure Host.Answers (φ : Ty → Ty) (h h' : Host) : Prop where
  env : h.env.Answers φ h'.env
  function : h'.function = h.function
  sig : h'.sig = h.sig

abbrev Host.reclass (h h' : Host) : Code → Code := Lower.reclass h.env.cls h'.env.cls

variable (hh : h.Answers φ h')
include hh

private theorem carries_withView {α β : Type} {g : α → β} {f : View → Lowering α} {f' : View → Lowering β}
    (hf : ∀ s s', (h.view s).Answers φ (h'.view s') → Matches g (f (h.view s)) (f' (h'.view s'))) :
    h.Carries h' g (withView h f) (withView h' f') := by
  intro s x s' hs hx
  unfold withView at hx ⊢
  obtain ⟨⟨x, labels⟩, hy, hx⟩ := Partial.then_eq_ok.mp hx
  cases hx
  have hv : (h.view s.symbols).Answers φ (h'.view (s.symbols.reclass h.env.cls h'.env.cls)) :=
    ⟨hh.env, fun _ => rfl, fun _ _ hl => (hs.bound _ (Symbols.mem_of_lookup? hl)).1, by rw [Host.view, hh.sig]⟩
  obtain ⟨hy', -⟩ := hf _ _ hv s.labels x labels trivial hy
  exact ⟨Partial.then_eq_ok.mpr ⟨_, hy', rfl⟩, hs⟩

private theorem carries_newLabel : h.Carries h' id (withView h fun _ => newLabel) (withView h' fun _ => newLabel) :=
  carries_withView hh fun _ _ _ => .refl _

private theorem carries_typed {context : Context} {t : Machine.Ty} {e : Expr} :
    h.Carries h' (h.reclass h') (withView h fun v => needTyped context t e.loc (exprCode v e))
      (withView h' fun v => needTyped context t (e.retype φ).loc (exprCode v (e.retype φ))) := by
  rw [Expr.loc_retype]
  exact carries_withView hh fun _ _ hv => carries_needTyped (carries_exprCode hv e)

omit hh in
private theorem carries_declareLocal {name : String} {ty : Machine.Ty} {α β : Type} {g : α → β}
    {f : Machine.Local → StmtLowering α} {f' : Machine.Local → StmtLowering β}
    (hf : ∀ l, 0 < l.slot → h.Carries h' g (f l) (f' l)) :
    h.Carries h' g (declareLocal name ty >>= f) (declareLocal name ty >>= f') := by
  intro s x s' hs hx
  obtain ⟨l, s₁, hl, hx⟩ := Partial.bind_eq_ok.mp hx
  unfold declareLocal at hl
  split at hl
  · rename_i symbols hd
    cases hl
    have hpos : 0 < l.slot := by
      obtain ⟨-, rfl, -⟩ := Symbols.declare_eq_ok hd
      exact hs.reserved
    obtain ⟨hx', hv'⟩ := hf l hpos _ x s' (hs.declare hd) hx
    refine ⟨Partial.bind_eq_ok.mpr ⟨l, _, ?_, hx'⟩, hv'⟩
    simp only [declareLocal, State.reclass, Symbols.declare_reclass hs.reserved hd]
  · cases hl

omit hh in
theorem carries_inScope {body body' : StmtLowering Code} (hb : h.Carries h' (h.reclass h') body body') :
    h.Carries h' (h.reclass h') (inScope body) (inScope body') := by
  have henter : h.Carries h' id (modify fun s => { s with symbols := s.symbols.enter })
      (modify fun s => { s with symbols := s.symbols.enter }) := by
    rintro s _ _ hs ⟨⟩
    exact ⟨rfl, hs.enter⟩
  have hexit : h.Carries h' id (modify fun s => { s with symbols := s.symbols.exit })
      (modify fun s => { s with symbols := s.symbols.exit }) := by
    rintro s _ _ hs ⟨⟩
    refine ⟨?_, hs.exit⟩
    show Except.ok _ = Except.ok _
    simp only [State.reclass, Symbols.exit_reclass]
  exact henter.bind fun _ => hb.bind fun _ => hexit.bind fun _ => .pure rfl

private theorem carries_declCode {d : VarDecl} : h.Carries h' (h.reclass h') (declCode h d) (declCode h' (d.retype φ)) := by
  refine (carries_withView hh fun _ _ hv => carries_liftLayout (hv.env.layouts.valueLayout d.ty)).bind fun t => ?_
  obtain ⟨loc, ty, name, init⟩ := d
  cases init with
  | none => exact carries_declareLocal fun l _ => .pure rfl
  | some e => exact (carries_typed hh).bind fun _ => carries_declareLocal fun l _ => .pure (by simp [Instr.reclass])

omit hh in
private theorem carries_assignCode {v v' : View} {target : Target} {value : Expr} (hv : v.Answers φ v') :
    Matches (v.reclass v') (assignCode v loc target value) (assignCode v' loc (target.retype φ) (value.retype φ)) := by
  unfold assignCode
  rw [Expr.loc_retype]
  refine (carries_needValue (carries_exprCode hv value)).bind fun _ => ?_
  cases target with
  | var =>
    exact carries_local hv fun _ _ => (Matches.refl _).bind fun _ => .pure (by simp [Instr.reclass])
  | index _ source position =>
    simp only [Target.retype, Expr.loc_retype]
    exact (carries_targetCode hv source).bind fun _ => (Matches.refl _).bind fun _ =>
      (carries_needTyped (carries_exprCode hv position)).bind fun _ => (Matches.refl _).bind fun _ =>
        .pure (by simp [Typed.reclass, Instr.reclass])
  | field _ source =>
    exact (carries_targetCode hv source).bind fun _ => (Matches.refl _).bind fun _ => (Matches.refl _).bind fun _ =>
      .pure (by simp [Instr.reclass])

private theorem carries_returnCode {v v' : View} {value : Option Expr} (hv : v.Answers φ v') :
    Matches (v.reclass v') (returnCode h loc value v) (returnCode h' loc (value.map (Expr.retype φ)) v') := by
  cases value with
  | none =>
    simp only [Option.map_none, returnCode, hh.sig]
    exact (Matches.refl _).bind fun _ => .pure rfl
  | some e =>
    simp only [Option.map_some, returnCode, hh.sig, Expr.loc_retype]
    have hret : Matches (v.reclass v')
        (do let c ← needTyped .result h.sig.ret e.loc (exprCode v e); return c ++ [.ret h.sig.ret])
        (do let c ← needTyped .result h.sig.ret e.loc (exprCode v' (e.retype φ)); return c ++ [.ret h.sig.ret]) :=
      (carries_needTyped (carries_exprCode hv e)).bind fun _ => .pure (by simp [Instr.reclass])
    exact .ite (fun _ => .bind (g := id) .throw fun _ => hret) fun _ => hret

private theorem carries_loopCode {cond : Expr} {body step body' step' : StmtLowering Code}
    (hb : h.Carries h' (h.reclass h') body body') (hs : h.Carries h' (h.reclass h') step step') :
    h.Carries h' (h.reclass h') (loopCode h cond body step) (loopCode h' (cond.retype φ) body' step') :=
  (carries_newLabel hh).bind fun _ => (carries_newLabel hh).bind fun _ => (carries_typed hh).bind fun _ =>
    hb.bind fun _ => hs.bind fun _ => .pure (by simp [Instr.reclass])

end

section
variable {φ : Ty → Ty} {h h' : Host}

mutual

private theorem carries_stmtCode (hh : h.Answers φ h') : ∀ s : Stmt,
    h.Carries h' (h.reclass h') (stmtCode h s) (stmtCode h' (s.retype φ))
  | .decl _ => by
    simp only [Stmt.retype, stmtCode]
    exact carries_declCode hh
  | .assign _ _ _ => by
    simp only [Stmt.retype, stmtCode]
    exact carries_withView hh fun _ _ hv => carries_assignCode hv
  | .print _ e => by
    simp only [Stmt.retype, stmtCode]
    exact carries_withView hh fun _ _ hv => (carries_exprCode hv e).bind fun _ =>
      .ite (fun _ => .bind (g := id) .throw fun _ => .pure (by simp [Instr.reclass]))
        fun _ => .pure (by simp [Instr.reclass])
  | .ret _ _ => by
    simp only [Stmt.retype, stmtCode]
    exact carries_withView hh fun _ _ hv => carries_returnCode hh hv
  | .expr _ e => by
    simp only [Stmt.retype, stmtCode]
    refine carries_withView hh fun _ _ hv => (carries_exprCode hv e).bind ?_
    rintro ⟨_, t⟩
    cases t <;> exact .pure (by simp [Instr.reclass, Machine.Ty.isVoid])
  | .ifElse _ _ yes no => by
    simp only [Stmt.retype, stmtCode, Stmt.allReturn_retypeAll]
    refine (carries_typed hh).bind fun _ => (carries_newLabel hh).bind fun _ => (carries_newLabel hh).bind fun _ =>
      (carries_inScope (carries_blockCode hh yes)).bind fun _ =>
        (carries_inScope (carries_blockCode hh no)).bind fun _ => .pure ?_
    cases Stmt.allReturn yes <;> simp [Instr.reclass]
  | .whileDo _ _ body => by
    simp only [Stmt.retype, stmtCode]
    exact carries_loopCode hh (carries_inScope (carries_blockCode hh body)) (.pure rfl)
  | .forDo _ _ _ step body => by
    simp only [Stmt.retype, stmtCode]
    exact carries_inScope <| (carries_declCode hh).bind fun _ =>
      (carries_loopCode hh (carries_inScope (carries_blockCode hh body)) (carries_stmtCode hh step)).bind fun _ =>
        .pure (by simp)

theorem carries_blockCode (hh : h.Answers φ h') : ∀ ss : List Stmt,
    h.Carries h' (h.reclass h') (blockCode h ss) (blockCode h' (Stmt.retypeAll φ ss))
  | [] => .pure rfl
  | s :: rest => by
    simp only [Stmt.retypeAll, blockCode]
    exact (carries_stmtCode hh s).bind fun _ => (carries_blockCode hh rest).bind fun _ => .pure (by simp)

end

end

end WhileStack.Lower
