import WhileStack.Proofs.Exec
import WhileStack.Proofs.Lower.Cast
import WhileStack.Proofs.Lower.Derivation

/-! Lowering succeeds only along a derivation. -/
namespace WhileStack.Lower
open Source (Expr Stmt VarDecl Target BinOp UnOp Literal Attr Loc)
open Machine (Code Instr Dest)
open Partial

variable {v : View} {n n' : Nat} {c code : Code} {t got want : Machine.Ty}

section
variable {context : Context} {loc : Loc} {x : Lowering Typed}

theorem newLabel_eq_ok {l : Machine.Label} : newLabel n = .ok (l, n') ↔ l = label n 1 ∧ n' = n + 1 := by
  simp [newLabel, label, modifyGet, MonadStateOf.modifyGet, StateT.modifyGet, pure, Except.pure, eq_comm]

theorem liftLayout_eq_ok {α : Type} {r : Except LayoutError α} {a : α} :
    liftLayout r n = .ok (a, n') ↔ r = .ok a ∧ n = n' := by
  cases r <;> simp [liftLayout, pure_eq_ok, throw_ne_ok]

theorem expect_eq_ok {u : Unit} : expect context want got loc n = .ok (u, n') ↔ want = got ∧ n = n' := by
  unfold expect
  split <;> simp_all [pure_eq_ok, throw_ne_ok]

theorem needValue_eq_ok : needValue loc x n = .ok ((c, t), n') ↔ x n = .ok ((c, t), n') ∧ t.isVoid = false := by
  simp only [needValue, bind_eq_ok]
  constructor
  · rintro ⟨⟨c', t'⟩, n₁, hx, h⟩
    dsimp only at h
    split at h
    · cases h
    · simp only [pure_eq_ok, Prod.mk.injEq] at h
      grind
  · rintro ⟨hx, ht⟩
    exact ⟨(c, t), n', hx, by simp [ht, pure_eq_ok]⟩

theorem needTyped_eq_ok :
    needTyped context want loc x n = .ok (c, n') ↔ x n = .ok ((c, want), n') ∧ want.isVoid = false := by
  simp only [needTyped, bind_eq_ok, Prod.exists, needValue_eq_ok, expect_eq_ok, pure_eq_ok]
  grind

theorem agree_eq_ok {a : Attr} : agree v a context code got n = .ok ((c, t), n') ↔
    layout v.env.aliases a.ty = .ok t ∧ got = t ∧ code = c ∧ n = n' := by
  simp only [agree, bind_eq_ok, liftLayout_eq_ok, expect_eq_ok, pure_eq_ok, Prod.mk.injEq]
  grind

theorem findLocal_eq_ok {name : String} {l : Machine.Local} :
    findLocal v name loc n = .ok (l, n') ↔ v.symbols.lookup? name = some l ∧ n = n' := by
  unfold findLocal
  cases v.symbols.lookup? name <;> simp [pure_eq_ok, throw_ne_ok]

theorem elemOf_eq_ok {e : Machine.Ty} : elemOf t loc n = .ok (e, n') ↔ t = .list e ∧ n = n' := by
  cases t <;> simp [elemOf, pure_eq_ok, throw_ne_ok]

theorem fieldOf_eq_ok {name : String} {k : Nat} {u : Machine.Ty} (h : fieldOf t name loc n = .ok ((k, u), n')) :
    ∃ fs, t = .record fs ∧ Machine.Ty.findField name 0 fs = some (k, u) ∧ n = n' := by
  cases t with
  | record fs =>
    cases hf : (Machine.Ty.record fs).field? name with
    | none => simp [fieldOf, hf, throw_ne_ok] at h
    | some f =>
      simp only [fieldOf, hf, pure_eq_ok] at h
      exact ⟨fs, rfl, h.1 ▸ hf, h.2⟩
  | _ => simp [fieldOf, throw_ne_ok] at h

private theorem compareCode_eq_ok {cond : Machine.Cond} :
    compareCode cond n = .ok (c, n') ↔ c = compareChunk cond n ∧ n' = n + 2 := by
  simp only [compareCode, bind_eq_ok, newLabel_eq_ok, pure_eq_ok, compareChunk]
  grind [label_succ]

end

/-- Lowering an expression succeeds only along a derivation. -/
private def Inverts (v : View) (x : Lowering Typed) (e : Expr) : Prop :=
  ∀ {n c t n'}, x n = .ok ((c, t), n') → LowersExpr v n e c t n'

section
variable {a : Attr} {loc l₁ l₂ : Loc} {x y : Lowering Typed} {e₁ e₂ : Expr}

private theorem lowersConst {l : Literal} (h : constCode loc l n = .ok ((c, t), n')) :
    ∃ k, c = [.ldc k] ∧ n' = n ∧ LowersConst l k t := by
  cases l with
  | bool b =>
    simp only [constCode, pure_eq_ok, Prod.mk.injEq] at h
    obtain ⟨⟨rfl, rfl⟩, rfl⟩ := h
    exact ⟨_, rfl, rfl, .bool⟩
  | int k =>
    by_cases hk : -0x80000000 ≤ k ∧ k < 0x80000000
    · simp only [constCode, if_pos hk, pure_eq_ok, Prod.mk.injEq] at h
      obtain ⟨⟨rfl, rfl⟩, rfl⟩ := h
      exact ⟨_, rfl, rfl, .int hk.1 hk.2⟩
    · simp only [constCode, if_neg hk, throw_ne_ok] at h
  | string s =>
    simp only [constCode, pure_eq_ok, Prod.mk.injEq] at h
    obtain ⟨⟨rfl, rfl⟩, rfl⟩ := h
    exact ⟨_, rfl, rfl, .string⟩

private theorem lowersEquality {isNe : Bool} (h : equalityCode isNe t n = .ok (c, n')) :
    LowersEquality isNe t n c n' := by
  unfold equalityCode at h
  split at h
  · rename_i ht
    simp only [pure_eq_ok] at h
    obtain ⟨rfl, rfl⟩ := h
    exact .structural ht
  · rename_i ht
    obtain ⟨rfl, rfl⟩ := compareCode_eq_ok.mp h
    exact .numeric (by simpa using ht)

private theorem lowersLogic {op : BinOp} {isOr : Bool} {context : Context} (ho : logicOf op = some isOr)
    (hx : Inverts v x e₁) (hy : Inverts v y e₂) (ha : layout v.env.aliases a.ty = .ok .boolean)
    (h : shortCircuit isOr (needTyped context .boolean l₁ x) (needTyped context .boolean l₂ y) n = .ok (c, n')) :
    LowersExpr v n (.binary a op e₁ e₂) c .boolean n' := by
  simp only [shortCircuit, bind_eq_ok, needTyped_eq_ok, newLabel_eq_ok, pure_eq_ok] at h
  obtain ⟨l, n₁, ⟨hl, -⟩, _, _, ⟨rfl, rfl⟩, _, _, ⟨rfl, rfl⟩, r, n₂, ⟨hr, -⟩, rfl, rfl⟩ := h
  exact .logic ho (hx hl) (hy hr) ha

private theorem lowersBinary {op : BinOp} (hx : Inverts v x e₁) (hy : Inverts v y e₂)
    (h : binaryCode loc op x y l₁ l₂ n = .ok ((c, t), n')) (ha : layout v.env.aliases a.ty = .ok t) :
    LowersExpr v n (.binary a op e₁ e₂) c t n' := by
  cases op with
  | and =>
    simp only [binaryCode, bind_eq_ok, pure_eq_ok, Prod.mk.injEq] at h
    obtain ⟨c, n', h, ⟨rfl, rfl⟩, rfl⟩ := h
    exact lowersLogic rfl hx hy ha h
  | or =>
    simp only [binaryCode, bind_eq_ok, pure_eq_ok, Prod.mk.injEq] at h
    obtain ⟨c, n', h, ⟨rfl, rfl⟩, rfl⟩ := h
    exact lowersLogic rfl hx hy ha h
  | append =>
    simp only [binaryCode, bind_eq_ok, needValue_eq_ok, Prod.exists] at h
    obtain ⟨l, u, n₁, ⟨hl, hv⟩, h⟩ := h
    cases u with
    | string =>
      simp only [bind_eq_ok, needTyped_eq_ok, pure_eq_ok, Prod.mk.injEq] at h
      obtain ⟨r, n₂, ⟨hr, -⟩, ⟨rfl, rfl⟩, rfl⟩ := h
      exact .append (.inl rfl) (hx hl) (hy hr) ha
    | list u =>
      simp only [bind_eq_ok, needTyped_eq_ok, pure_eq_ok, Prod.mk.injEq] at h
      obtain ⟨r, n₂, ⟨hr, -⟩, ⟨rfl, rfl⟩, rfl⟩ := h
      exact .append (.inr ⟨u, rfl⟩) (hx hl) (hy hr) ha
    | _ => cases h
  | eq =>
    simp only [binaryCode, bind_eq_ok, needValue_eq_ok, needTyped_eq_ok, pure_eq_ok, Prod.exists, Prod.mk.injEq] at h
    obtain ⟨l, u, n₁, ⟨hl, hv⟩, r, n₂, ⟨hr, -⟩, k, n₃, hk, ⟨rfl, rfl⟩, rfl⟩ := h
    exact .equality rfl (hx hl) hv (hy hr) (lowersEquality hk) ha
  | ne =>
    simp only [binaryCode, bind_eq_ok, needValue_eq_ok, needTyped_eq_ok, pure_eq_ok, Prod.exists, Prod.mk.injEq] at h
    obtain ⟨l, u, n₁, ⟨hl, hv⟩, r, n₂, ⟨hr, -⟩, k, n₃, hk, ⟨rfl, rfl⟩, rfl⟩ := h
    exact .equality rfl (hx hl) hv (hy hr) (lowersEquality hk) ha
  | lt | le | gt | ge =>
    simp only [binaryCode, arithOf, orderOf, bind_eq_ok, needTyped_eq_ok, compareCode_eq_ok, pure_eq_ok, Prod.mk.injEq] at h
    obtain ⟨l, n₁, ⟨hl, -⟩, r, n₂, ⟨hr, -⟩, _, _, ⟨rfl, rfl⟩, ⟨rfl, rfl⟩, rfl⟩ := h
    exact .order rfl (hx hl) (hy hr) ha
  | add | sub | mul | div | rem =>
    simp only [binaryCode, arithOf, orderOf, bind_eq_ok, needTyped_eq_ok, pure_eq_ok, Prod.mk.injEq] at h
    obtain ⟨l, n₁, ⟨hl, -⟩, r, n₂, ⟨hr, -⟩, ⟨rfl, rfl⟩, rfl⟩ := h
    exact .arith rfl (hx hl) (hy hr) ha
  | other => cases h

private theorem lowersUnary {op : UnOp} (hx : Inverts v x e₁) (h : unaryCode loc op x l₁ n = .ok ((c, t), n'))
    (ha : layout v.env.aliases a.ty = .ok t) : LowersExpr v n (.unary a op e₁) c t n' := by
  cases op with
  | not =>
    simp only [unaryCode, bind_eq_ok, needTyped_eq_ok, pure_eq_ok, Prod.mk.injEq] at h
    obtain ⟨c, n', ⟨hc, -⟩, ⟨rfl, rfl⟩, rfl⟩ := h
    exact .not (hx hc) ha
  | neg =>
    simp only [unaryCode, bind_eq_ok, needTyped_eq_ok, pure_eq_ok, Prod.mk.injEq] at h
    obtain ⟨c, n', ⟨hc, -⟩, ⟨rfl, rfl⟩, rfl⟩ := h
    exact .neg (hx hc) ha
  | length =>
    simp only [unaryCode, bind_eq_ok, needValue_eq_ok, Prod.exists] at h
    obtain ⟨c, u, n', ⟨hc, -⟩, h⟩ := h
    cases u with
    | string =>
      simp only [pure_eq_ok, Prod.mk.injEq] at h
      obtain ⟨⟨rfl, rfl⟩, rfl⟩ := h
      exact .length (.inl rfl) (hx hc) ha
    | list u =>
      simp only [pure_eq_ok, Prod.mk.injEq] at h
      obtain ⟨⟨rfl, rfl⟩, rfl⟩ := h
      exact .length (.inr ⟨u, rfl⟩) (hx hc) ha
    | _ => cases h
  | other => cases h

private theorem lowersCast (hx : Inverts v x e₁) (h : castCode v a e₁.ty x l₁ n = .ok ((c, t), n')) :
    LowersExpr v n (.cast a e₁) c t n' := by
  simp only [castCode, bind_eq_ok, needValue_eq_ok, liftLayout_eq_ok, Prod.exists] at h
  obtain ⟨c, s, n', ⟨hc, hv⟩, target, _, ⟨ht, rfl⟩, h⟩ := h
  cases hk : castKind? s target with
  | none => simp only [hk] at h; cases h
  | some k => cases k with
    | identity =>
      simp only [hk, pure_eq_ok, Prod.mk.injEq] at h
      obtain ⟨⟨rfl, rfl⟩, rfl⟩ := h
      cases castKind?_identity.mp hk
      exact .keep (hx hc) hv ht
    | convert =>
      simp only [hk, pure_eq_ok, Prod.mk.injEq] at h
      obtain ⟨⟨rfl, rfl⟩, rfl⟩ := h
      exact .convert (hx hc) hv ht hk

theorem callee_eq_ok {f : String} {given : Nat} {sig : Machine.Signature}
    (h : callee v f given loc n = .ok (sig, n')) :
    v.env.signatures.lookup f = some sig ∧ sig.isStatic = false ∧ given = sig.params.length ∧ n = n' := by
  unfold callee at h
  cases hs : v.env.signatures.lookup f with
  | none => simp only [hs] at h; cases h
  | some sig' =>
    simp only [hs] at h
    split at h
    · cases h
    · split at h
      · cases h
      · simp only [pure_eq_ok] at h
        obtain ⟨rfl, rfl⟩ := h
        simp_all

private theorem checkFieldNames_eq_ok {u : Unit} {seen names : List String}
    (h : checkFieldNames t loc seen names n = .ok (u, n')) : n = n' := by
  induction names generalizing seen with
  | nil => exact (pure_eq_ok.mp h).2
  | cons m names ih =>
    unfold checkFieldNames at h
    split at h
    · cases h
    · split at h
      · cases h
      · exact ih h

/-- The values of a record are lowered in the order of its layout. -/
private theorem lowersFields {fields : List (String × Expr)} {fs : List (String × Machine.Ty)}
    (hf : ∀ {name loc y}, (fieldValues v fields).lookup name = some (loc, y) →
      ∃ e, fields.lookup name = some e ∧ Inverts v y e)
    (h : fieldsCode (fieldValues v fields) loc fs n = .ok (c, n')) :
    ∃ elems, List.Forall₂ (fun f e => fields.lookup f.1 = some e) fs elems ∧
      LowersArgs v n (fs.map Prod.snd) elems c n' := by
  induction fs generalizing n c n' with
  | nil =>
    simp only [fieldsCode, pure_eq_ok] at h
    obtain ⟨rfl, rfl⟩ := h
    exact ⟨[], .nil, .nil⟩
  | cons f fs ih =>
    obtain ⟨name, t⟩ := f
    cases hl : (fieldValues v fields).lookup name with
    | none => simp only [fieldsCode, hl] at h; cases h
    | some y =>
      obtain ⟨e, he, hi⟩ := hf hl
      simp only [fieldsCode, hl, bind_eq_ok, needTyped_eq_ok, pure_eq_ok] at h
      obtain ⟨c₁, n₁, ⟨hc, hv⟩, cs, n₂, hcs, rfl, rfl⟩ := h
      obtain ⟨elems, hes, ha⟩ := ih hcs
      exact ⟨e :: elems, .cons he hes, .cons (hi hc) hv ha⟩

end

mutual

theorem lowersExpr : ∀ (e : Expr) {n c t n'}, exprCode v e n = .ok ((c, t), n') → LowersExpr v n e c t n'
  | .const a l, n, c, t, n', h => by
    simp only [exprCode, bind_eq_ok, agree_eq_ok, Prod.exists] at h
    obtain ⟨c', t', n₁, hc, ha, rfl, rfl, rfl⟩ := h
    obtain ⟨k, rfl, rfl, hk⟩ := lowersConst hc
    exact .const hk ha
  | .var a name, n, c, t, n', h => by
    simp only [exprCode, bind_eq_ok, findLocal_eq_ok, agree_eq_ok] at h
    obtain ⟨l, _, ⟨hl, rfl⟩, ha, rfl, rfl, rfl⟩ := h
    exact .var hl ha
  | .binary a op lhs rhs, n, c, t, n', h => by
    simp only [exprCode, bind_eq_ok, agree_eq_ok, Prod.exists] at h
    obtain ⟨c', t', n₁, hc, ha, rfl, rfl, rfl⟩ := h
    exact lowersBinary (lowersExpr lhs) (lowersExpr rhs) hc ha
  | .unary a op e, n, c, t, n', h => by
    simp only [exprCode, bind_eq_ok, agree_eq_ok, Prod.exists] at h
    obtain ⟨c', t', n₁, hc, ha, rfl, rfl, rfl⟩ := h
    exact lowersUnary (lowersExpr e) hc ha
  | .cast a e, n, c, t, n', h => lowersCast (lowersExpr e) (by simpa only [exprCode] using h)
  | .call a f args, n, c, t, n', h => by
    simp only [exprCode, bind_eq_ok, agree_eq_ok] at h
    obtain ⟨sig, n₁, hsig, cs, n₂, hcs, ha, rfl, rfl, rfl⟩ := h
    obtain ⟨hs, hst, hl, rfl⟩ := callee_eq_ok hsig
    exact .call hs hst (lowersArgs args hl.symm hcs) ha
  | .index a source position, n, c, t, n', h => by
    simp only [exprCode, indexCode, bind_eq_ok, needValue_eq_ok, elemOf_eq_ok, needTyped_eq_ok, agree_eq_ok,
      Prod.exists] at h
    obtain ⟨s, u, n₁, ⟨hs, -⟩, elem, _, ⟨rfl, rfl⟩, p, n₂, ⟨hp, -⟩, ha, rfl, rfl, rfl⟩ := h
    exact .index (lowersExpr source hs) (lowersExpr position hp) ha
  | .list a elems, n, c, t, n', h => by
    simp only [exprCode, bind_eq_ok, liftLayout_eq_ok] at h
    obtain ⟨u, _, ⟨ht, rfl⟩, h⟩ := h
    cases u with
    | list u =>
      simp only [bind_eq_ok, pure_eq_ok, Prod.mk.injEq] at h
      obtain ⟨cs, n₁, hcs, ⟨rfl, rfl⟩, rfl⟩ := h
      exact .list ht (lowersArgs elems (by simp) hcs)
    | _ => cases h
  | .record a fields, n, c, t, n', h => by
    simp only [exprCode, bind_eq_ok, liftLayout_eq_ok] at h
    obtain ⟨u, _, ⟨ht, rfl⟩, h⟩ := h
    cases u with
    | record fs =>
      simp only [bind_eq_ok, pure_eq_ok, Prod.mk.injEq] at h
      obtain ⟨_, n₁, hn, cs, n₂, hcs, ⟨rfl, rfl⟩, rfl⟩ := h
      obtain rfl := checkFieldNames_eq_ok hn
      obtain ⟨elems, hes, has⟩ := lowersFields (lowersFieldValue fields) hcs
      exact .record ht hes has
    | _ => cases h
  | .field a source name, n, c, t, n', h => by
    simp only [exprCode, accessCode, bind_eq_ok, needValue_eq_ok, agree_eq_ok, Prod.exists] at h
    obtain ⟨s, u, n₁, ⟨hs, -⟩, k, t', n₂, hf, ha, rfl, rfl, rfl⟩ := h
    obtain ⟨fs, rfl, hk, rfl⟩ := fieldOf_eq_ok hf
    exact .field (lowersExpr source hs) hk ha

theorem lowersArgs : ∀ (es : List Expr) {context ts n c n'}, ts.length = es.length →
    argsCode v context ts es n = .ok (c, n') → LowersArgs v n ts es c n'
  | [], context, ts, n, c, n', hl, h => by
    obtain rfl := List.length_eq_zero_iff.mp hl
    simp only [argsCode, pure_eq_ok] at h
    obtain ⟨rfl, rfl⟩ := h
    exact .nil
  | e :: es, context, ts, n, c, n', hl, h => by
    obtain ⟨t, ts, rfl⟩ := List.exists_cons_of_length_eq_add_one hl
    simp only [argsCode, bind_eq_ok, needTyped_eq_ok, pure_eq_ok] at h
    obtain ⟨c₁, n₁, ⟨hc, hv⟩, cs, n₂, hcs, rfl, rfl⟩ := h
    exact .cons (lowersExpr e hc) hv (lowersArgs es (by simpa using hl) hcs)

theorem lowersFieldValue : ∀ (fields : List (String × Expr)) {name loc y},
    (fieldValues v fields).lookup name = some (loc, y) → ∃ e, fields.lookup name = some e ∧ Inverts v y e
  | [], name, loc, y, h => by simp [fieldValues] at h
  | (m, e) :: rest, name, loc, y, h => by
    simp only [fieldValues, List.lookup_cons] at h ⊢
    split at h
    · cases h
      exact ⟨e, rfl, lowersExpr e⟩
    · exact lowersFieldValue rest h

end

theorem lowersTarget : ∀ (e : Expr) {n c t n'}, targetCode v e n = .ok ((c, t), n') → LowersTarget v n e c t n'
  | .var a name, n, c, t, n', h => by
    simp only [targetCode, bind_eq_ok, findLocal_eq_ok, agree_eq_ok] at h
    obtain ⟨l, _, ⟨hl, rfl⟩, ha, rfl, rfl, rfl⟩ := h
    exact .var hl ha
  | .index a source position, n, c, t, n', h => by
    simp only [targetCode, indexCode, bind_eq_ok, elemOf_eq_ok, needTyped_eq_ok, agree_eq_ok, Prod.exists] at h
    obtain ⟨s, u, n₁, hs, elem, _, ⟨rfl, rfl⟩, p, n₂, ⟨hp, -⟩, ha, rfl, rfl, rfl⟩ := h
    exact .index (lowersTarget source hs) (lowersExpr position hp) ha
  | .field a source name, n, c, t, n', h => by
    simp only [targetCode, accessCode, bind_eq_ok, agree_eq_ok, Prod.exists] at h
    obtain ⟨s, u, n₁, hs, k, t', n₂, hf, ha, rfl, rfl, rfl⟩ := h
    obtain ⟨fs, rfl, hk, rfl⟩ := fieldOf_eq_ok hf
    exact .field (lowersTarget source hs) hk ha
  | .const a l, n, c, t, n', h | .binary a o x y, n, c, t, n', h | .unary a o x, n, c, t, n', h | .cast a x, n, c, t, n', h
  | .call a f es, n, c, t, n', h | .list a es, n, c, t, n', h | .record a fs, n, c, t, n', h => by
    simp only [targetCode, needValue_eq_ok] at h
    exact .value rfl (lowersExpr _ h.1) h.2

section
variable {h : Host} {s s' : State} {stmt : Stmt} {loc : Loc}

theorem withView_eq_ok {α : Type} {f : View → Lowering α} {a : α} :
    withView h f s = .ok (a, s') ↔ ∃ n, f (h.view s.symbols) s.labels = .ok (a, n) ∧ s' = ⟨n, s.symbols⟩ := by
  unfold withView
  rcases hf : (f (h.view s.symbols)).run s.labels with e | ⟨b, n⟩ <;>
    simp_all [bind, Except.bind, pure, Except.pure, StateT.run]
  grind

theorem declareLocal_eq_ok {name : String} {l : Machine.Local} :
    declareLocal name t s = .ok (l, s') ↔ ∃ sy, s.symbols.declare name t = .ok (l, sy) ∧ s' = ⟨s.labels, sy⟩ := by
  unfold declareLocal
  rcases s.symbols.declare name t with e | ⟨m, sy⟩ <;> simp
  grind

theorem inScope_eq_ok {α : Type} {body : StmtLowering α} {a : α} :
    inScope body s = .ok (a, s') ↔
      ∃ s₁, body ⟨s.labels, s.symbols.enter⟩ = .ok (a, s₁) ∧ s' = ⟨s₁.labels, s₁.symbols.exit⟩ := by
  unfold inScope
  simp only [bind_eq_ok, pure_eq_ok]
  simp [modify, modifyGet, MonadStateOf.modifyGet, StateT.modifyGet, pure, Except.pure]
  grind

theorem lowersDecl {d : VarDecl} (hd : declCode h d s = .ok (c, s')) : LowersDecl h s d c s' := by
  simp only [declCode, bind_eq_ok, withView_eq_ok, liftLayout_eq_ok] at hd
  obtain ⟨t, _, ⟨_, ⟨ht, rfl⟩, rfl⟩, hd⟩ := hd
  cases hi : d.init with
  | none =>
    simp only [hi, bind_eq_ok, declareLocal_eq_ok, pure_eq_ok] at hd
    obtain ⟨l, _, ⟨sy, hl, rfl⟩, rfl, rfl⟩ := hd
    exact .unset hi ht hl
  | some e =>
    simp only [hi, bind_eq_ok, withView_eq_ok, needTyped_eq_ok, declareLocal_eq_ok, pure_eq_ok] at hd
    obtain ⟨c, _, ⟨n, ⟨hc, hv⟩, rfl⟩, l, _, ⟨sy, hl, rfl⟩, rfl, rfl⟩ := hd
    exact .init hi ht (lowersExpr e hc) hv hl

private theorem lowersAssign {target : Target} {value : Expr} (ha : assignCode v loc target value n = .ok (c, n')) :
    LowersAssign v n value target c n' := by
  simp only [assignCode, bind_eq_ok, needValue_eq_ok, Prod.exists] at ha
  obtain ⟨c, t, n₁, ⟨hc, hv⟩, ha⟩ := ha
  have hc := lowersExpr value hc
  cases target with
  | var a name =>
    simp only [bind_eq_ok, findLocal_eq_ok, expect_eq_ok, pure_eq_ok] at ha
    obtain ⟨l, _, ⟨hl, rfl⟩, -, _, ⟨rfl, rfl⟩, rfl, rfl⟩ := ha
    exact .var hc hv hl
  | index a source position =>
    simp only [bind_eq_ok, elemOf_eq_ok, needTyped_eq_ok, expect_eq_ok, pure_eq_ok, Prod.exists] at ha
    obtain ⟨s, u, n₂, hs, elem, _, ⟨rfl, rfl⟩, p, n₃, ⟨hp, -⟩, -, _, ⟨rfl, rfl⟩, rfl, rfl⟩ := ha
    exact .index hc hv (lowersTarget source hs) (lowersExpr position hp)
  | field a source name =>
    simp only [bind_eq_ok, expect_eq_ok, pure_eq_ok, Prod.exists] at ha
    obtain ⟨s, u, n₂, hs, k, w, n₃, hf, -, _, ⟨rfl, rfl⟩, rfl, rfl⟩ := ha
    obtain ⟨fs, rfl, hk, rfl⟩ := fieldOf_eq_ok hf
    exact .field hc hv (lowersTarget source hs) hk

theorem loopCode_eq_ok {cond : Expr} {body step : StmtLowering Code}
    (hl : loopCode h cond body step s = .ok (c, s')) :
    ∃ cc n b s₁ u, exprCode (h.view s.symbols) cond (s.labels + 2) = .ok ((cc, .boolean), n) ∧
      body ⟨n, s.symbols⟩ = .ok (b, s₁) ∧ step s₁ = .ok (u, s') ∧ c = loopChunk s.labels cc b u := by
  simp only [loopCode, bind_eq_ok, withView_eq_ok, newLabel_eq_ok, needTyped_eq_ok, pure_eq_ok] at hl
  obtain ⟨_, _, ⟨_, ⟨rfl, rfl⟩, rfl⟩, _, _, ⟨_, ⟨rfl, rfl⟩, rfl⟩, cc, _, ⟨n, ⟨hc, -⟩, rfl⟩, b, s₁, hb, u, s₂, hu,
    rfl, rfl⟩ := hl
  exact ⟨cc, n, b, s₁, u, hc, hb, hu, rfl⟩

theorem ifElse_eq_ok {cond : Expr} {yes no : List Stmt} (hs : stmtCode h (.ifElse loc cond yes no) s = .ok (c, s')) :
    ∃ cc n y s₁ z s₂, exprCode (h.view s.symbols) cond s.labels = .ok ((cc, .boolean), n) ∧
      blockCode h yes ⟨n + 2, s.symbols.enter⟩ = .ok (y, s₁) ∧
      blockCode h no ⟨s₁.labels, s₁.symbols.exit.enter⟩ = .ok (z, s₂) ∧
      c = ifChunk n cc y (Stmt.allReturn yes) z ∧ s' = ⟨s₂.labels, s₂.symbols.exit⟩ := by
  simp only [stmtCode, bind_eq_ok, withView_eq_ok, newLabel_eq_ok, needTyped_eq_ok, inScope_eq_ok, pure_eq_ok] at hs
  obtain ⟨cc, _, ⟨n, ⟨hc, -⟩, rfl⟩, _, _, ⟨_, ⟨rfl, rfl⟩, rfl⟩, _, _, ⟨_, ⟨rfl, rfl⟩, rfl⟩, y, _, ⟨s₁, hy, rfl⟩, z, _,
    ⟨s₂, hz, rfl⟩, rfl, rfl⟩ := hs
  exact ⟨cc, n, y, s₁, z, s₂, hc, hy, hz, rfl, rfl⟩

theorem forDo_eq_ok {init : VarDecl} {cond : Expr} {step : Stmt} {body : List Stmt}
    (hs : stmtCode h (.forDo loc init cond step body) s = .ok (c, s')) :
    ∃ i s₁ l s₂, declCode h init ⟨s.labels, s.symbols.enter⟩ = .ok (i, s₁) ∧
      loopCode h cond (inScope (blockCode h body)) (stmtCode h step) s₁ = .ok (l, s₂) ∧ c = i ++ l ∧
      s' = ⟨s₂.labels, s₂.symbols.exit⟩ := by
  simp only [stmtCode, inScope_eq_ok, bind_eq_ok, pure_eq_ok] at hs
  obtain ⟨_, ⟨i, s₁, hi, l, s₂, hl, rfl, rfl⟩, rfl⟩ := hs
  exact ⟨i, s₁, l, s₂, hi, hl, rfl, rfl⟩

theorem blockCode_cons_eq_ok {rest : List Stmt} (hs : blockCode h (stmt :: rest) s = .ok (c, s')) :
    ∃ c₁ s₁ c₂, stmtCode h stmt s = .ok (c₁, s₁) ∧ blockCode h rest s₁ = .ok (c₂, s') ∧ c = c₁ ++ c₂ := by
  simp only [blockCode, bind_eq_ok, pure_eq_ok] at hs
  obtain ⟨c₁, s₁, hc, c₂, s₂, hcs, rfl, rfl⟩ := hs
  exact ⟨c₁, s₁, c₂, hc, hcs, rfl⟩

end

mutual

theorem lowersStmt {h : Host} : ∀ (stmt : Stmt) {s c s'}, stmtCode h stmt s = .ok (c, s') → LowersStmt h s stmt c s'
  | .decl d, s, c, s', hs => .decl (lowersDecl (by simpa only [stmtCode] using hs))
  | .assign loc target value, s, c, s', hs => by
    simp only [stmtCode, withView_eq_ok] at hs
    obtain ⟨n, ha, rfl⟩ := hs
    exact .assign (lowersAssign ha)
  | .print loc value, s, c, s', hs => by
    simp only [stmtCode, printCode, withView_eq_ok, bind_eq_ok, Prod.exists] at hs
    obtain ⟨n, ⟨c, t, n₁, hc, hs⟩, rfl⟩ := hs
    cases ht : t.isVoid with
    | true => simp only [ht] at hs; cases hs
    | false =>
      simp only [ht, Bool.false_eq_true, if_false, pure_eq_ok] at hs
      obtain ⟨rfl, rfl⟩ := hs
      exact .print (lowersExpr value hc) ht
  | .ret loc none, s, c, s', hs => by
    simp only [stmtCode, returnCode, withView_eq_ok, bind_eq_ok, expect_eq_ok, pure_eq_ok] at hs
    obtain ⟨n, ⟨-, _, ⟨hv, rfl⟩, rfl, rfl⟩, rfl⟩ := hs
    exact .leave hv
  | .ret loc (some value), s, c, s', hs => by
    simp only [stmtCode, returnCode, withView_eq_ok] at hs
    obtain ⟨n, hs, rfl⟩ := hs
    cases ht : h.sig.ret.isVoid with
    | true => simp only [ht] at hs; cases hs
    | false =>
      simp only [ht, Bool.false_eq_true, if_false, bind_eq_ok, pure_eq_ok, needTyped_eq_ok] at hs
      obtain ⟨c, n, ⟨hc, -⟩, rfl, rfl⟩ := hs
      exact .ret (lowersExpr value hc) ht
  | .expr loc value, s, c, s', hs => by
    simp only [stmtCode, effectCode, withView_eq_ok, bind_eq_ok, pure_eq_ok, Prod.exists] at hs
    obtain ⟨n, ⟨c, t, n₁, hc, rfl, rfl⟩, rfl⟩ := hs
    exact .effect (lowersExpr value hc)
  | .ifElse loc cond yes no, s, c, s', hs => by
    obtain ⟨cc, n, y, s₁, z, s₂, hc, hy, hz, rfl, rfl⟩ := ifElse_eq_ok hs
    exact .ifElse (lowersExpr cond hc) (lowersBlock yes hy) (lowersBlock no hz)
  | .whileDo loc cond body, s, c, s', hs => by
    obtain ⟨cc, n, b, s₁, u, hc, hb, hu, rfl⟩ := loopCode_eq_ok (by simpa only [stmtCode] using hs)
    obtain ⟨s₂, hbody, rfl⟩ := inScope_eq_ok.mp hb
    obtain ⟨rfl, rfl⟩ := pure_eq_ok.mp hu
    exact .whileDo (lowersExpr cond hc) (lowersBlock body hbody)
  | .forDo loc init cond step body, s, c, s', hs => by
    obtain ⟨i, s₁, l, s₂, hi, hl, rfl, rfl⟩ := forDo_eq_ok hs
    obtain ⟨cc, n, b, s₃, u, hc, hb, hu, rfl⟩ := loopCode_eq_ok hl
    obtain ⟨s₄, hbody, rfl⟩ := inScope_eq_ok.mp hb
    exact .forDo (lowersDecl hi) (lowersExpr cond hc) (lowersBlock body hbody) (lowersStmt step hu)

theorem lowersBlock {h : Host} : ∀ (stmts : List Stmt) {s c s'}, blockCode h stmts s = .ok (c, s') →
    LowersBlock h s stmts c s'
  | [], s, c, s', hs => by
    simp only [blockCode, pure_eq_ok] at hs
    obtain ⟨rfl, rfl⟩ := hs
    exact .nil
  | stmt :: rest, s, c, s', hs => by
    obtain ⟨c₁, s₁, c₂, hc, hcs, rfl⟩ := blockCode_cons_eq_ok hs
    exact .cons (lowersStmt stmt hc) (lowersBlock rest hcs)

end

/-- The code of a function is that of its body in a scope of its own, and what closes it. -/
theorem bodyCode_eq_ok {env : Env} {f : Source.FunDecl} {sig : Machine.Signature} {symbols : Symbols}
    (h : bodyCode env f sig = .ok (c, symbols)) :
    ∃ s₀ b s, initialSymbols env f sig = .ok s₀ ∧ blockCode ⟨env, f.name, sig⟩ f.body ⟨0, s₀.enter⟩ = .ok (b, s) ∧
      c = b ++ closing f sig ∧ symbols = s.symbols.exit := by
  unfold bodyCode at h
  rcases hs : initialSymbols env f sig with e | s₀
  · simp [hs, bind, Except.bind] at h
  · rcases hb : (inScope (blockCode ⟨env, f.name, sig⟩ f.body)).run ⟨0, s₀⟩ with e | ⟨b, s'⟩
    · simp [hs, hb, bind, Except.bind] at h
    · simp only [hs, hb, bind, Except.bind, Except.ok.injEq, Prod.mk.injEq] at h
      obtain ⟨rfl, rfl⟩ := h
      obtain ⟨s, hbody, rfl⟩ := inScope_eq_ok.mp hb
      exact ⟨s₀, b, s, rfl, hbody, rfl, rfl⟩

end WhileStack.Lower
