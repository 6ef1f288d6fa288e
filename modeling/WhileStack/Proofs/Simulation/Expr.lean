import WhileStack.Proofs.Lower.Chunks
import WhileStack.Proofs.Simulation.Meets
import WhileStack.Proofs.Simulation.Scope

/-! The code of an expression leaves the value of the expression on the stack, whatever the stack holds already. -/
namespace WhileStack.Simulation
open Source (Expr FunDecl BinOp)
open Machine (Program Instr Code Dest Ty realCount retarget placed_cons placed_append placed_mark realCount_append)
open Lower (LowersExpr LowersArgs LowersConst LowersEquality compareChunk logicChunk logicBranch label)
open OnTrees (State Step Operand Act Jump Fails calculate)
open OnTrees.Operand (own)
open Reference (evalExpr evalArgs needInt needBool binaryTree unaryTree)

/-- The machine follows the calls of compiled functions, from activations with the given number of callers. -/
def Calls (p : Program) (rounds depth : Nat) (env : Lower.Env) (program : Source.Program)
    (call : FunDecl → List Tree → Reference.Exec Tree) : Prop :=
  ∀ f sig, env.signatures.lookup f = some sig → sig.isStatic = false →
    ∃ callee, program.function? f = some callee ∧
      ∀ (site : Site) (args : List Tree) (id : Nat) (cls o : String) (k : Nat) (L : List Tree) (S : List Operand) (n : Nat),
        site.callers.length = depth → site.method.code[n]? = some (.call sig) → List.Forall₂ HasTy args sig.params →
          Meets p rounds (site.state o k L (((.leaf (.object id cls) :: args).map own).reverse ++ S) n)
            (call callee args o) (Yields site L S (n + 1) sig.ret)

/-- What the code of an expression relies on. -/
structure Ready (p : Program) (rounds : Nat) (site : Site) (v : Lower.View) (w : Reference.View) (L : List Tree) :
    Prop where
  reading_eq : w.reading = .lowered
  aliases_eq : w.program.aliases = v.env.aliases
  function_eq : w.function = site.method.name
  valid : v.symbols.Valid
  scopes : Scoped L v.symbols w.scopes
  receiver : v.isStatic = false → ∃ id cls, L[0]? = some (.leaf (.object id cls))
  calls : Calls p rounds site.callers.length v.env w.program w.call

section
variable {p : Program} {rounds n m pc k : Nat} {s : State} {site : Site} {L : List Tree} {S : List Operand} {o : String}
  {e : Expr} {eval : Reference.Exec Tree} {v : Lower.View} {w : Reference.View} {c : Code}

theorem needInt_meets (h : Meets p rounds s (eval o) (Yields site L S n .int)) :
    Meets p rounds s (needInt w e eval o) fun i o t => ∃ k, t = site.state o k L (own (.leaf (.int i)) :: S) n := by
  refine h.bind ?_
  rintro x o t ⟨hx, k, ht⟩
  cases hx
  exact .ok ⟨k, ht⟩

theorem needBool_meets (h : Meets p rounds s (eval o) (Yields site L S n .boolean)) :
    Meets p rounds s (needBool w e eval o) fun b o t => ∃ k, t = site.state o k L (own (.leaf (.bool b)) :: S) n := by
  refine h.bind ?_
  rintro x o t ⟨hx, k, ht⟩
  cases hx
  exact .ok ⟨k, ht⟩

private theorem const_meets {l : Source.Literal} {i : Machine.Const} {t : Ty} (h : LowersConst l i t)
    (hp : site.Has pc [.ldc i]) :
    Meets p rounds (site.state o k L S pc) (.ok (Reference.literalTree l) o) (Yields site L S (pc + 1) t) := by
  cases h with
  | bool => exact site.act hp.1 (.ldc rfl) (.ok ⟨.boolean, k, rfl⟩)
  | int => exact site.act hp.1 (.ldc rfl) (.ok ⟨.int, k, rfl⟩)
  | string => exact site.act hp.1 (.ldc rfl) (.ok ⟨.string, k, rfl⟩)

private theorem var_meets {a : Source.Attr} {name : String} {l : Machine.Local} (r : Ready p rounds site v w L)
    (hl : v.symbols.lookup? name = some l)
    (hp : site.Has pc (.load l.slot l.ty :: if l.ty.isComposite then [.clone l.ty] else [])) :
    Meets p rounds (site.state o k L S pc) (evalExpr w (.var a name) o)
      (Yields site L S (pc + realCount (.load l.slot l.ty :: if l.ty.isComposite then [.clone l.ty] else [])) l.ty) := by
  obtain ⟨t, ht, hb⟩ := r.scopes.lookup hl
  have hty := r.valid.value _ (Lower.Symbols.mem_of_lookup? hl)
  obtain ⟨hi, hp⟩ := (placed_cons rfl).mp hp
  rcases hb.typed with rfl | htt
  · have he : evalExpr w (.var a name) o = .error (.fault ⟨.uninitialized, w.function, .variableName name⟩) o := by
      simp [evalExpr, Reference.readVar, ht]
    rw [he]
    exact site.fails hi (.unset hb.slot_eq) ⟨rfl, r.function_eq, fun h => absurd rfl h⟩
  · have hne := htt.ne_null hty
    have he : evalExpr w (.var a name) o = .ok t o := by simp [evalExpr, Reference.readVar_eq ht hne]
    rw [he]
    refine site.act hi (.load hb.slot_eq hne) ?_
    have hnode := htt.isNode_eq
    cases hc : l.ty.isComposite with
    | false =>
      rw [hc] at hnode
      refine .ok ⟨htt, k, ?_⟩
      simp [OnTrees.Operand.found, hnode, pushed_eq hty, realCount]
    | true =>
      rw [hc] at hnode hp
      have hread : (OnTrees.Operand.found l.slot [] t).read L = some t := by
        simp [OnTrees.Operand.found, hnode, OnTrees.Operand.read, hb.slot_eq, Tree.get?]
      refine site.act hp.1 (.clone hread) (.ok ⟨htt, k, ?_⟩)
      simp [pushed_eq hty, realCount]

private theorem compare_meets {cond : Machine.Cond} {a b : Value} {i j : Int32} (ha : Machine.intOf? a = some i)
    (hb : Machine.intOf? b = some j) (hp : site.Has pc (compareChunk cond n)) :
    Meets p rounds (site.state o k L (own (.leaf b) :: own (.leaf a) :: S) pc) (.ok (.leaf (.bool (cond.holds i j))) o)
      (Yields site L S (pc + 4) .boolean) := by
  simp only [compareChunk, placed_cons (i := .ifcmp ..) rfl, placed_cons (i := .ldc _) rfl, placed_cons (i := .goto _) rfl,
    placed_mark, Machine.retarget_ifcmp, Machine.retarget_goto] at hp
  obtain ⟨hcmp, hno, hgoto, h₁, hyes, h₂, -⟩ := hp
  have hj := Jump.ifcmp (c := cond) (d := .toIndex (site.index (label n 1))) (S := S) ha hb
  cases hh : cond.holds i j with
  | true =>
    rw [hh, if_pos rfl] at hj
    refine site.jump hcmp hj ?_
    rw [h₁]
    exact site.act hyes (.ldc rfl) (.ok ⟨.boolean, k, rfl⟩)
  | false =>
    rw [hh, if_neg (by simp)] at hj
    refine site.fall hcmp hj (site.act hno (.ldc rfl) (site.jump hgoto .goto ?_))
    rw [h₂]
    exact .ok ⟨.boolean, k, rfl⟩

private theorem not_meets {b : Bool} (hp : site.Has pc Lower.notCode) :
    Meets p rounds (site.state o k L (own (.leaf (.bool b)) :: S) pc) (.ok (.leaf (.bool !b)) o)
      (Yields site L S (pc + 2) .boolean) :=
  site.act hp.1 (.ldc rfl) (site.act hp.2.1 .not (.ok ⟨.boolean, k, rfl⟩))

private theorem binaryTree_logic {op : BinOp} {isOr : Bool} (h : Lower.logicOf op = some isOr) (lhs rhs : Expr)
    (el er : Reference.Exec Tree) :
    binaryTree w op lhs rhs el er = needBool w lhs el >>= fun b =>
      if b = isOr then pure (.leaf (.bool isOr)) else needBool w rhs er >>= fun c => pure (.leaf (.bool c)) := by
  cases op <;> cases h <;> exact congrArg (needBool w lhs el >>= ·) (funext fun b => by cases b <;> rfl)

private theorem logicBranch_jump (isOr b : Bool) (d : Dest) :
    Jump (logicBranch isOr d) (own (.leaf (.bool b)) :: S) (if b = isOr then some d else none) S := by
  have hb : Machine.intOf? (.bool b) = some (if b then 1 else 0) := rfl
  cases isOr
  · have := Jump.ifeq (d := d) (S := S) hb
    cases b <;> simpa [logicBranch] using this
  · have := Jump.ifne (d := d) (S := S) hb
    cases b <;> simpa [logicBranch] using this

private theorem logic_meets {op : BinOp} {isOr : Bool} {lhs rhs : Expr} {el er : Reference.Exec Tree} {l r : Code}
    (h : Lower.logicOf op = some isOr) (hp : site.Has pc (logicChunk isOr n l r))
    (hl : site.Has pc l → Meets p rounds (site.state o k L S pc) (el o) (Yields site L S (pc + realCount l) .boolean))
    (hr : ∀ o k, site.Has (pc + realCount l + 1) r → Meets p rounds (site.state o k L S (pc + realCount l + 1)) (er o)
      (Yields site L S (pc + realCount l + 1 + realCount r) .boolean)) :
    Meets p rounds (site.state o k L S pc) (binaryTree w op lhs rhs el er o)
      (Yields site L S (pc + realCount (logicChunk isOr n l r)) .boolean) := by
  have hm : (logicBranch isOr (.toLabel (label n 1))).isMark = false := by cases isOr <;> rfl
  have hd : retarget site.index (logicBranch isOr (.toLabel (label n 1))) =
      logicBranch isOr (.toIndex (site.index (label n 1))) := by cases isOr <;> rfl
  simp only [logicChunk, placed_append, placed_cons hm, placed_cons (i := .goto _) rfl, placed_cons (i := .ldc _) rfl,
    placed_mark, realCount_append, Machine.realCount_cons hm, realCount,
    Machine.retarget_goto, Nat.zero_add, ← Nat.add_assoc] at hp ⊢
  obtain ⟨⟨⟨hpl, hbr, -⟩, hpr⟩, hgoto, h₁, hldc, h₂, -⟩ := hp
  rw [hd] at hbr
  rw [binaryTree_logic h]
  refine (needBool_meets (hl hpl)).bind ?_
  rintro b o t ⟨k, ht⟩
  subst ht
  have hj := logicBranch_jump (S := S) isOr b (.toIndex (site.index (label n 1)))
  by_cases hb : b = isOr
  · rw [if_pos hb] at hj ⊢
    refine site.jump hbr hj ?_
    rw [h₁]
    exact site.act hldc (.ldc rfl) (.ok ⟨.boolean, k, rfl⟩)
  · rw [if_neg hb] at hj ⊢
    refine site.fall hbr hj ((needBool_meets (hr o k hpr)).bind ?_)
    rintro c o t ⟨k, ht⟩
    subst ht
    refine site.jump hgoto .goto ?_
    rw [h₂]
    exact .ok ⟨.boolean, k, rfl⟩

private theorem isVoid_of_sequence {t : Ty} (h : t = .string ∨ ∃ e, t = .list e) : t.isVoid = false := by
  obtain rfl | ⟨e, rfl⟩ := h <;> rfl

/-- Two operands of one type, the second on top of the first. -/
private theorem pair_meets {α : Type} {t : Ty} {n₁ n₂ : Nat} {el er : Reference.Exec Tree}
    {f : Tree → Tree → Reference.Exec α} {R : α → String → State → Prop} (ht : t.isVoid = false)
    (hl : Meets p rounds s (el o) (Yields site L S n₁ t))
    (hr : ∀ x o k, Meets p rounds (site.state o k L (own x :: S) n₁) (er o) (Yields site L (own x :: S) n₂ t))
    (hf : ∀ x y o k, HasTy x t → HasTy y t → Meets p rounds (site.state o k L (own y :: own x :: S) n₂) (f x y o) R) :
    Meets p rounds s ((el >>= fun x => er >>= fun y => f x y) o) R := by
  refine hl.bind ?_
  rintro x o u ⟨hx, k, hu⟩
  rw [hu, pushed_eq ht]
  refine (hr x o k).bind ?_
  rintro y o u ⟨hy, k, hu⟩
  rw [hu, pushed_eq ht]
  exact hf x y o k hx hy

private theorem ints_meets {α : Type} {n₁ n₂ : Nat} {lhs rhs : Expr} {el er : Reference.Exec Tree}
    {f : Int32 → Int32 → Reference.Exec α} {R : α → String → State → Prop}
    (hl : Meets p rounds s (el o) (Yields site L S n₁ .int))
    (hr : ∀ x o k, Meets p rounds (site.state o k L (own x :: S) n₁) (er o) (Yields site L (own x :: S) n₂ .int))
    (hf : ∀ i j o k, Meets p rounds (site.state o k L (own (.leaf (.int j)) :: own (.leaf (.int i)) :: S) n₂) (f i j o) R) :
    Meets p rounds s ((needInt w lhs el >>= fun i => needInt w rhs er >>= fun j => f i j) o) R := by
  refine (needInt_meets hl).bind ?_
  rintro i o u ⟨k, hu⟩
  subst hu
  refine (needInt_meets (hr _ o k)).bind ?_
  rintro j o u ⟨k, hu⟩
  subst hu
  exact hf i j o k

private theorem binaryTree_arith {op : BinOp} {f : Machine.Arith} (h : Lower.arithOf op = some f) (lhs rhs : Expr)
    (el er : Reference.Exec Tree) :
    binaryTree w op lhs rhs el er = needInt w lhs el >>= fun i => needInt w rhs er >>= fun j =>
      Reference.intOperation w op i j := by
  cases op <;> cases h <;> rfl

private theorem arith_meets {op : BinOp} {f : Machine.Arith} {i j : Int32} (h : Lower.arithOf op = some f)
    (hw : w.function = site.method.name) (hi : site.method.code[pc]? = some (.arith f)) :
    Meets p rounds (site.state o k L (own (.leaf (.int j)) :: own (.leaf (.int i)) :: S) pc)
      (Reference.intOperation w op i j o) (Yields site L S (pc + 1) .int) := by
  have he : Reference.intOperation w op i j o =
      (Reference.liftFault (calculate w.function f i j) >>= fun r => pure (.leaf (.int r))) o := by
    cases op <;> cases h <;> rfl
  rw [he]
  cases hc : calculate w.function f i j with
  | ok r => exact site.act hi (.arith (hw ▸ hc)) (.ok ⟨.int, k, rfl⟩)
  | error e => exact site.fails hi (.arith (hw ▸ hc)) (.refl e)

private theorem binaryTree_order {op : BinOp} {cond : Machine.Cond} (h : Lower.orderOf op = some cond) (lhs rhs : Expr)
    (el er : Reference.Exec Tree) :
    binaryTree w op lhs rhs el er = needInt w lhs el >>= fun i => needInt w rhs er >>= fun j =>
      pure (.leaf (.bool (cond.holds i j))) := by
  cases op <;> cases h <;> rfl

private theorem binaryTree_equality {op : BinOp} {isNe : Bool} (h : Lower.equalityOf op = some isNe) (lhs rhs : Expr)
    (el er : Reference.Exec Tree) : binaryTree w op lhs rhs el er = el >>= fun x => er >>= fun y =>
      pure (.leaf (.bool (x.equal y != isNe))) := by
  cases op <;> cases h <;> simp [binaryTree]

private theorem equality_meets {isNe : Bool} {t : Ty} {n' : Nat} {x y : Tree} (h : LowersEquality isNe t n c n')
    (ht : t.isVoid = false) (hx : HasTy x t) (hy : HasTy y t) (hp : site.Has pc c) :
    Meets p rounds (site.state o k L (own y :: own x :: S) pc) (.ok (.leaf (.bool (x.equal y != isNe))) o)
      (Yields site L S (pc + realCount c) .boolean) := by
  cases h with
  | structural =>
    cases isNe with
    | false =>
      rw [Bool.bne_false]
      exact site.act hp.1 .equals (.ok ⟨.boolean, k, rfl⟩)
    | true =>
      rw [Bool.bne_true]
      exact site.act hp.1 .equals (not_meets hp.2)
  | numeric hr =>
    obtain ⟨a, b, i, j, rfl, rfl, ha, hb, he⟩ := hx.equal_eq hy ht hr
    rw [he]
    cases isNe with
    | false =>
      rw [Bool.bne_false]
      exact compare_meets ha hb hp
    | true =>
      rw [Bool.bne_true]
      exact compare_meets ha hb hp

/-- A position is checked by the instruction that takes it off the stack. -/
theorem element_meets {α : Type} {ts : List Tree} {position : Expr} {stop : Tag → Eval.Stop} {i : Instr}
    {f : List Tree × Nat → Reference.Exec α} {R : α → String → State → Prop} (hw : w.function = site.method.name)
    (hpos : Meets p rounds s (eval o) (Yields site L S n .int)) (hi : site.method.code[n]? = some i)
    (hfail : ∀ j e o k, elementAt site.method.name ts.length j = .error e →
      Fails site.method.name i ⟨L, own (.leaf (.int j)) :: S, k, o⟩ e)
    (hf : ∀ j m o k, elementAt site.method.name ts.length j = .ok m →
      Meets p rounds (site.state o k L (own (.leaf (.int j)) :: S) n) (f (ts, m) o) R) :
    Meets p rounds s ((Reference.elementOf w (.node .list ts) position eval stop >>= f) o) R := by
  simp only [Reference.elementOf, Tree.list?_list, bind_assoc, pure_bind]
  refine (needInt_meets hpos).bind ?_
  rintro j o u ⟨k, hu⟩
  subst hu
  rw [Exec.bind_apply, hw]
  cases he : elementAt site.method.name ts.length j with
  | ok m => exact hf j m o k he
  | error e => exact site.fails hi (hfail j e o k he) (.refl e)

theorem fieldOf_eq {fs : List (String × Ty)} {ts : List Tree} {name : String} {x : Tree}
    (h : Reference.findField name 0 ((fs.map Prod.fst).zip ts) = some (m, x)) :
    Reference.fieldOf (.node (.record (fs.map Prod.fst)) ts) name = pure (m, x) := by
  simp [Reference.fieldOf, h]

private theorem keep_eq {source target : Source.Ty} {t : Ty} {x : Tree} (hr : w.reading = .lowered)
    (hs : Lower.layout w.program.aliases source = .ok t) (ht : Lower.layout w.program.aliases target = .ok t)
    (hx : HasTy x t) : Reference.castTree w source target x o = .ok x o := by
  obtain ⟨u, hu, hh⟩ := Lower.underlying_of_layout ht
  simp only [Reference.castTree, hu, Reference.liftAlias, pure_bind]
  cases hh with
  | string =>
    cases hx
    rfl
  | @record _ ms hn =>
    cases hx with
    | @record ts _ hall =>
      have hl : ts.length = ms.length := by simpa using hall.length_eq
      have hk : Reference.keeps w source target (ms.map Prod.fst) (.node (.record (ms.map Prod.fst)) ts) = true := by
        simp [Reference.keeps, hr, hs, ht, Reference.hasFields, hl]
      simp [hn, hk]
  | _ => rfl

private theorem convert_meets {source target : Source.Ty} {a t : Ty} {x : Tree}
    (hs : Lower.layout w.program.aliases source = .ok a) (ht : Lower.layout w.program.aliases target = .ok t)
    (hk : Lower.castKind? a t = some .convert) (hx : HasTy x a) (hi : site.method.code[pc]? = some (.convert a t)) :
    Meets p rounds (site.state o k L (own x :: S) pc) (Reference.castTree w source target x o)
      (Yields site L S (pc + 1) t) := by
  obtain ⟨u, hu, hh⟩ := Lower.underlying_of_layout ht
  obtain ⟨hne, hc⟩ := Lower.castKind?_convert.mp hk
  simp only [Reference.castTree, hu, Reference.liftAlias, pure_bind]
  cases hc with
  | int | boolean =>
    cases hh
    exact site.act hi .toText (.ok ⟨.string, k, rfl⟩)
  | @record gs ms hsel =>
    cases hh with
    | record hn =>
      obtain ⟨rs, z, hrs, hz, hty⟩ := hx.project_ok hsel
      have hkeeps : Reference.keeps w source target (ms.map Prod.fst) x = false := by
        simp [Reference.keeps, hs, ht, hne]
      simp only [hrs, hn, hkeeps, hz]
      exact site.act hi (.project hrs hz) (.ok ⟨hty, k, rfl⟩)

/-- The object that a method is called on. -/
private theorem receiver_meets {α : Type} {r : EStateM.Result Eval.Stop String α} {R : α → String → State → Prop}
    (hr : Ready p rounds site v w L) (hi : site.method.code[pc]? = some (Lower.receiverCode v))
    (h : ∀ id cls k, Meets p rounds (site.state o k L (own (.leaf (.object id cls)) :: S) (pc + 1)) r R) :
    Meets p rounds (site.state o k L S pc) r R := by
  unfold Lower.receiverCode at hi
  cases hs : v.isStatic with
  | true =>
    rw [hs, if_pos rfl] at hi
    exact site.act hi .new (h _ _ _)
  | false =>
    rw [hs, if_neg (by simp)] at hi
    obtain ⟨id, cls, hL⟩ := hr.receiver hs
    have ha := @OnTrees.Act.load site.method.name 0 v.env.receiver _ L S k o hL (by simp)
    exact site.act hi ha (h id cls k)

private theorem recordFields_eq {ty : Source.Ty} {fs : List (String × Ty)}
    (h : Lower.layout w.program.aliases ty = .ok (.record fs)) : Reference.recordFields w ty = pure (fs.map Prod.fst) := by
  obtain ⟨u, hu, hh⟩ := Lower.underlying_of_layout h
  cases hh with
  | record hn => simp only [Reference.recordFields, hu, Reference.liftAlias, pure_bind, hn]

private theorem lookup_fieldEvals (fields : List (String × Expr)) (name : String) :
    (Reference.fieldEvals w fields).lookup name = (fields.lookup name).map (evalExpr w) := by
  induction fields with
  | nil => rfl
  | cons f fields ih =>
    obtain ⟨n, e⟩ := f
    simp only [Reference.fieldEvals, List.lookup_cons]
    cases name == n
    · exact ih
    · rfl

private theorem evalFields_eq {fields : List (String × Expr)} {fs : List (String × Ty)} {elems : List Expr}
    (h : List.Forall₂ (fun f e => fields.lookup f.1 = some e) fs elems) :
    Reference.evalFields (Reference.fieldEvals w fields) (fs.map Prod.fst) = evalArgs w elems := by
  induction h with
  | nil => rfl
  | cons hf _ ih =>
    simp only [List.map_cons, Reference.evalFields, evalArgs, lookup_fieldEvals, hf, Option.map_some, ih]

end

section
variable {p : Program} {rounds : Nat} {site : Site} {L : List Tree} {w : Reference.View}

mutual

/-- The machine runs the code of an expression and has its value on the stack. -/
theorem expr_meets {v : Lower.View} {n n' : Nat} {e : Expr} {c : Code} {t : Ty} (r : Ready p rounds site v w L)
    (o : String) (k : Nat) (S : List Operand) (pc : Nat) (hp : site.Has pc c) : LowersExpr v n e c t n' →
      Meets p rounds (site.state o k L S pc) (evalExpr w e o) (Yields site L S (pc + realCount c) t)
  | .const hk _ => by
    rw [evalExpr]
    exact const_meets hk hp
  | .var hl _ => var_meets r hl hp
  | .logic h hl hr _ => by
    rw [evalExpr]
    exact logic_meets h hp (fun hp => expr_meets r o k S pc hp hl) fun o k hp => expr_meets r o k S _ hp hr
  | .equality h hl ht hr hc _ => by
    obtain ⟨hp, hpc⟩ := hp.append
    obtain ⟨hpl, hpr⟩ := hp.append
    rw [evalExpr, binaryTree_equality h]
    rw [realCount_append, realCount_append, ← Nat.add_assoc, ← Nat.add_assoc]
    rw [realCount_append, ← Nat.add_assoc] at hpc
    exact pair_meets ht (expr_meets r o k S pc hpl hl) (fun x o k => expr_meets r o k _ _ hpr hr)
      fun x y o k hx hy => equality_meets hc ht hx hy hpc
  | .append ht hl hr _ => by
    obtain ⟨hp, hi⟩ := hp.last rfl rfl
    obtain ⟨hpl, hpr⟩ := hp.append
    have hv := isVoid_of_sequence ht
    rw [realCount_append, ← Nat.add_assoc] at hi
    rw [evalExpr, Machine.realCount_snoc rfl, realCount_append, ← Nat.add_assoc, ← Nat.add_assoc]
    refine pair_meets hv (expr_meets r o k S pc hpl hl) (fun x o k => expr_meets r o k _ _ hpr hr) fun x y o k hx hy => ?_
    obtain ⟨z, hz, hty⟩ := hx.append_ok hy ht
    rw [hz]
    exact site.act hi (.append hz) (.ok ⟨hty, k, by rw [pushed_eq hv]⟩)
  | .arith h hl hr _ => by
    obtain ⟨hp, hi⟩ := hp.last rfl rfl
    obtain ⟨hpl, hpr⟩ := hp.append
    rw [realCount_append, ← Nat.add_assoc] at hi
    rw [evalExpr, binaryTree_arith h, Machine.realCount_snoc rfl, realCount_append, ← Nat.add_assoc, ← Nat.add_assoc]
    exact ints_meets (expr_meets r o k S pc hpl hl) (fun x o k => expr_meets r o k _ _ hpr hr)
      fun i j o k => arith_meets h r.function_eq hi
  | .order h hl hr _ => by
    obtain ⟨hp, hpc⟩ := hp.append
    obtain ⟨hpl, hpr⟩ := hp.append
    rw [evalExpr, binaryTree_order h, realCount_append, realCount_append, ← Nat.add_assoc, ← Nat.add_assoc]
    rw [realCount_append, ← Nat.add_assoc] at hpc
    exact ints_meets (expr_meets r o k S pc hpl hl) (fun x o k => expr_meets r o k _ _ hpr hr)
      fun i j o k => compare_meets rfl rfl hpc
  | .not he _ => by
    obtain ⟨hp, hn⟩ := hp.append
    rw [evalExpr, realCount_append, ← Nat.add_assoc]
    refine (needBool_meets (expr_meets r o k S pc hp he)).bind ?_
    rintro b o s ⟨k, hs⟩
    rw [hs]
    exact not_meets hn
  | .neg he _ => by
    obtain ⟨hp, hi⟩ := hp.last rfl rfl
    rw [evalExpr, Machine.realCount_snoc rfl, ← Nat.add_assoc]
    refine (needInt_meets (expr_meets r o k S pc hp he)).bind ?_
    rintro i o s ⟨k, hs⟩
    rw [hs]
    exact site.act hi .neg (.ok ⟨.int, k, rfl⟩)
  | .length ht he _ => by
    obtain ⟨hp, hi⟩ := hp.last rfl rfl
    have hv := isVoid_of_sequence ht
    rw [evalExpr, Machine.realCount_snoc rfl, ← Nat.add_assoc]
    refine (expr_meets r o k S pc hp he).bind ?_
    rintro x o s ⟨hx, k, hs⟩
    obtain ⟨m, hm⟩ := hx.length_ok ht
    rw [hs, pushed_eq hv, hm]
    exact site.act hi (.length hm) (.ok ⟨.int, k, rfl⟩)
  | .keep he ht ha => by
    rw [evalExpr]
    refine (expr_meets r o k S pc hp he).bind ?_
    rintro x o s ⟨hx, hs⟩
    have hs' := he.layout_eq
    have ha' := Lower.layout_of_valueLayout ha
    rw [← r.aliases_eq] at hs' ha'
    rw [keep_eq r.reading_eq hs' ha' hx]
    exact .ok ⟨hx, hs⟩
  | .convert he hv ha hk => by
    obtain ⟨hp, hi⟩ := hp.last rfl rfl
    have hs' := he.layout_eq
    have ha' := Lower.layout_of_valueLayout ha
    rw [← r.aliases_eq] at hs' ha'
    rw [evalExpr, Machine.realCount_snoc rfl, ← Nat.add_assoc]
    refine (expr_meets r o k S pc hp he).bind ?_
    rintro x o s ⟨hx, k, hs⟩
    rw [hs, pushed_eq hv]
    exact convert_meets hs' ha' hk hx hi
  | .call hf hs ha _ => by
    obtain ⟨callee, hc, hcalls⟩ := r.calls _ _ hf hs
    obtain ⟨hp, hi⟩ := hp.last rfl rfl
    have hm : (Lower.receiverCode v).isMark = false := by unfold Lower.receiverCode; split <;> rfl
    have hd : (Lower.receiverCode v).dest? = none := by unfold Lower.receiverCode; split <;> rfl
    obtain ⟨hrec, hpa⟩ := (placed_cons hm).mp hp
    rw [Machine.realCount_cons hm] at hi
    rw [evalExpr, hc, Machine.realCount_snoc rfl, Machine.realCount_cons hm]
    refine receiver_meets r (by simpa [retarget, hd] using hrec) fun id cls k => ?_
    refine (args_meets r o k _ _ hpa ha).bind ?_
    rintro xs o s ⟨hxs, k, hs⟩
    have := hcalls site xs id cls o k L S _ rfl hi hxs
    rw [hs]
    simpa [Nat.add_assoc, Nat.add_comm, Nat.add_left_comm] using this
  | .index hs hpos _ => by
    obtain ⟨hp, hi⟩ := hp.last rfl rfl
    obtain ⟨hps, hpp⟩ := hp.append
    have hv := Machine.Ty.isVoid_of_isValue (by simpa only [Ty.isValue] using hs.isValue rfl)
    rw [realCount_append, ← Nat.add_assoc] at hi
    rw [evalExpr, Machine.realCount_snoc rfl, realCount_append, ← Nat.add_assoc, ← Nat.add_assoc]
    refine (expr_meets r o k S pc hps hs).bind ?_
    rintro x o s ⟨hx, k, hs⟩
    cases hx with
    | @list ts _ hts =>
      rw [hs]
      refine element_meets r.function_eq (expr_meets r o k _ _ hpp hpos) hi (fun j e o k he => .listLoad rfl he) ?_
      intro j m o k hm
      have hlt := elementAt_lt hm
      have hget := List.getElem?_eq_getElem hlt
      refine site.act hi (.listLoad rfl hm hget) (.ok ⟨?_, k, ?_⟩)
      · rw [List.getD_eq_getElem?_getD, hget]
        exact hts _ (List.getElem_mem hlt)
      · rw [List.getD_eq_getElem?_getD, hget, pushed_eq hv]
        rfl
  | .list hl ha => by
    obtain ⟨hp, hi⟩ := hp.last rfl rfl
    rw [evalExpr, Machine.realCount_snoc rfl, ← Nat.add_assoc]
    refine (args_meets r o k S pc hp ha).bind ?_
    rintro xs o s ⟨hxs, k, hs⟩
    rw [hs]
    refine site.act hi (.newList (by simp [hxs.length_eq])) (.ok ⟨.list fun x hx => ?_, k, rfl⟩)
    obtain ⟨t, ht, hty⟩ := Machine.exists_of_forall₂ hxs hx
    exact List.eq_of_mem_replicate ht ▸ hty
  | .record hl hf ha => by
    obtain ⟨hp, hi⟩ := hp.last rfl rfl
    rw [← r.aliases_eq] at hl
    rw [evalExpr, recordFields_eq hl, pure_bind, evalFields_eq hf, Machine.realCount_snoc rfl, ← Nat.add_assoc]
    refine (args_meets r o k S pc hp ha).bind ?_
    rintro xs o s ⟨hxs, k, hs⟩
    rw [hs]
    exact site.act hi (.newRecord (by simpa using hxs.length_eq)) (.ok ⟨.record hxs, k, rfl⟩)
  | .field hs hf _ => by
    obtain ⟨hp, hi⟩ := hp.last rfl rfl
    rw [evalExpr, Machine.realCount_snoc rfl, ← Nat.add_assoc]
    refine (expr_meets r o k S pc hp hs).bind ?_
    rintro x o s ⟨hx, k, hs'⟩
    cases hx with
    | record hts =>
      obtain ⟨j, x, hk, hfind, hn, hj, hx⟩ := HasTy.findField_ok hts hf
      have hval := Machine.Ty.isValue_of_mem (by simpa only [Ty.isValue] using hs.isValue rfl) (List.mem_of_getElem? hn)
      rw [Nat.zero_add] at hk
      subst hk
      rw [fieldOf_eq hfind, hs']
      exact site.act hi (.getField rfl (by simp [hn]) hj)
        (.ok ⟨hx, k, by rw [pushed_eq (Machine.Ty.isVoid_of_isValue hval)]; rfl⟩)

theorem args_meets {v : Lower.View} {n n' : Nat} {es : List Expr} {c : Code} {ts : List Ty} (r : Ready p rounds site v w L)
    (o : String) (k : Nat) (S : List Operand) (pc : Nat) (hp : site.Has pc c) : LowersArgs v n ts es c n' →
      Meets p rounds (site.state o k L S pc) (evalArgs w es o) fun xs o s =>
        List.Forall₂ HasTy xs ts ∧ ∃ k, s = site.state o k L ((xs.map own).reverse ++ S) (pc + realCount c)
  | .nil => by
    rw [evalArgs]
    exact .ok ⟨.nil, k, rfl⟩
  | .cons he ht ha => by
    obtain ⟨hpe, hpa⟩ := hp.append
    rw [evalArgs]
    refine (expr_meets r o k S pc hpe he).bind ?_
    rintro x o s ⟨hx, k, hs⟩
    rw [hs, pushed_eq ht]
    refine (args_meets r o k (own x :: S) _ hpa ha).bind ?_
    rintro xs o s ⟨hxs, k, hs⟩
    exact .ok ⟨.cons hx hxs, k, by simp [hs, Nat.add_assoc]⟩

end

end
end WhileStack.Simulation
