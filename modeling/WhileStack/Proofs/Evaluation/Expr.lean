import WhileStack.Proofs.Evaluation.Both

/-! Expressions with a heap and over trees. Every value that comes out is new: it shares nothing with the variables or
with what was made before, and the heap in front of it stays as it was. -/
namespace WhileStack

/-- A part of what is new is new. -/
theorem Fresh.follow {b : Nat} {h : Heap} {v w : Value} {t u : Tree} {path : List Nat} (f : Fresh b h [v] [t])
    (hw : h.follow v path = some w) (hu : t.get? path = some u) : Fresh b h [w] [u] := by
  obtain ⟨F, hf, hn, hb⟩ := f
  obtain ⟨w', G, hw', hg, hs⟩ := hf.follow hu
  cases hw.symm.trans hw'
  exact ⟨G, hg, hn.sublist hs, fun a ha => hb a (hs.mem ha)⟩

namespace Evaluation
open Source (Ty Expr BinOp UnOp)

section
variable {h : Host} {Γ : Joint} {st : Store} {start : Heap} {x : Eval.Exec Value} {y : Reference.Exec Tree}

/-- Reading a variable finds the value and its tree. -/
theorem readVar_both (hs : Seen st.heap Γ) (name : String) :
    Both st (Eval.readVar (h.view Γ) name) (Reference.readVar (h.treeView Γ) name)
      fun v st' t => st' = st ∧ Γ.find name = some (v, t) := by
  unfold Eval.readVar Reference.readVar
  simp only [Joint.lookupIn_values, Joint.lookupIn_trees]
  cases hf : Γ.find name with
  | none => exact .throw rfl
  | some r =>
    obtain ⟨v, t⟩ := r
    obtain ⟨F, f, -⟩ := hs _ (Joint.mem_roots hf)
    dsimp only at f
    cases f with
    | leaf hv f =>
      cases v with
      | null => exact .throw rfl
      | ref => simp [Value.isRef] at hv
      | int | bool | string | object | array => exact .pure ⟨rfl, rfl⟩
    | node => exact .pure ⟨rfl, rfl⟩

theorem needInt_both (e : Expr) (hx : Both st x y (Gives start)) :
    Both st (Eval.needInt (h.view Γ) e x) (Reference.needInt (h.treeView Γ) e y)
      fun a st' b => a = b ∧ start.Extends st'.heap := by
  refine hx.bind ?_
  rintro v st' t ⟨he, F, f, _⟩
  have hf := f
  cases f with
  | leaf hv f =>
    cases v with
    | int n => exact .pure ⟨rfl, he⟩
    | ref => simp [Value.isRef] at hv
    | null | bool | string | object | array => exact .throwTag hf (.notInt h.function e)
  | node => exact .throwTag hf (.notInt h.function e)

theorem needBool_both (e : Expr) (hx : Both st x y (Gives start)) :
    Both st (Eval.needBool (h.view Γ) e x) (Reference.needBool (h.treeView Γ) e y)
      fun a st' b => a = b ∧ start.Extends st'.heap := by
  refine hx.bind ?_
  rintro v st' t ⟨he, F, f, _⟩
  have hf := f
  cases f with
  | leaf hv f =>
    cases v with
    | bool b => exact .pure ⟨rfl, he⟩
    | ref => simp [Value.isRef] at hv
    | null | int | string | object | array => exact .throwTag hf (.notBool h.function e)
  | node => exact .throwTag hf (.notBool h.function e)

private theorem intOperation_both (op : BinOp) (a b : Int32) (he : start.Extends st.heap) :
    Both st (Eval.intOperation (h.view Γ) op a b) (Reference.intOperation (h.treeView Γ) op a b) (Gives start) := by
  cases op with
  | add | sub | mul | lt | le | gt | ge => exact .pure (.leaf he rfl)
  | div =>
    refine (Both.liftFault (divide h.function a b)).bind ?_
    rintro r st' r' ⟨hst, hr, _⟩
    subst hst hr
    exact .pure (.leaf he rfl)
  | rem =>
    refine (Both.liftFault (remainder h.function a b)).bind ?_
    rintro r st' r' ⟨hst, hr, _⟩
    subst hst hr
    exact .pure (.leaf he rfl)
  | and | or | eq | ne | append | other => exact .throw rfl

/-- Two operands, evaluated one behind the other. -/
private theorem operands_both {x' : Eval.Exec Value} {y' : Reference.Exec Tree} {γ δ : Type}
    {f : Value → Value → Eval.Exec γ} {g : Tree → Tree → Reference.Exec δ} {R : γ → Store → δ → Prop}
    (hx : Both st x y (Gives st.heap)) (hx' : ∀ st', st.heap.Extends st'.heap → Both st' x' y' (Gives st'.heap))
    (hf : ∀ v w st' t u F G, st.heap.Extends st'.heap → Forest st'.heap [v] [t] F → Forest st'.heap [w] [u] G →
      Both st' (f v w) (g t u) R) :
    Both st (x >>= fun v => x' >>= fun w => f v w) (y >>= fun t => y' >>= fun u => g t u) R := by
  refine hx.bind ?_
  rintro v st₁ t ⟨he, F, hF, -, -⟩
  refine (hx' st₁ he).bind ?_
  rintro w st₂ u ⟨he', G, hG, -, -⟩
  exact hf v w st₂ t u F G (he.trans he') (hF.extend he') hG

private theorem intBinary_both {x' : Eval.Exec Value} {y' : Reference.Exec Tree} (op : BinOp) (lhs rhs : Expr)
    (hx : Both st x y (Gives st.heap)) (hx' : ∀ st', st.heap.Extends st'.heap → Both st' x' y' (Gives st'.heap)) :
    Both st
      (Eval.needInt (h.view Γ) lhs x >>= fun a => Eval.needInt (h.view Γ) rhs x' >>= fun b =>
        Eval.intOperation (h.view Γ) op a b)
      (Reference.needInt (h.treeView Γ) lhs y >>= fun a => Reference.needInt (h.treeView Γ) rhs y' >>= fun b =>
        Reference.intOperation (h.treeView Γ) op a b) (Gives st.heap) := by
  refine (needInt_both lhs hx).bind ?_
  rintro a st₁ a' ⟨ha, he⟩
  refine (needInt_both rhs (hx' st₁ he)).bind ?_
  rintro b st₂ b' ⟨hb, he'⟩
  subst ha hb
  exact intOperation_both op a b (he.trans he')

private theorem binary_both {x' : Eval.Exec Value} {y' : Reference.Exec Tree} (op : BinOp) (lhs rhs : Expr)
    (hx : Both st x y (Gives st.heap)) (hx' : ∀ st', st.heap.Extends st'.heap → Both st' x' y' (Gives st'.heap)) :
    Both st (Eval.binaryValue (h.view Γ) op lhs rhs x x') (Reference.binaryTree (h.treeView Γ) op lhs rhs y y')
      (Gives st.heap) := by
  cases op with
  | and =>
    refine (needBool_both lhs hx).bind ?_
    rintro a st₁ a' ⟨ha, he⟩
    subst ha
    cases a with
    | false => exact .pure (.leaf he rfl)
    | true =>
      refine (needBool_both rhs (hx' st₁ he)).bind ?_
      rintro b st₂ b' ⟨hb, he'⟩
      subst hb
      exact .pure (.leaf (he.trans he') rfl)
  | or =>
    refine (needBool_both lhs hx).bind ?_
    rintro a st₁ a' ⟨ha, he⟩
    subst ha
    cases a with
    | true => exact .pure (.leaf he rfl)
    | false =>
      refine (needBool_both rhs (hx' st₁ he)).bind ?_
      rintro b st₂ b' ⟨hb, he'⟩
      subst hb
      exact .pure (.leaf (he.trans he') rfl)
  | eq =>
    refine operands_both hx hx' fun v w st' t u F G he hF hG => ?_
    refine .get ?_
    simp only [hF.equal_eq hG]
    exact .pure (.leaf he rfl)
  | ne =>
    refine operands_both hx hx' fun v w st' t u F G he hF hG => ?_
    refine .get ?_
    simp only [hF.equal_eq hG]
    exact .pure (.leaf he rfl)
  | append =>
    refine operands_both hx hx' fun v w st' t u F G he hF hG => .onHeap ?_
    rcases hF.append_eq hG with herr | ⟨r, h', s, hop, hs, he', hf⟩
    · exact .inl herr
    · exact .inr ⟨r, h', s, hop, hs, he.trans he', hf.mono he.size_le⟩
  | add | sub | mul | div | rem | lt | le | gt | ge | other => exact intBinary_both _ lhs rhs hx hx'

private theorem unary_both (op : UnOp) (e : Expr) (hx : Both st x y (Gives start)) :
    Both st (Eval.unaryValue (h.view Γ) op e x) (Reference.unaryTree (h.treeView Γ) op e y) (Gives start) := by
  cases op with
  | not =>
    refine (needBool_both e hx).bind ?_
    rintro a st' a' ⟨ha, he⟩
    subst ha
    exact .pure (.leaf he rfl)
  | neg =>
    refine (needInt_both e hx).bind ?_
    rintro a st' a' ⟨ha, he⟩
    subst ha
    exact .pure (.leaf he rfl)
  | length =>
    refine hx.bind ?_
    rintro v st' t ⟨he, F, f, _⟩
    refine .get ?_
    simp only [f.length_eq_length]
    cases t.length with
    | ok n => exact .pure (.leaf he rfl)
    | error e => exact .throw rfl
  | other s => exact .throw rfl

private theorem cast_both {v : Value} {t : Tree} (source target : Ty) (hv : Gives start v st t) :
    Both st (Eval.castValue (h.view Γ) target v) (Reference.castTree (h.treeView Γ) source target t) (Gives start) := by
  obtain ⟨he, F, f, hn, hb⟩ := hv
  refine (Both.liftAlias (h.program.aliases.underlying target)).bind ?_
  rintro ty st' ty' ⟨hst, hty⟩
  subst hst hty
  cases ty with
  | string =>
    refine .get ?_
    simp only [f.format_eq]
    exact .pure (.leaf he rfl)
  | record fields =>
    rcases f.record?_cases with ⟨hr, ht⟩ | ⟨a, fs, ts, G, hr, rfl, rfl, rfl, -, g⟩
    · refine .get ?_
      simp only [hr, ht]
      exact .throwTag f .badCast
    · have hk : Reference.keeps (h.treeView Γ) source target (fields.map Prod.fst)
          (.node (.record (fs.map Prod.fst)) ts) = false := rfl
      refine .get ?_
      simp only [hr, Tree.record?_record, hk, Bool.false_eq_true, if_false]
      refine .onHeap ?_
      rcases g.project (fields.map Prod.fst) with herr | ⟨w, h', u, hop, hu, he', hf⟩
      · exact .inl herr
      · exact .inr ⟨w, h', u, hop, hu, he.trans he', hf.mono he.size_le⟩
  | int | bool | void | list | named => exact .pure ⟨he, F, f, hn, hb⟩

/-- A position in a list is evaluated and looked for. The list is still there. -/
theorem position_both {γ δ : Type} {R : γ → Store → δ → Prop} {a : Nat} {es : List Value} {ts : List Tree}
    {other : Eval.Exec γ} {c : Nat → List Value → Nat → Eval.Exec γ} {d : Nat → Reference.Exec δ}
    (ec : st.heap.cell? a = some (.list es)) (hl : es.length = ts.length) (e : Expr) (hx : Both st x y (Gives st.heap))
    (hk : ∀ st' k, st.heap.Extends st'.heap → k < ts.length → Both st' (c a es k) (d k) R) :
    Both st
      (Eval.needInt (h.view Γ) e x >>= fun i => do
        match (← get).heap.list? (.ref a) with
        | none => other
        | some (b, es) => Eval.liftFault (elementAt h.function es.length i) >>= fun k => c b es k)
      (Reference.needInt (h.treeView Γ) e y >>= fun i =>
        Reference.liftFault (elementAt h.function ts.length i) >>= d) R := by
  refine (needInt_both e hx).bind ?_
  rintro i st' i' ⟨hi, he⟩
  subst hi
  have hlist : st'.heap.list? (.ref a) = some (a, es) := by
    simp [Heap.list?, he.cell_eq a (Heap.lt_of_cell? ec), ec]
  refine .get ?_
  simp only [hlist, hl]
  refine (Both.liftFault (elementAt h.function ts.length i)).bind ?_
  rintro k st'' k' ⟨hst, hkk, hlt⟩
  subst hst hkk
  exact hk st'' k he (elementAt_lt hlt)

/-- The element of a list, and where it is. -/
theorem element_both {l : Value} {t : Tree} {F : List Nat} (f : Forest st.heap [l] [t] F) (e : Expr)
    (hx : Both st x y (Gives st.heap)) :
    Both st (Eval.elementValue (h.view Γ) l e x) (Reference.elementOf (h.treeView Γ) t e y .indexOn)
      fun v st' r => st.heap.Extends st'.heap ∧ st'.heap.follow l [r.2] = some v ∧
        t.get? [r.2] = some (r.1.getD r.2 .null) := by
  rcases f.list?_cases with ⟨hl, ht⟩ | ⟨a, es, ts, G, hl, rfl, rfl, rfl, ec, g⟩
  · refine .get ?_
    simp only [hl, Reference.elementOf, ht]
    exact .throwTag f .indexOn
  · refine .get ?_
    simp only [hl, Reference.elementOf, Tree.list?_list]
    refine position_both ec g.length_eq e hx fun st' k he hk => ?_
    obtain ⟨v, hv⟩ : ∃ v, es[k]? = some v := ⟨_, List.getElem?_eq_getElem (g.length_eq ▸ hk)⟩
    refine .pure ⟨he, ?_, ?_⟩
    · simp [Heap.follow, he.cell_eq a (Heap.lt_of_cell? ec), ec, Cell.children, hv]
    · simp [Tree.get?, hk]

/-- A field is found at one offset among the values and among the trees. -/
theorem findField_cases {ns : List String} {vs : List Value} {ts : List Tree} (name : String) (i : Nat)
    (hv : ns.length = vs.length) (ht : ns.length = ts.length) :
    ((ns.zip vs).lookup name = none ∧ (ns.zip vs).findIdx? (fun f => f.1 = name) = none ∧
      Reference.findField name i (ns.zip ts) = none) ∨
    ∃ k v t, (ns.zip vs).lookup name = some v ∧ (ns.zip vs).findIdx? (fun f => f.1 = name) = some k ∧
      Reference.findField name i (ns.zip ts) = some (i + k, t) ∧ vs[k]? = some v ∧ ts[k]? = some t := by
  induction ns generalizing vs ts i with
  | nil => exact .inl ⟨rfl, rfl, rfl⟩
  | cons n ns ih =>
    obtain ⟨v, vs, rfl⟩ := List.exists_cons_of_length_pos (l := vs) (by simp at hv; omega)
    obtain ⟨t, ts, rfl⟩ := List.exists_cons_of_length_pos (l := ts) (by simp at ht; omega)
    simp only [List.zip_cons_cons, List.lookup_cons, List.findIdx?_cons, Reference.findField]
    by_cases hn : n = name
    · subst hn
      exact .inr ⟨0, v, t, by simp, by simp, by simp, rfl, rfl⟩
    · have hb : (name == n) = false := by simpa using fun h => hn h.symm
      rcases ih (i + 1) (by simpa using hv) (by simpa using ht) with ⟨hl, hi, hf⟩ | ⟨k, w, u, hl, hi, hf, hw, hu⟩
      · exact .inl ⟨by simp [hb, hl], by simp [hn, hi], by simp [hn, hf]⟩
      · exact .inr ⟨k + 1, w, u, by simp [hb, hl], by simp [hn, hi], by simp [hn, hf]; omega, hw, hu⟩

/-- A field of a record, and where it is. -/
theorem fieldOf_both {r : Value} {t : Tree} {F : List Nat} (f : Forest st.heap [r] [t] F) (name : String) :
    Both st (Eval.fieldOf r name) (Reference.fieldOf t name)
      fun v st' q => st' = st ∧ st.heap.follow r [q.1] = some v ∧ t.get? [q.1] = some q.2 := by
  refine .get ?_
  rcases f.record?_cases with ⟨hr, ht⟩ | ⟨a, fs, ts, G, hr, rfl, rfl, rfl, ec, g⟩
  · simp only [hr, Reference.fieldOf, ht]
    exact .throwTag f .accessOn
  · have hz : (fs.map Prod.fst).zip (fs.map Prod.snd) = fs := (Cell.record_eq_zip fs).symm
    simp only [hr, Reference.fieldOf, Tree.record?_record, Heap.fieldValue?]
    have hlen : (fs.map Prod.fst).length = ts.length := by simpa using g.length_eq
    have hlen' : (fs.map Prod.fst).length = (fs.map Prod.snd).length := by simp
    rcases findField_cases name 0 hlen' hlen with ⟨hl, -, hf⟩ | ⟨k, v, u, hl, -, hf, hv, hu⟩
    · rw [hz] at hl
      simp only [hl, hf]
      exact .throw rfl
    · rw [hz] at hl
      rw [Nat.zero_add] at hf
      simp only [hl, hf]
      exact .pure ⟨rfl, by simp [Heap.follow, ec, Cell.children, hv], by simp [Tree.get?, hu]⟩

private theorem recordFields_both (ty : Ty) :
    Both st (Eval.recordFields (h.view Γ) ty) (Reference.recordFields (h.treeView Γ) ty)
      fun ns st' ns' => st' = st ∧ ns = ns' := by
  refine (Both.liftAlias (h.program.aliases.underlying ty)).bind ?_
  rintro t st' t' ⟨hst, ht⟩
  subst hst ht
  cases t with
  | record fs => exact .pure ⟨rfl, rfl⟩
  | int | bool | string | void | list | named => exact .throw rfl

private theorem evalFields_both {given : List (String × Eval.Exec Value)} {trees : List (String × Reference.Exec Tree)}
    (hg : ∀ n, (given.lookup n = none ∧ trees.lookup n = none) ∨ ∃ x y, given.lookup n = some x ∧
      trees.lookup n = some y ∧ ∀ st, Seen st.heap Γ → Both st x y (Gives st.heap))
    (names : List String) (hs : Seen st.heap Γ) :
    Both st (Eval.evalFields given names) (Reference.evalFields trees names)
      fun fs st' ts => fs.map Prod.fst = names ∧ GivesAll st.heap (fs.map Prod.snd) st' ts := by
  induction names generalizing st with
  | nil => exact .pure ⟨rfl, .refl _, .nil _ _⟩
  | cons n names ih =>
    simp only [Eval.evalFields, Reference.evalFields]
    rcases hg n with ⟨hx, hy⟩ | ⟨x, y, hx, hy, hb⟩
    · simp only [hx, hy]
      exact .throw rfl
    · simp only [hx, hy]
      refine (hb st hs).bind ?_
      rintro v st₁ t ⟨he, hv⟩
      refine (ih (hs.extend he)).map ?_
      rintro fs st₂ ts ⟨hn, he', hf⟩
      exact ⟨by simp [hn], he.trans he', hv.cons he' he.size_le hf⟩

end

mutual

/-- Expressions give new values. -/
theorem evalExpr_both {h : Host} {Γ : Joint} : ∀ (e : Expr) (st : Store), Seen st.heap Γ →
    Both st (Eval.evalExpr (h.view Γ) e) (Reference.evalExpr (h.treeView Γ) e) (Gives st.heap)
  | .const _ l, st, _ => by
    cases l <;> exact .pure (.leaf (.refl _) rfl)
  | .var a name, st, hs => by
    have hr : Reference.evalExpr (h.treeView Γ) (.var a name) =
        (Reference.readVar (h.treeView Γ) name >>= fun t => Reference.liftValue (.ok t)) := (bind_pure _).symm
    rw [hr]
    refine (readVar_both hs name).bind ?_
    rintro v st' t ⟨hst, hf⟩
    subst hst
    obtain ⟨F, f, -⟩ := hs _ (Joint.mem_roots hf)
    obtain ⟨w, h', hc, he, hw⟩ := f.clone
    exact .onHeap (.inr ⟨w, h', t, by rw [hc], rfl, he, hw⟩)
  | .binary _ op lhs rhs, st, hs =>
    binary_both op lhs rhs (evalExpr_both lhs st hs) fun st' he => evalExpr_both rhs st' (hs.extend he)
  | .unary _ op e, st, hs => unary_both op e (evalExpr_both e st hs)
  | .cast a e, st, hs => (evalExpr_both e st hs).bind fun _ _ _ hv => cast_both e.ty a.ty hv
  | .call _ f args, st, hs => by
    simp only [Eval.evalExpr, Reference.evalExpr]
    cases hfun : h.program.function? f with
    | none => exact .throw rfl
    | some callee =>
      refine (evalArgs_both args st hs).bind ?_
      rintro vs st₁ ts ⟨he, hf⟩
      refine (h.calls _ callee (List.mem_of_find?_eq_some hfun) vs ts st₁ he.size_le hf).imp ?_
      rintro v st₂ t ⟨hk, hv⟩
      exact ⟨he.after hk, hv⟩
  | .index _ source position, st, hs => by
    refine (evalExpr_both source st hs).bind ?_
    rintro s st₁ t ⟨he, hv⟩
    obtain ⟨F, f, -⟩ := id hv
    rw [← bind_pure (Eval.elementValue _ _ _ _)]
    refine (element_both f position (evalExpr_both position st₁ (hs.extend he))).map ?_
    rintro v st₂ r ⟨he', hfollow, hget⟩
    exact ⟨he.trans he', (hv.extend he').follow hfollow hget⟩
  | .list _ elems, st, hs => by
    refine (evalArgs_both elems st hs).bind ?_
    rintro vs st₁ ts ⟨he, hf⟩
    have ha := hf.alloc (c := .list vs) he.size_le rfl
    exact ⟨rfl, he.trans (.alloc _ _), ha⟩
  | .record a fields, st, hs => by
    refine (recordFields_both a.ty).bind ?_
    rintro ns st₁ ns' ⟨hst, hns⟩
    subst hst hns
    refine (evalFields_both (fieldEvals_both fields) ns hs).bind ?_
    rintro fs st₂ ts ⟨hn, he, hf⟩
    have ha := hf.alloc (c := .record fs) he.size_le rfl
    rw [Cell.shape, hn] at ha
    exact ⟨rfl, he.trans (.alloc _ _), ha⟩
  | .field _ source name, st, hs => by
    refine (evalExpr_both source st hs).bind ?_
    rintro s st₁ t ⟨he, hv⟩
    obtain ⟨F, f, -⟩ := id hv
    rw [← bind_pure (Eval.fieldOf s name)]
    refine (fieldOf_both f name).map ?_
    rintro v st₂ q ⟨hst, hfollow, hget⟩
    subst hst
    exact ⟨he, hv.follow hfollow hget⟩

theorem evalArgs_both {h : Host} {Γ : Joint} : ∀ (es : List Expr) (st : Store), Seen st.heap Γ →
    Both st (Eval.evalArgs (h.view Γ) es) (Reference.evalArgs (h.treeView Γ) es) (GivesAll st.heap)
  | [], st, _ => .pure ⟨.refl _, .nil _ _⟩
  | e :: es, st, hs => by
    refine (evalExpr_both e st hs).bind ?_
    rintro v st₁ t ⟨he, hv⟩
    refine (evalArgs_both es st₁ (hs.extend he)).map ?_
    rintro vs st₂ ts ⟨he', hf⟩
    exact ⟨he.trans he', hv.cons he' he.size_le hf⟩

theorem fieldEvals_both {h : Host} {Γ : Joint} : ∀ (fields : List (String × Expr)) (n : String),
    ((Eval.fieldEvals (h.view Γ) fields).lookup n = none ∧ (Reference.fieldEvals (h.treeView Γ) fields).lookup n = none) ∨
    ∃ x y, (Eval.fieldEvals (h.view Γ) fields).lookup n = some x ∧
      (Reference.fieldEvals (h.treeView Γ) fields).lookup n = some y ∧
      ∀ st, Seen st.heap Γ → Both st x y (Gives st.heap)
  | [], n => .inl ⟨rfl, rfl⟩
  | (m, e) :: fields, n => by
    simp only [Eval.fieldEvals, Reference.fieldEvals, List.lookup_cons]
    cases n == m with
    | true => exact .inr ⟨_, _, rfl, rfl, evalExpr_both e⟩
    | false => exact fieldEvals_both fields n

end

end Evaluation
end WhileStack
