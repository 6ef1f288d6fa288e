import WhileStack.Proofs.Evaluation.Expr

/-! Assignments with a heap and over trees. What is written into a list or record in the heap is put into the tree of the
variable that leads there, and no other variable sees it. -/
namespace WhileStack.Evaluation
open Source (Expr)

/-- The list or record that an assignment writes into: a new one, or one that a variable leads to. -/
def Located (Γ : Joint) (start : Heap) (l : Value) (st : Store) (r : Reference.Spot × Tree) : Prop :=
  start.Extends st.heap ∧ match r.1 with
    | none => Fresh start.cells.size st.heap [l] [r.2]
    | some (name, path) =>
      ∃ x root, Γ.find name = some (x, root) ∧ st.heap.follow x path = some l ∧ root.get? path = some r.2

namespace Located
variable {Γ : Joint} {start : Heap} {l v : Value} {st st' : Store} {spot : Reference.Spot} {t u : Tree} {k : Nat}

theorem forest (hl : Located Γ start l st (spot, t)) (hs : Seen st.heap Γ) : Fresh 0 st.heap [l] [t] := by
  obtain ⟨he, hl⟩ := hl
  cases spot with
  | none => exact hl.mono (Nat.zero_le _)
  | some q =>
    obtain ⟨x, root, hf, hx, hroot⟩ := hl
    exact (hs _ (Joint.mem_roots hf)).follow hx hroot

theorem extend (hl : Located Γ start l st (spot, t)) (hs : Seen st.heap Γ) (e : st.heap.Extends st'.heap) :
    Located Γ start l st' (spot, t) := by
  obtain ⟨he, hl⟩ := hl
  refine ⟨he.trans e, ?_⟩
  cases spot with
  | none => exact hl.extend e
  | some q =>
    obtain ⟨x, root, hf, hx, hroot⟩ := hl
    obtain ⟨F, f, -⟩ := hs _ (Joint.mem_roots hf)
    refine ⟨x, root, hf, ?_, hroot⟩
    rw [f.follow_congr (fun a ha => e.cell_eq a (f.lt_size a ha)) q.2, hx]

theorem child (hl : Located Γ start l st (spot, t)) (hv : st.heap.follow l [k] = some v) (hu : t.get? [k] = some u) :
    Located Γ start v st (spot.child k, u) := by
  obtain ⟨he, hl⟩ := hl
  refine ⟨he, ?_⟩
  cases spot with
  | none => exact hl.follow hv hu
  | some q =>
    obtain ⟨x, root, hf, hx, hroot⟩ := hl
    refine ⟨x, root, hf, ?_, ?_⟩
    · rw [Heap.follow_append, hx]
      exact hv
    · rw [Tree.get?_append, hroot]
      exact hu

end Located

theorem evalTarget_both {h : Host} {Γ : Joint} : ∀ (e : Expr) (st : Store), Seen st.heap Γ →
    Both st (Eval.evalTarget (h.view Γ) e) (Reference.evalTarget (h.treeView Γ) e) (Located Γ st.heap)
  | .var _ name, st, hs => by
    rw [Eval.evalTarget, ← bind_pure (Eval.readVar _ _)]
    refine (readVar_both hs name).map ?_
    rintro v st' t ⟨hst, hf⟩
    subst hst
    exact ⟨.refl _, v, t, hf, by simp [Heap.follow], rfl⟩
  | .index _ source position, st, hs => by
    refine (evalTarget_both source st hs).bind fun l st₁ r hl => ?_
    obtain ⟨spot, t⟩ := r
    have hs₁ := hs.extend hl.1
    obtain ⟨F, f, -⟩ := hl.forest hs₁
    rw [← bind_pure (Eval.elementValue _ _ _ _)]
    refine (element_both f position (evalExpr_both position st₁ hs₁)).map ?_
    rintro v st₂ r ⟨he, hv, hu⟩
    exact (hl.extend hs₁ he).child hv hu
  | .field _ source name, st, hs => by
    refine (evalTarget_both source st hs).bind fun l st₁ r hl => ?_
    obtain ⟨spot, t⟩ := r
    obtain ⟨F, f, -⟩ := hl.forest (hs.extend hl.1)
    rw [← bind_pure (Eval.fieldOf _ _)]
    refine (fieldOf_both f name).map ?_
    rintro v st₂ q ⟨hst, hv, hu⟩
    subst hst
    exact hl.child hv hu
  | .const a l, st, hs => other (.const a l) st hs rfl rfl
  | .binary a op lhs rhs, st, hs => other (.binary a op lhs rhs) st hs rfl rfl
  | .unary a op e, st, hs => other (.unary a op e) st hs rfl rfl
  | .cast a e, st, hs => other (.cast a e) st hs rfl rfl
  | .call a f args, st, hs => other (.call a f args) st hs rfl rfl
  | .list a elems, st, hs => other (.list a elems) st hs rfl rfl
  | .record a fields, st, hs => other (.record a fields) st hs rfl rfl
where
  /-- What is no place of a variable is evaluated to something new. -/
  other {h : Host} {Γ : Joint} (e : Expr) (st : Store) (hs : Seen st.heap Γ)
      (hx : Eval.evalTarget (h.view Γ) e = Eval.evalExpr (h.view Γ) e)
      (hy : Reference.evalTarget (h.treeView Γ) e = Reference.evalExpr (h.treeView Γ) e >>= fun t => pure (none, t)) :
      Both st (Eval.evalTarget (h.view Γ) e) (Reference.evalTarget (h.treeView Γ) e) (Located Γ st.heap) := by
    rw [hx, hy, ← bind_pure (Eval.evalExpr _ _)]
    exact (evalExpr_both e st hs).map fun v st' t hv => hv

namespace Joint

/-- Replaces the first entry of a name. -/
def setFirst (name : String) (r : Value × Tree) : List (String × Value × Tree) → Option (List (String × Value × Tree))
  | [] => none
  | (n, q) :: rest => if n = name then some ((n, r) :: rest) else (setFirst name r rest).map ((n, q) :: ·)

/-- Gives the innermost variable of a name a new value and tree. -/
def set (name : String) (r : Value × Tree) : Joint → Option Joint
  | [] => none
  | s :: rest =>
    match setFirst name r s with
    | some s => some (s :: rest)
    | none => (set name r rest).map (s :: ·)

variable {name : String} {r q : Value × Tree} {s : List (String × Value × Tree)} {Γ : Joint}

private theorem setFirst_values (name : String) (r : Value × Tree) (s : List (String × Value × Tree)) :
    Eval.setFirst name r.1 (s.map fun e => (e.1, e.2.1)) = (setFirst name r s).map fun s => s.map fun e => (e.1, e.2.1) := by
  induction s with
  | nil => rfl
  | cons e s ih =>
    simp only [List.map_cons, Eval.setFirst, setFirst, ih]
    split
    · rfl
    · cases setFirst name r s <;> rfl

private theorem setFirst_trees (name : String) (r : Value × Tree) (s : List (String × Value × Tree)) :
    Reference.setFirst name r.2 (s.map fun e => (e.1, e.2.2)) =
      (setFirst name r s).map fun s => s.map fun e => (e.1, e.2.2) := by
  induction s with
  | nil => rfl
  | cons e s ih =>
    simp only [List.map_cons, Reference.setFirst, setFirst, ih]
    split
    · rfl
    · cases setFirst name r s <;> rfl

theorem setVar_values (name : String) (r : Value × Tree) (Γ : Joint) :
    Eval.setVar name r.1 Γ.values = (Γ.set name r).map values := by
  induction Γ with
  | nil => rfl
  | cons s Γ ih =>
    simp only [values, List.map_cons, Eval.setVar, set, setFirst_values] at ih ⊢
    cases setFirst name r s with
    | some s' => rfl
    | none =>
      simp only [Option.map_none, ih]
      cases set name r Γ <;> rfl

theorem setVar_trees (name : String) (r : Value × Tree) (Γ : Joint) :
    Reference.setVar name r.2 Γ.trees = (Γ.set name r).map trees := by
  induction Γ with
  | nil => rfl
  | cons s Γ ih =>
    simp only [trees, List.map_cons, Reference.setVar, set, setFirst_trees] at ih ⊢
    cases setFirst name r s with
    | some s' => rfl
    | none =>
      simp only [Option.map_none, ih]
      cases set name r Γ <;> rfl

private theorem setFirst_of_lookup (hq : s.lookup name = some q) (r : Value × Tree) :
    ∃ s' A B, setFirst name r s = some s' ∧ s.map Prod.snd = A ++ q :: B ∧ s'.map Prod.snd = A ++ r :: B ∧
      (r.1 = q.1 → (s'.map fun e => (e.1, e.2.1)) = s.map fun e => (e.1, e.2.1)) := by
  induction s with
  | nil => simp at hq
  | cons e s ih =>
    obtain ⟨n, p⟩ := e
    rw [List.lookup_cons] at hq
    by_cases hn : n = name
    · subst hn
      obtain rfl : p = q := by simpa using hq
      exact ⟨(n, r) :: s, [], s.map Prod.snd, by simp [setFirst], rfl, rfl, fun hr => by simp [hr]⟩
    · have hb : (name == n) = false := by simpa using fun h => hn h.symm
      rw [hb] at hq
      obtain ⟨s', A, B, hs', hA, hB, hv⟩ := ih hq
      exact ⟨(n, p) :: s', p :: A, B, by simp [setFirst, hn, hs'], by simp [hA], by simp [hB],
        fun hr => by simp [hv hr]⟩

private theorem setFirst_of_not_lookup (hq : s.lookup name = none) (r : Value × Tree) : setFirst name r s = none := by
  induction s with
  | nil => rfl
  | cons e s ih =>
    obtain ⟨n, p⟩ := e
    rw [List.lookup_cons] at hq
    split at hq
    · cases hq
    · rename_i hn
      have hne : n ≠ name := fun h => by simp [h] at hn
      simp [setFirst, hne, ih hq]

/-- One variable changes, and all others stay. -/
theorem set_of_find (hq : Γ.find name = some q) (r : Value × Tree) :
    ∃ Γ' A B, Γ.set name r = some Γ' ∧ Γ.roots = A ++ q :: B ∧ roots Γ' = A ++ r :: B ∧
      (r.1 = q.1 → values Γ' = Γ.values) := by
  induction Γ with
  | nil => simp [find] at hq
  | cons s Γ ih =>
    rw [find, List.findSome?_cons] at hq
    cases hl : s.lookup name with
    | some q' =>
      simp only [hl, Option.some.injEq] at hq
      subst hq
      obtain ⟨s', A, B, hs', hA, hB, hv⟩ := setFirst_of_lookup hl r
      exact ⟨s' :: Γ, A, B ++ roots Γ, by simp [set, hs'], by simp [roots, hA], by simp [roots, hB],
        fun hr => by simp [values, hv hr]⟩
    | none =>
      simp only [hl] at hq
      obtain ⟨Γ', A, B, hs', hA, hB, hv⟩ := ih hq
      refine ⟨s :: Γ', s.map Prod.snd ++ A, B, by simp [set, setFirst_of_not_lookup hl, hs'], ?_, ?_, fun hr => ?_⟩
      · simpa [roots] using hA
      · simpa [roots] using hB
      · simpa [values] using hv hr

theorem set_of_not_find (hq : Γ.find name = none) (r : Value × Tree) : Γ.set name r = none := by
  induction Γ with
  | nil => rfl
  | cons s Γ ih =>
    rw [find, List.findSome?_cons] at hq
    cases hl : s.lookup name with
    | some q' => simp [hl] at hq
    | none =>
      simp only [hl] at hq
      simp [set, setFirst_of_not_lookup hl, ih hq]

end Joint

/-- An activation with its variables and its result, as values and as trees. -/
structure Frame where
  scopes : Joint
  returned : Bool
  result : Value × Tree

namespace Frame

abbrev values (f : Frame) : Eval.Frame := ⟨f.scopes.values, f.returned, f.result.1⟩

abbrev trees (f : Frame) : Reference.Frame := ⟨f.scopes.trees, f.returned, f.result.2⟩

def roots (f : Frame) : Roots := f.result :: f.scopes.roots

theorem seen {b : Nat} {h : Heap} {f : Frame} (rs : Roots) (o : Owned b h (rs ++ f.roots)) : Seen h f.scopes :=
  fun r hr => Fresh.mono (o.forest (v := r.1) (t := r.2) (by simp [roots, hr])) (Nat.zero_le b)

end Frame

/-- Both sides have come to the ends of one activation, and nothing in front of `b` has changed. -/
def Ended (b : Nat) (start : Heap) (r : Unit × Eval.Frame) (st : Store) (r' : Unit × Reference.Frame) : Prop :=
  ∃ f : Frame, r.2 = f.values ∧ r'.2 = f.trees ∧ start.Keeps b st.heap ∧ Owned b st.heap f.roots

section
variable {b : Nat} {h : Host} {f : Frame} {st : Store} {start : Heap} {v l : Value} {t u : Tree}
  {spot : Reference.Spot}

/-- A variable gets a new value. -/
private theorem setVar_both {q : Value × Tree} (o : Owned b start ((v, t) :: f.roots)) (name : String)
    (hq : f.scopes.find name = some q) :
    ∃ f' : Frame, Eval.setVar name v f.scopes.values = some f'.scopes.values ∧
      Reference.setVar name t f.scopes.trees = some f'.scopes.trees ∧ f'.returned = f.returned ∧
      f'.result = f.result ∧ Owned b start f'.roots := by
  obtain ⟨Γ', A, B, hs, hA, hB, -⟩ := Joint.set_of_find hq (v, t)
  have hv := Joint.setVar_values name (v, t) f.scopes
  have ht := Joint.setVar_trees name (v, t) f.scopes
  rw [hs] at hv ht
  refine ⟨⟨Γ', f.returned, f.result⟩, hv, ht, rfl, rfl, o.subperm ?_⟩
  simp only [Frame.roots, hA, hB]
  have hsub : (A ++ B).Subperm (A ++ q :: B) := ((List.sublist_cons_self q B).append_left A).subperm
  have hp : (f.result :: (A ++ (v, t) :: B)).Perm ((v, t) :: f.result :: (A ++ B)) :=
    (List.perm_middle.cons f.result).trans (.swap _ _ _)
  exact hp.subperm.trans ((List.subperm_cons _).mpr ((List.subperm_cons _).mpr hsub))

/-- An element or field of what is located is replaced, in the heap and in the tree of the variable. -/
private theorem write_both {s : Shape} {ts : List Tree} {a k : Nat} {c d : Cell}
    (o : Owned b start ((v, t) :: f.roots)) (hb : b ≤ start.cells.size)
    (hl : Located f.scopes start (.ref a) st (spot, .node s ts)) (hc : st.heap.cell? a = some c)
    (hk : k < c.children.length) (hs : d.shape = c.shape) (hch : d.children = c.children.set k v) :
    ∃ f' : Frame, f'.values = f.values ∧ f'.trees = { f.trees with scopes := spot.write k t f.scopes.trees } ∧
      b ≤ a ∧ Owned b (st.heap.write a d) f'.roots := by
  obtain ⟨he, hl⟩ := hl
  cases spot with
  | none =>
    have o' := (o.add he hb hl).perm (.swap _ _ _)
    obtain ⟨hba, hp, -⟩ := o'.put (show st.heap.follow (.ref a) [] = some (.ref a) from rfl) hc hk hs hch
    exact ⟨f, rfl, rfl, hba, hp.drop⟩
  | some q =>
    obtain ⟨x, root, hf, hx, hroot⟩ := hl
    obtain ⟨Γ', A, B, hset, hA, hB, hvals⟩ := Joint.set_of_find hf (x, root.put (q.2 ++ [k]) t)
    have htrees := Joint.setVar_trees q.1 (x, root.put (q.2 ++ [k]) t) f.scopes
    rw [hset] at htrees
    have hperm : ((v, t) :: f.roots).Perm ((v, t) :: (x, root) :: f.result :: (A ++ B)) := by
      simp only [Frame.roots, hA]
      exact ((List.perm_middle.cons f.result).trans (.swap _ _ _)).cons _
    obtain ⟨hba, hp, -⟩ := ((o.extend he).perm hperm).put hx hc hk hs hch
    refine ⟨⟨Γ', f.returned, f.result⟩, ?_, ?_, hba, hp.perm ?_⟩
    · simp only [Frame.values, hvals rfl]
    · have hlook : Reference.lookupIn f.scopes.trees q.1 = some root := by rw [Joint.lookupIn_trees, hf]; rfl
      have hw : Reference.Spot.write (some q) k t f.scopes.trees = Joint.trees Γ' := by
        simp only [Reference.Spot.write, hlook]
        simp only [htrees, Option.map_some, Option.getD_some]
      simp only [Frame.trees, hw]
    · simp only [Frame.roots, hB]
      exact (List.Perm.swap _ _ _).trans (List.perm_middle.symm.cons f.result)

/-- Both sides have written a child of what is located. -/
private def Written (b : Nat) (start : Heap) (f : Frame) (spot : Reference.Spot) (t : Tree) (st : Store) (k : Nat) : Prop :=
  ∃ f' : Frame, f'.values = f.values ∧ f'.trees = { f.trees with scopes := spot.write k t f.scopes.trees } ∧
    start.Keeps b st.heap ∧ Owned b st.heap f'.roots

private theorem Written.ended {k : Nat} (hw : Written b start f spot t st k) :
    Ended b start ((), f.values) st ((), { f.trees with scopes := spot.write k t f.scopes.trees }) := by
  obtain ⟨f', hv, ht, hk, o⟩ := hw
  exact ⟨f', hv.symm, ht.symm, hk, o⟩

private theorem storeElement_both (o : Owned b start ((v, t) :: f.roots)) (hb : b ≤ start.cells.size)
    (hl : Located f.scopes start l st (spot, u)) (e : Expr) :
    Both st (Eval.storeElement (h.view f.scopes) l e v)
      (Reference.elementOf (h.treeView f.scopes) u e (Reference.evalExpr (h.treeView f.scopes) e) .elementInto)
      fun _ st' y => Written b start f spot t st' y.2 := by
  have hs : Seen st.heap f.scopes := (Frame.seen [(v, t)] o).extend hl.1
  obtain ⟨F, g, -⟩ := hl.forest hs
  refine .get ?_
  rcases g.list?_cases with ⟨hes, hts⟩ | ⟨a, es, ts, G, hes, rfl, rfl, rfl, ec, ge⟩
  · simp only [hes, Reference.elementOf, hts]
    exact .throwTag g .elementInto
  · simp only [hes, Reference.elementOf, Tree.list?_list]
    refine position_both ec ge.length_eq e (evalExpr_both e st hs) fun st' k he hk => ?_
    have hl' := hl.extend hs he
    have ec' : st'.heap.cell? a = some (.list es) := (he.cell_eq a (Heap.lt_of_cell? ec)).trans ec
    obtain ⟨f', hv, ht, hba, o'⟩ := write_both (d := .list (es.set k v)) o hb hl' ec' (ge.length_eq ▸ hk) rfl rfl
    exact ⟨rfl, f', hv, ht, (Heap.Keeps.of_extends hl'.1 hb).trans (.write hba _), o'⟩

private theorem storeField_both (o : Owned b start ((v, t) :: f.roots)) (hb : b ≤ start.cells.size)
    (hl : Located f.scopes start l st (spot, u)) (name : String) :
    Both st (Eval.storeField l name v)
      (match u.record?.bind (Reference.findField name 0) with
        | some (k, _) => pure k
        | none => throw (.fieldInto name u.tag))
      fun _ st' k => Written b start f spot t st' k := by
  have hs : Seen st.heap f.scopes := (Frame.seen [(v, t)] o).extend hl.1
  obtain ⟨F, g, -⟩ := hl.forest hs
  refine .get ?_
  rcases g.record?_cases with ⟨hfs, hts⟩ | ⟨a, fs, ts, G, hfs, rfl, rfl, rfl, ec, ge⟩
  · simp only [hfs, hts, Option.bind_none]
    exact .throwTag g (.fieldInto name)
  · have hz : (fs.map Prod.fst).zip (fs.map Prod.snd) = fs := (Cell.record_eq_zip fs).symm
    have hlen : (fs.map Prod.fst).length = ts.length := by simpa using ge.length_eq
    have hlen' : (fs.map Prod.fst).length = (fs.map Prod.snd).length := by simp
    simp only [hfs, Tree.record?_record, Option.bind_some]
    refine .get ?_
    rcases findField_cases name 0 hlen' hlen with ⟨-, hi, hf⟩ | ⟨k, w, u', -, hi, hf, hw, -⟩
    · rw [hz] at hi
      simp only [Heap.setField?, hi, hf, Option.map_none]
      exact .throwTag g (.fieldInto name)
    · rw [hz] at hi
      rw [Nat.zero_add] at hf
      simp only [Heap.setField?, hi, hf, Option.map_some]
      have hk : k < (Cell.record fs).children.length := (List.getElem?_eq_some_iff.mp hw).1
      obtain ⟨f', hv, ht, hba, o'⟩ := write_both (d := .record (fs.modify k fun f => (f.1, v))) o hb hl ec hk
        (by simp [Cell.shape, Cell.map_fst_modify]) (by simp [Cell.children, Cell.map_snd_modify])
      exact ⟨rfl, f', hv, ht, (Heap.Keeps.of_extends hl.1 hb).trans (.write hba _), o'⟩

/-- A new value beside what the frame holds. -/
def Evaluated (b : Nat) (start : Heap) (f : Frame) (r : Value × Eval.Frame) (st : Store) (r' : Tree × Reference.Frame) :
    Prop :=
  r.2 = f.values ∧ r'.2 = f.trees ∧ start.Keeps b st.heap ∧ Owned b st.heap ((r.1, r'.1) :: f.roots)

theorem eval_both (o : Owned b st.heap f.roots) (hb : b ≤ st.heap.cells.size) (e : Expr) :
    Both st (Eval.eval h.eval e f.values) (Reference.eval h.reference e f.trees) (Evaluated b st.heap f) := by
  have hx : Eval.eval h.eval e f.values = Eval.evalExpr (h.view f.scopes) e >>= fun v => pure (v, f.values) := rfl
  have hy : Reference.eval h.reference e f.trees =
      Reference.evalExpr (h.treeView f.scopes) e >>= fun t => pure (t, f.trees) := rfl
  rw [hx, hy]
  refine (evalExpr_both e st (Frame.seen [] o)).map ?_
  rintro v st' t ⟨he, hv⟩
  exact ⟨rfl, rfl, .of_extends he hb, o.add he hb hv⟩

theorem Ended.after {mid : Heap} {r : Unit × Eval.Frame} {r' : Unit × Reference.Frame} (k : start.Keeps b mid)
    (e : Ended b mid r st r') : Ended b start r st r' := by
  obtain ⟨f, hv, ht, hk, o⟩ := e
  exact ⟨f, hv, ht, k.trans hk, o⟩

private theorem assignVar_both (o : Owned b st.heap ((v, t) :: f.roots)) (a : Source.Attr) (name : String) :
    Both st
      ((match Eval.setVar name v f.scopes.values with
        | some scopes => modify fun f => { f with scopes := scopes }
        | none => throw (.unboundVariable h.function name) : Eval.Run Unit) f.values)
      (Reference.assignTo h.reference (.var a name) t f.trees) (Ended b st.heap) := by
  rw [funext fun out => Reference.assignTo_var h.reference a t f.trees out name]
  cases hq : f.scopes.find name with
  | none =>
    have hv := Joint.setVar_values name (v, t) f.scopes
    have ht := Joint.setVar_trees name (v, t) f.scopes
    rw [Joint.set_of_not_find hq, Option.map_none] at hv ht
    simp only [hv, ht]
    exact .throw rfl
  | some q =>
    obtain ⟨f', hv, ht, hr, hres, o'⟩ := setVar_both o name hq
    simp only [hv, ht]
    exact ⟨rfl, f', by simp [Frame.values, hr, hres], by simp [Frame.trees, hr, hres], .refl b _, o'⟩

private theorem assignIndex_both (o : Owned b st.heap ((v, t) :: f.roots)) (hb : b ≤ st.heap.cells.size)
    (source position : Expr) :
    Both st
      (Eval.evalTarget (h.view f.scopes) source >>= fun l =>
        Eval.storeElement (h.view f.scopes) l position v >>= fun _ => pure ((), f.values))
      (Reference.evalTarget (h.treeView f.scopes) source >>= fun x =>
        Reference.elementOf (h.treeView f.scopes) x.2 position (Reference.evalExpr (h.treeView f.scopes) position)
            .elementInto >>= fun y =>
          pure ((), { f.trees with scopes := x.1.write y.2 t f.scopes.trees }))
      (Ended b st.heap) := by
  refine (evalTarget_both source st (Frame.seen [(v, t)] o)).bind fun l st' r hl => ?_
  exact (storeElement_both o hb hl position).map fun _ _ _ hw => hw.ended

private theorem assignField_both (o : Owned b st.heap ((v, t) :: f.roots)) (hb : b ≤ st.heap.cells.size)
    (source : Expr) (name : String) :
    Both st
      (Eval.evalTarget (h.view f.scopes) source >>= fun r => Eval.storeField r name v >>= fun _ => pure ((), f.values))
      (Reference.evalTarget (h.treeView f.scopes) source >>= fun x =>
        match x.2.record?.bind (Reference.findField name 0) with
        | some (k, _) => pure ((), { f.trees with scopes := x.1.write k t f.scopes.trees })
        | none => throw (.fieldInto name x.2.tag))
      (Ended b st.heap) := by
  refine (evalTarget_both source st (Frame.seen [(v, t)] o)).bind fun l st' r hl => ?_
  have hw := (storeField_both o hb hl name).map (c := fun _ => ((), f.values))
    (d := fun k => ((), { f.trees with scopes := r.1.write k t f.scopes.trees })) fun _ _ _ hw => hw.ended
  cases hr : r.2.record?.bind (Reference.findField name 0) with
  | none =>
    rw [hr] at hw
    exact hw
  | some q =>
    rw [hr] at hw
    exact hw

/-- Assignments come to the same end. -/
theorem assign_both (o : Owned b st.heap f.roots) (hb : b ≤ st.heap.cells.size) (target : Source.Target) (value : Expr) :
    Both st (Eval.runAssign h.eval target value f.values) (Reference.runAssign h.reference target value f.trees)
      (Ended b st.heap) := by
  unfold Eval.runAssign Reference.runAssign
  refine (eval_both o hb value).bindRun ?_
  rintro r st' r' ⟨hr, hr', hk, o'⟩
  obtain ⟨v, fr⟩ := r
  obtain ⟨t, fr'⟩ := r'
  dsimp only at hr hr' o' ⊢
  subst hr hr'
  have hb' := Nat.le_trans hb hk.size_le
  refine .imp ?_ fun _ _ _ he => Ended.after hk he
  cases target with
  | var a name => exact assignVar_both o' a name
  | index a source position =>
    rw [funext fun out => Reference.assignTo_index h.reference a t f.trees out source position]
    change Both st' ((liftM (Eval.evalTarget (h.view f.scopes) source) >>= fun l =>
      liftM (Eval.storeElement (h.view f.scopes) l position v) : Eval.Run Unit) f.values) _ _
    rw [Exec.lift_bind]
    exact assignIndex_both o' hb' source position
  | field a source name =>
    rw [funext fun out => Reference.assignTo_field h.reference a t f.trees out source name]
    change Both st' ((liftM (Eval.evalTarget (h.view f.scopes) source) >>= fun r =>
      liftM (Eval.storeField r name v) : Eval.Run Unit) f.values) _ _
    rw [Exec.lift_bind]
    exact assignField_both o' hb' source name

end

end WhileStack.Evaluation
