import WhileStack.Proofs.Eval.Stmt
import WhileStack.Proofs.Evaluation.Assign
import WhileStack.Proofs.Reference.Reading

/-! Statements with a heap and over trees. Read literally they come to the same end; read as compiled code runs them they
do so where no step of a loop declares or returns and no record names a field twice. -/
namespace WhileStack.Evaluation
open Source (Expr Stmt VarDecl Ty)
open Reference (Reading)

/-- A step that neither declares nor returns. -/
def isPlainStep (s : Stmt) : Bool := !s.isDecl && !s.hasReturn

/-- What is known of one side is known of both. -/
theorem Both.also {α β : Type} {st : Store} {x : Eval.Exec α} {y : Reference.Exec β} {Q : α → Store → β → Prop}
    {P : α → Prop} (h : Both st x y Q) (hx : ∀ a st', x st = .ok a st' → P a) :
    Both st x y fun a st' b => P a ∧ Q a st' b := by
  unfold Both at h ⊢
  split at h
  · rename_i a st' b o hxa hy
    exact ⟨h.1, hx a st' hxa, h.2⟩
  · exact h
  · exact h

namespace Frame
variable {f : Frame} {name : String} {v : Value} {t : Tree} {b : Nat} {h : Heap}

def enter (f : Frame) : Frame := { f with scopes := [] :: f.scopes }

def exit (f : Frame) : Frame := { f with scopes := f.scopes.drop 1 }

def declare (f : Frame) (name : String) (r : Value × Tree) : Frame :=
  match f.scopes with
  | [] => { f with scopes := [[(name, r)]] }
  | s :: rest => { f with scopes := ((name, r) :: s) :: rest }

@[simp] theorem values_exit : f.exit.values = f.values.exit := by
  simp [exit, Eval.Frame.exit, Joint.values]

@[simp] theorem trees_exit : f.exit.trees = f.trees.exit := by
  simp [exit, Reference.Frame.exit, Joint.trees]

@[simp] theorem values_declare : (f.declare name (v, t)).values = f.values.declare name v := by
  obtain ⟨scopes, returned, result⟩ := f
  cases scopes <;> rfl

@[simp] theorem trees_declare : (f.declare name (v, t)).trees = f.trees.declare name t := by
  obtain ⟨scopes, returned, result⟩ := f
  cases scopes <;> rfl

theorem roots_declare (r : Value × Tree) : (f.declare name r).roots = f.result :: r :: f.scopes.roots := by
  obtain ⟨scopes, returned, result⟩ := f
  cases scopes <;> rfl

theorem owned_enter (o : Owned b h f.roots) : Owned b h f.enter.roots := o

theorem owned_exit (o : Owned b h f.roots) : Owned b h f.exit.roots := by
  refine o.subperm (List.Sublist.subperm (.cons_cons _ (List.Sublist.map _ ?_)))
  obtain ⟨scopes, returned, result⟩ := f
  cases scopes with
  | nil => exact .slnil
  | cons s rest => exact List.sublist_append_right s rest.flatten

theorem owned_declare (o : Owned b h ((v, t) :: f.roots)) : Owned b h (f.declare name (v, t)).roots := by
  rw [roots_declare]
  exact o.perm (.swap _ _ _)

end Frame

/-- Both sides have come to the same answer with the variables as they were. -/
def Tested (b : Nat) (start : Heap) (f : Frame) (r : Bool × Eval.Frame) (st : Store) (r' : Bool × Reference.Frame) :
    Prop :=
  r.1 = r'.1 ∧ r.2 = f.values ∧ r'.2 = f.trees ∧ start.Keeps b st.heap ∧ Owned b st.heap f.roots

section
variable {b : Nat} {h : Host} {f : Frame} {st : Store} {start : Heap}

theorem inScope_both {x : Eval.Run Unit} {y : Reference.Run Unit}
    (hxy : Both st (x f.enter.values) (y f.enter.trees) (Ended b start)) :
    Both st (Eval.inScope x f.values) (Reference.inScope y f.trees) (Ended b start) := by
  have hx : Eval.inScope x f.values = (x >>= fun _ => modify Eval.Frame.exit) f.enter.values := rfl
  have hy : Reference.inScope y f.trees = (y >>= fun _ => modify Reference.Frame.exit) f.enter.trees := rfl
  rw [hx, hy]
  refine hxy.bindRun ?_
  rintro r st' r' ⟨g, hr, hr', hk, o⟩
  rw [hr, hr']
  exact ⟨rfl, g.exit, Frame.values_exit.symm, Frame.trees_exit.symm, hk, Frame.owned_exit o⟩

private theorem evalBool_both (o : Owned b st.heap f.roots) (hb : b ≤ st.heap.cells.size) (e : Expr) :
    Both st (Eval.evalBool h.eval e f.values) (Reference.evalBool h.reference e f.trees) (Tested b st.heap f) := by
  refine (needBool_both e (evalExpr_both e st (Frame.seen [] o))).map ?_
  rintro a st' a' ⟨ha, hext⟩
  exact ⟨ha, rfl, rfl, .of_extends hext hb, o.extend hext⟩

section
variable {reading : Reading} (hp : reading = .lowered → h.program.FieldsDistinct) (o : Owned b st.heap f.roots)
  (hb : b ≤ st.heap.cells.size)
include hp o hb

private theorem eval_read {e : Expr} (he : reading = .lowered → e.everyTy Ty.isDistinct = true) :
    Both st (Eval.eval h.eval e f.values) (Reference.eval (h.read reading) e f.trees) (Evaluated b st.heap f) := by
  cases reading with
  | literal => exact eval_both o hb e
  | lowered =>
    rw [← Reference.eval_literal (h := h.read .lowered) (hp rfl) (he rfl)]
    exact eval_both o hb e

private theorem evalBool_read {e : Expr} (he : reading = .lowered → e.everyTy Ty.isDistinct = true) :
    Both st (Eval.evalBool h.eval e f.values) (Reference.evalBool (h.read reading) e f.trees) (Tested b st.heap f) := by
  cases reading with
  | literal => exact evalBool_both o hb e
  | lowered =>
    rw [← Reference.evalBool_literal (h := h.read .lowered) (hp rfl) (he rfl)]
    exact evalBool_both o hb e

private theorem decl_read {d : VarDecl} (hd : reading = .lowered → d.everyTy Ty.isDistinct = true) :
    Both st (Eval.runDecl h.eval d f.values) (Reference.runDecl (h.read reading) d f.trees) (Ended b st.heap) := by
  simp only [VarDecl.everyTy, Bool.and_eq_true, imp_and] at hd
  unfold Eval.runDecl Reference.runDecl
  cases hi : d.init with
  | none => exact ⟨rfl, f.declare d.name (.null, .null), by simp, by simp, .refl _ _, Frame.owned_declare (o.leaf rfl)⟩
  | some e =>
    rw [hi] at hd
    refine (eval_read hp o hb hd.2).bindRun ?_
    rintro ⟨v, fr⟩ st' ⟨t, fr'⟩ ⟨hr, hr', hk, o'⟩
    dsimp only at hr hr' o' ⊢
    subst hr hr'
    exact ⟨rfl, f.declare d.name (v, t), by simp, by simp, hk, Frame.owned_declare o'⟩

private theorem return_read {value : Option Expr}
    (hv : reading = .lowered → value.all (Expr.everyTy Ty.isDistinct) = true) :
    Both st (Eval.runReturn h.eval value f.values) (Reference.runReturn (h.read reading) value f.trees)
      (Ended b st.heap) := by
  unfold Eval.runReturn Reference.runReturn
  cases value with
  | none => exact ⟨rfl, { f with returned := true }, rfl, rfl, .refl _ _, o⟩
  | some e =>
    refine (eval_read hp o hb hv).bindRun ?_
    rintro ⟨v, fr⟩ st' ⟨t, fr'⟩ ⟨hr, hr', hk, o'⟩
    dsimp only at hr hr' o' ⊢
    subst hr hr'
    exact ⟨rfl, { f with returned := true, result := (v, t) }, rfl, rfl, hk, (o'.perm (.swap _ _ _)).drop⟩

private theorem print_read {e : Expr} (he : reading = .lowered → e.everyTy Ty.isDistinct = true) :
    Both st
      ((do let x ← Eval.eval h.eval e; modifyThe Store fun s => s.print x : Eval.Run Unit) f.values)
      ((do let t ← Reference.eval (h.read reading) e; modifyThe String fun out => out ++ t.format ++ "\n" :
        Reference.Run Unit) f.trees) (Ended b st.heap) := by
  refine (eval_read hp o hb he).bindRun ?_
  rintro ⟨v, fr⟩ st' ⟨t, fr'⟩ ⟨hr, hr', hk, o'⟩
  dsimp only at hr hr' o' ⊢
  subst hr hr'
  obtain ⟨F, hf, -⟩ := o'.forest List.mem_cons_self
  have hout : (st'.print v).out = st'.out ++ t.format ++ "\n" := by rw [Store.print, hf.format_eq]
  exact ⟨hout, f, rfl, rfl, hk, o'.drop⟩

private theorem effect_read {e : Expr} (he : reading = .lowered → e.everyTy Ty.isDistinct = true) :
    Both st ((do let _ ← Eval.eval h.eval e : Eval.Run Unit) f.values)
      ((do let _ ← Reference.eval (h.read reading) e : Reference.Run Unit) f.trees) (Ended b st.heap) := by
  refine (eval_read hp o hb he).bindRun ?_
  rintro ⟨v, fr⟩ st' ⟨t, fr'⟩ ⟨hr, hr', hk, o'⟩
  dsimp only at hr hr' o' ⊢
  subst hr hr'
  exact ⟨rfl, f, rfl, rfl, hk, o'.drop⟩

private theorem assign_read {target : Source.Target} {value : Expr}
    (ht : reading = .lowered → target.toExpr.everyTy Ty.isDistinct = true)
    (hv : reading = .lowered → value.everyTy Ty.isDistinct = true) :
    Both st (Eval.runAssign h.eval target value f.values) (Reference.runAssign (h.read reading) target value f.trees)
      (Ended b st.heap) := by
  cases reading with
  | literal => exact assign_both o hb target value
  | lowered =>
    rw [← Reference.runAssign_literal (h := h.read .lowered) (hp rfl) (ht rfl) (hv rfl)]
    exact assign_both o hb target value

end

/-- Rounds go alike; in compiled code, if nothing is returned by the step. -/
private theorem loop_both {reading : Reading} {cond : Eval.Run Bool} {cond' : Reference.Run Bool} {body step : Eval.Run Unit}
    {body' step' : Reference.Run Unit}
    (hcond : ∀ (f : Frame) (st : Store), Owned b st.heap f.roots → b ≤ st.heap.cells.size →
      Both st (cond f.values) (cond' f.trees) (Tested b st.heap f))
    (hbody : ∀ (f : Frame) (st : Store), Owned b st.heap f.roots → b ≤ st.heap.cells.size →
      Both st (body f.values) (body' f.trees) (Ended b st.heap))
    (hstep : ∀ (f : Frame) (st : Store), Owned b st.heap f.roots → b ≤ st.heap.cells.size → f.returned = false →
      Both st (step f.values) (step' f.trees) fun r st' r' =>
        (reading = .lowered → r.2.returned = false) ∧ Ended b st.heap r st' r')
    (n : Nat) (o : Owned b st.heap f.roots) (hb : b ≤ st.heap.cells.size) :
    Both st (Eval.loop cond body step n f.values) (Reference.loop reading cond' body' step' n f.trees)
      (Ended b st.heap) := by
  induction n generalizing f st with
  | zero => exact .throw rfl
  | succ n ih =>
    rw [Eval.loop, Reference.loop]
    refine (hcond f st o hb).bindRun ?_
    rintro ⟨a, fr⟩ st₁ ⟨a', fr'⟩ ⟨ha, hr, hr', hk, o₁⟩
    dsimp only at ha hr hr' ⊢
    subst ha hr hr'
    have hb₁ := Nat.le_trans hb hk.size_le
    cases a with
    | false => exact ⟨rfl, f, rfl, rfl, hk, o₁⟩
    | true =>
      refine (hbody f st₁ o₁ hb₁).bindRun ?_
      rintro ⟨_, fr⟩ st₂ ⟨_, fr'⟩ ⟨g, hr, hr', hk₂, o₂⟩
      dsimp only at hr hr' ⊢
      subst hr hr'
      have hb₂ := Nat.le_trans hb₁ hk₂.size_le
      change Both st₂
        ((if g.returned = true then pure () else step >>= fun _ => Eval.loop cond body step n : Eval.Run Unit) g.values)
        ((if g.returned = true then pure () else step' >>= fun _ => get >>= fun g' =>
          if (reading == .lowered && g'.returned) = true then pure ()
          else Reference.loop reading cond' body' step' n : Reference.Run Unit) g.trees) _
      cases hret : g.returned with
      | true => exact ⟨rfl, g, rfl, rfl, hk.trans hk₂, o₂⟩
      | false =>
        refine (hstep g st₂ o₂ hb₂ hret).bindRun ?_
        rintro ⟨_, fr⟩ st₃ ⟨_, fr'⟩ ⟨hopen, g', hr, hr', hk₃, o₃⟩
        dsimp only at hopen hr hr' ⊢
        subst hr hr'
        change Both st₃ (Eval.loop cond body step n g'.values)
          ((if (reading == .lowered && g'.returned) = true then pure ()
            else Reference.loop reading cond' body' step' n : Reference.Run Unit) g'.trees) _
        have hgo : (reading == .lowered && g'.returned) = false := by
          cases reading with
          | literal => rfl
          | lowered => exact hopen rfl
        rw [hgo]
        exact (ih o₃ (Nat.le_trans hb₂ hk₃.size_le)).imp fun _ _ _ he => .after ((hk.trans hk₂).trans hk₃) he

private theorem width_eq (f : Frame) : f.trees.width = (f.values.names.headD []).length := by
  obtain ⟨scopes, returned, result⟩ := f
  cases scopes <;> simp [Reference.Frame.width, Eval.Frame.names, Joint.trees, Joint.values]

private theorem shrink_width (fr : Reference.Frame) : fr.shrink fr.width = fr := by
  obtain ⟨scopes, returned, result⟩ := fr
  cases scopes <;> simp [Reference.Frame.shrink, Reference.Frame.width]

/-- Nothing is forgotten behind a step that declares nothing. -/
private theorem plainStep_both {s : Stmt} (hs : isPlainStep s = true) (hret : f.returned = false)
    (hrun : Both st (Eval.runStmt h.eval s f.values) (Reference.runStmt (h.read .lowered) s f.trees)
      (Ended b st.heap)) :
    Both st (Eval.runStmt h.eval s f.values)
      (Reference.stepOf .lowered (Reference.runStmt (h.read .lowered) s) f.trees)
      fun r st' r' => r.2.returned = false ∧ Ended b st.heap r st' r' := by
  simp only [isPlainStep, Bool.and_eq_true, Bool.not_eq_true'] at hs
  have hkept : ∀ r st', Eval.runStmt h.eval s f.values st = .ok r st' →
      r.2.names = f.values.names ∧ r.2.returned = false := fun r st' hr =>
    ⟨(Eval.runStmt_names s hr).2 hs.1, (Eval.runStmt_open s hs.2 hr).1.trans hret⟩
  have hstep : Reference.stepOf .lowered (Reference.runStmt (h.read .lowered) s) f.trees =
      (Reference.runStmt (h.read .lowered) s >>= fun _ => modify fun g => g.shrink f.trees.width) f.trees := rfl
  rw [hstep, ← bind_pure (Eval.runStmt h.eval s f.values)]
  refine (hrun.also hkept).bind ?_
  rintro ⟨_, fr⟩ st' ⟨_, fr'⟩ ⟨⟨hnames, hopen⟩, g, hr, hr', hk, o⟩
  dsimp only at hnames hopen hr hr' ⊢
  subst hr hr'
  have hwidth : f.trees.width = g.trees.width := by rw [width_eq, width_eq, hnames]
  refine ⟨rfl, hopen, g, rfl, ?_, hk, o⟩
  rw [hwidth]
  exact shrink_width g.trees

private theorem step_both {reading : Reading} {s : Stmt} (hs : reading = .lowered → isPlainStep s = true)
    (hret : f.returned = false)
    (hrun : Both st (Eval.runStmt h.eval s f.values) (Reference.runStmt (h.read reading) s f.trees) (Ended b st.heap)) :
    Both st (Eval.runStmt h.eval s f.values)
      (Reference.stepOf reading (Reference.runStmt (h.read reading) s) f.trees)
      fun r st' r' => (reading = .lowered → r.2.returned = false) ∧ Ended b st.heap r st' r' := by
  cases reading with
  | literal => exact hrun.imp fun _ _ _ he => ⟨nofun, he⟩
  | lowered => exact (plainStep_both (hs rfl) hret hrun).imp fun _ _ _ he => ⟨fun _ => he.1, he.2⟩

end

mutual

/-- Statements come to the same end. -/
theorem runStmt_both {h : Host} {reading : Reading} (hp : reading = .lowered → h.program.FieldsDistinct) {b : Nat} :
    ∀ (s : Stmt) {f : Frame} {st : Store}, (reading = .lowered → s.everyTy Ty.isDistinct = true) →
    (reading = .lowered → s.everyStep isPlainStep = true) → Owned b st.heap f.roots → b ≤ st.heap.cells.size →
    Both st (Eval.runStmt h.eval s f.values) (Reference.runStmt (h.read reading) s f.trees) (Ended b st.heap)
  | .decl d, f, st, ht, _, o, hb => by
    rw [Eval.runStmt, Reference.runStmt]
    exact decl_read hp o hb (by simpa only [Stmt.everyTy] using ht)
  | .assign _ target value, f, st, ht, _, o, hb => by
    simp only [Stmt.everyTy, Bool.and_eq_true, imp_and] at ht
    rw [Eval.runStmt, Reference.runStmt]
    exact assign_read hp o hb ht.1 ht.2
  | .print _ e, f, st, ht, _, o, hb => by
    rw [Eval.runStmt, Reference.runStmt]
    exact print_read hp o hb (by simpa only [Stmt.everyTy] using ht)
  | .expr _ e, f, st, ht, _, o, hb => by
    rw [Eval.runStmt, Reference.runStmt]
    exact effect_read hp o hb (by simpa only [Stmt.everyTy] using ht)
  | .ret _ value, f, st, ht, _, o, hb => by
    rw [Eval.runStmt, Reference.runStmt]
    exact return_read hp o hb (by simpa only [Stmt.everyTy] using ht)
  | .ifElse _ cond yes no, f, st, ht, hs, o, hb => by
    simp only [Stmt.everyTy, Bool.and_eq_true, imp_and] at ht
    simp only [Stmt.everyStep, Bool.and_eq_true, imp_and] at hs
    rw [Eval.runStmt, Reference.runStmt]
    refine (evalBool_read hp o hb ht.1.1).bindRun ?_
    rintro ⟨a, fr⟩ st' ⟨a', fr'⟩ ⟨ha, hr, hr', hk, o'⟩
    dsimp only at ha hr hr' ⊢
    subst ha hr hr'
    have hb' := Nat.le_trans hb hk.size_le
    refine .imp ?_ fun _ _ _ he => Ended.after hk he
    cases a with
    | true => exact inScope_both (runAll_both hp yes ht.1.2 hs.1 (Frame.owned_enter o') hb')
    | false => exact inScope_both (runAll_both hp no ht.2 hs.2 (Frame.owned_enter o') hb')
  | .whileDo _ cond body, f, st, ht, hs, o, hb => by
    simp only [Stmt.everyTy, Bool.and_eq_true, imp_and] at ht
    simp only [Stmt.everyStep] at hs
    rw [Eval.runStmt, Reference.runStmt]
    refine loop_both ?_ ?_ ?_ h.rounds o hb
    · intro f st o hb
      exact evalBool_read hp o hb ht.1
    · intro f st o hb
      exact inScope_both (runAll_both hp body ht.2 hs (Frame.owned_enter o) hb)
    · intro f st o hb hret
      exact .pure ⟨fun _ => hret, f, rfl, rfl, .refl _ _, o⟩
  | .forDo _ init cond step body, f, st, ht, hs, o, hb => by
    simp only [Stmt.everyTy, Bool.and_eq_true, imp_and] at ht
    simp only [Stmt.everyStep, Bool.and_eq_true, imp_and] at hs
    rw [Eval.runStmt, Reference.runStmt]
    refine inScope_both ?_
    refine (decl_read hp (Frame.owned_enter o) hb ht.1.1.1).bindRun ?_
    rintro ⟨_, fr⟩ st' ⟨_, fr'⟩ ⟨g, hr, hr', hk, o'⟩
    dsimp only at hr hr' ⊢
    subst hr hr'
    refine .imp ?_ fun _ _ _ he => Ended.after hk he
    refine loop_both ?_ ?_ ?_ h.rounds o' (Nat.le_trans hb hk.size_le)
    · intro f st o hb
      exact evalBool_read hp o hb ht.1.1.2
    · intro f st o hb
      exact inScope_both (runAll_both hp body ht.2 hs.2 (Frame.owned_enter o) hb)
    · intro f st o hb hret
      exact step_both hs.1.1 hret (runStmt_both hp step ht.1.2 hs.1.2 o hb)

theorem runAll_both {h : Host} {reading : Reading} (hp : reading = .lowered → h.program.FieldsDistinct) {b : Nat} :
    ∀ (ss : List Stmt) {f : Frame} {st : Store}, (reading = .lowered → Stmt.everyTyIn Ty.isDistinct ss = true) →
    (reading = .lowered → Stmt.everyStepIn isPlainStep ss = true) → Owned b st.heap f.roots → b ≤ st.heap.cells.size →
    Both st (Eval.runAll h.eval ss f.values) (Reference.runAll (h.read reading) ss f.trees) (Ended b st.heap)
  | [], f, st, _, _, o, _ => by
    rw [Eval.runAll, Reference.runAll]
    exact ⟨rfl, f, rfl, rfl, .refl _ _, o⟩
  | s :: rest, f, st, ht, hs, o, hb => by
    simp only [Stmt.everyTyIn, Bool.and_eq_true, imp_and] at ht
    simp only [Stmt.everyStepIn, Bool.and_eq_true, imp_and] at hs
    rw [Eval.runAll, Reference.runAll]
    refine (runStmt_both hp s ht.1 hs.1 o hb).bindRun ?_
    rintro ⟨_, fr⟩ st' ⟨_, fr'⟩ ⟨g, hr, hr', hk, o'⟩
    dsimp only at hr hr' ⊢
    subst hr hr'
    change Both st' ((if g.returned = true then pure () else Eval.runAll h.eval rest : Eval.Run Unit) g.values)
      ((if g.returned = true then pure () else Reference.runAll (h.read reading) rest : Reference.Run Unit) g.trees) _
    refine .imp ?_ fun _ _ _ he => Ended.after hk he
    cases g.returned with
    | true => exact ⟨rfl, g, rfl, rfl, .refl _ _, o'⟩
    | false => exact runAll_both hp rest ht.2 hs.2 o' (Nat.le_trans hb hk.size_le)

end

end WhileStack.Evaluation
