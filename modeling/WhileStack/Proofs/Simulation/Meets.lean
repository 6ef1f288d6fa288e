import WhileStack.Proofs.Exec
import WhileStack.Proofs.Machine.Placement
import WhileStack.Proofs.Reference.Stmt
import WhileStack.Proofs.Simulation.Typed
import WhileStack.Proofs.Tree.Machine

/-! Computations over trees that the machine over trees follows. It comes to a state that belongs to the result, ends in
a fault of the same kind in the same function, or takes at least as many steps as a loop may take rounds. -/
namespace WhileStack.Simulation
open Machine (Program Method Instr Code Label Dest)
open OnTrees (State Step Operand Pending Act Jump Fails)
open OnTrees.Operand (own)

/-- A run of some steps. -/
inductive Reaches (p : Program) : Nat → State → State → Prop where
  | refl {s} : Reaches p 0 s s
  | step {n s t u} : Step p s (.running t) → Reaches p n t u → Reaches p (n + 1) s u

theorem Reaches.trans {p : Program} {m n : Nat} {s t u : State} (h : Reaches p m s t) (h' : Reaches p n t u) :
    Reaches p (m + n) s u := by
  induction h with
  | refl => rwa [Nat.zero_add]
  | @step m _ _ _ hs _ ih =>
    rw [Nat.add_right_comm]
    exact .step hs (ih h')

/-- Faults of one kind in one function. They say the same of it, except of a variable that has no value: it is named on
one side, and on the other its slot is given. -/
structure Alike (e e' : Fault) : Prop where
  kind_eq : e.kind = e'.kind
  function_eq : e.function = e'.function
  detail_eq : e.kind ≠ .uninitialized → e.detail = e'.detail

theorem Alike.refl (e : Fault) : Alike e e := ⟨rfl, rfl, fun _ => rfl⟩

/-- The machine follows a computation from the state on. No other error than a fault or spent rounds comes up. -/
def Meets {α : Type} (p : Program) (rounds : Nat) (s : State) (r : EStateM.Result Eval.Stop String α)
    (Q : α → String → State → Prop) : Prop :=
  match r with
  | .ok a o => ∃ n t, Reaches p n s t ∧ Q a o t
  | .error (.fault e) o => ∃ n t e', Reaches p n s t ∧ Step p t (.fault o e') ∧ Alike e e'
  | .error .outOfBudget _ => ∃ n t, Reaches p n s t ∧ rounds ≤ n
  | .error _ _ => False

namespace Meets
variable {α β : Type} {p : Program} {rounds n : Nat} {s t : State} {o o' : String} {a : α} {e e' : Fault}
  {r : EStateM.Result Eval.Stop String α} {Q Q' : α → String → State → Prop} {R : β → String → State → Prop}

theorem ok (h : Q a o s) : Meets p rounds s (.ok a o) Q := ⟨0, s, .refl, h⟩

theorem fault (h : Step p s (.fault o e')) (he : Alike e e') : Meets p rounds s (.error (.fault e) o) Q :=
  ⟨0, s, e', .refl, h, he⟩

/-- What holds behind a run holds in front of it. -/
theorem reaches (h : Reaches p n s t) (m : Meets p rounds t r Q) : Meets p rounds s r Q := by
  unfold Meets at m ⊢
  split at m
  · obtain ⟨k, u, hr, hq⟩ := m
    exact ⟨n + k, u, h.trans hr, hq⟩
  · obtain ⟨k, u, e', hr, hs, he⟩ := m
    exact ⟨n + k, u, e', h.trans hr, hs, he⟩
  · obtain ⟨k, u, hr, hk⟩ := m
    exact ⟨n + k, u, h.trans hr, Nat.le_trans hk (Nat.le_add_left k n)⟩
  · exact m.elim

theorem step (h : Step p s (.running t)) (m : Meets p rounds t r Q) : Meets p rounds s r Q := m.reaches (.step h .refl)

/-- The machine may go on from where it has come to the result. -/
theorem onward (m : Meets p rounds s r Q) (h : ∀ a o t, Q a o t → Meets p rounds t (.ok a o) Q') :
    Meets p rounds s r Q' := by
  unfold Meets at m
  split at m
  · obtain ⟨k, u, hr, hq⟩ := m
    exact (h _ _ _ hq).reaches hr
  · exact m
  · exact m
  · exact m.elim

theorem imp (m : Meets p rounds s r Q) (h : ∀ a o t, Q a o t → Q' a o t) : Meets p rounds s r Q' :=
  m.onward fun a o t hq => .ok (h a o t hq)

/-- What is known of a result is known where the machine has come to it. -/
theorem also {P : α → Prop} (m : Meets p rounds s r Q) (h : ∀ a o, r = .ok a o → P a) :
    Meets p rounds s r fun a o t => P a ∧ Q a o t := by
  unfold Meets at m ⊢
  split at m
  · obtain ⟨k, u, hr, hq⟩ := m
    exact ⟨k, u, hr, h _ _ rfl, hq⟩
  · exact m
  · exact m
  · exact m

theorem mono {need : Nat} (m : Meets p rounds s r Q) (h : need ≤ rounds) : Meets p need s r Q := by
  unfold Meets at m ⊢
  split at m
  · exact m
  · exact m
  · obtain ⟨k, u, hr, hk⟩ := m
    exact ⟨k, u, hr, Nat.le_trans h hk⟩
  · exact m

/-- A step counts for one round. -/
theorem round (h : Step p s (.running t)) (m : Meets p rounds t r Q) : Meets p (rounds + 1) s r Q := by
  unfold Meets at m ⊢
  split at m
  · obtain ⟨k, u, hr, hq⟩ := m
    exact ⟨k + 1, u, .step h hr, hq⟩
  · obtain ⟨k, u, e', hr, hs, he⟩ := m
    exact ⟨k + 1, u, e', .step h hr, hs, he⟩
  · obtain ⟨k, u, hr, hk⟩ := m
    exact ⟨k + 1, u, .step h hr, Nat.succ_le_succ hk⟩
  · exact m.elim

/-- A computation behind another goes on where that one ended. -/
theorem bind {x : Reference.Exec α} {f : α → Reference.Exec β} (m : Meets p rounds s (x o) Q)
    (h : ∀ a o t, Q a o t → Meets p rounds t (f a o) R) : Meets p rounds s ((x >>= f) o) R := by
  rw [Exec.bind_apply]
  cases hx : x o with
  | ok a o' =>
    rw [hx] at m
    obtain ⟨n, t, hr, hq⟩ := m
    exact (h a o' t hq).reaches hr
  | error e o' =>
    rw [hx] at m
    cases e <;> exact m

/-- The same for computations that change the frame of a function. -/
theorem bindRun {x : Reference.Run α} {f : α → Reference.Run β} {fr : Reference.Frame}
    {Q : α × Reference.Frame → String → State → Prop} {R : β × Reference.Frame → String → State → Prop}
    (m : Meets p rounds s (x fr o) Q) (h : ∀ a fr o t, Q (a, fr) o t → Meets p rounds t (f a fr o) R) :
    Meets p rounds s ((x >>= f) fr o) R :=
  bind m fun ⟨a, fr⟩ o t hq => h a fr o t hq

end Meets

/-- Code of a method in an activation with the given callers. -/
structure Site where
  method : Method
  index : Label → Nat
  callers : List Pending

namespace Site

/-- The state in front of the instruction at an index. -/
abbrev state (site : Site) (o : String) (k : Nat) (L : List Tree) (S : List Operand) (n : Nat) : State :=
  ⟨o, k, ⟨site.method, L, S, n⟩, site.callers⟩

/-- The code stands in the method from an index on. -/
abbrev Has (site : Site) (n : Nat) (c : Code) : Prop := Machine.Placed site.index site.method.code n c

variable {α : Type} {p : Program} {rounds n m k k' : Nat} {o o' : String} {L L' : List Tree} {S S' : List Operand}
  {site : Site} {i : Instr} {e e' : Fault} {r : EStateM.Result Eval.Stop String α} {Q : α → String → State → Prop}

theorem Has.append {c c' : Code} (h : site.Has n (c ++ c')) : site.Has n c ∧ site.Has (n + Machine.realCount c) c' :=
  Machine.placed_append.mp h

/-- An instruction that is no branch stands behind some code. -/
theorem Has.last {c : Code} (h : site.Has n (c ++ [i])) (hm : i.isMark = false) (hd : i.dest? = none) :
    site.Has n c ∧ site.method.code[n + Machine.realCount c]? = some i := by
  obtain ⟨hc, hi⟩ := h.append
  obtain ⟨hi, -⟩ := (Machine.placed_cons hm).mp hi
  exact ⟨hc, by simpa [Machine.retarget, hd] using hi⟩

theorem instr?_eq {f : Method} (hi : f.code[n]? = some i) : (⟨f, L, S, (n : Int)⟩ : OnTrees.Frame).instr? = some i := by
  simp [OnTrees.Frame.instr?, hi]

theorem act (hi : site.method.code[n]? = some i) (ha : Act site.method.name i ⟨L, S, k, o⟩ ⟨L', S', k', o'⟩)
    (h : Meets p rounds (site.state o' k' L' S' (n + 1)) r Q) : Meets p rounds (site.state o k L S n) r Q :=
  h.step (.act (instr?_eq hi) ha)

theorem jump (hi : site.method.code[n]? = some i) (hj : Jump i S (some (Dest.toIndex m)) S')
    (h : Meets p rounds (site.state o k L S' m) r Q) : Meets p rounds (site.state o k L S n) r Q :=
  h.step (.jump (instr?_eq hi) hj)

/-- A branch that is not taken. -/
theorem fall (hi : site.method.code[n]? = some i) (hj : Jump i S none S')
    (h : Meets p rounds (site.state o k L S' (n + 1)) r Q) : Meets p rounds (site.state o k L S n) r Q :=
  h.step (.jump (instr?_eq hi) hj)

theorem fails (hi : site.method.code[n]? = some i) (hf : Fails site.method.name i ⟨L, S, k, o⟩ e') (he : Alike e e') :
    Meets p rounds (site.state o k L S n) (.error (.fault e) o) Q :=
  .fault (.fails (instr?_eq hi) hf) he

end Site

/-- The stack with the value of an expression on it; there is none of type void. -/
def pushed (ty : Machine.Ty) (t : Tree) (S : List Operand) : List Operand := if ty.isVoid then S else own t :: S

theorem pushed_eq {ty : Machine.Ty} (h : ty.isVoid = false) (t : Tree) (S : List Operand) :
    pushed ty t S = own t :: S := by
  simp [pushed, h]

/-- A result of a type is on the stack, in front of the instruction at an index. -/
def Yields (site : Site) (L : List Tree) (S : List Operand) (n : Nat) (ty : Machine.Ty) (t : Tree) (o : String)
    (s : State) : Prop :=
  HasTy t ty ∧ ∃ k, s = site.state o k L (pushed ty t S) n

end WhileStack.Simulation
