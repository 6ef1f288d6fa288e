import WhileStack.Proofs.Simulation.Call
import WhileStack.Proofs.Simulation.Zero
import WhileStack.Proofs.Tree.Lockstep

/-! Runs of compiled programs. The machine starts with the entry point on zero values, and each of its steps is one of
the machine over trees. -/
namespace WhileStack.Simulation
open Source (FunDecl)
open Machine (Program Method Signature Ty)
open Lower (Env Implements Compiled)
open OnTrees (State Step Agrees activate)

section
variable {p : Program} {program : Source.Program} {env : Env} {f : FunDecl} {sig : Signature} {m : Method}

private theorem finish_of_return {t : Tree} {o : String} {s : State} (h : AtReturn m [] t o s) :
    Step p s (.finished o) := by
  obtain ⟨-, k, L, n, hi, rfl⟩ := h
  refine .finish (Site.instr?_eq hi) ?_
  unfold pushed Ty.width
  split <;> simp

/-- The entry point is run from its start, with the argument vector in front of zero values. -/
theorem entry_meets (hc : Compiled env program p) (hf : program.entry? = some f) (hm : p.entry? = some m)
    (hsig : Lower.signatureOf env f = .ok sig) (hi : Implements env f sig m) (argv : List String) :
    ∃ s t, Machine.start p argv = .ok s ∧ s.steps = 0 ∧ Agrees s t ∧ ∀ rounds,
      Meets p rounds t (Reference.runEntry .lowered program rounds "") fun _ o t => Step p t (.finished o) := by
  obtain ⟨types, htypes, -, hparams, hstatic, -⟩ := Lower.signatureOf_eq_ok hsig
  have hentry : f.isEntry = true := List.find?_some hf
  rw [hentry] at hparams hstatic
  have hvalues : ∀ t ∈ types, t.isValue = true := fun t ht => by
    obtain ⟨q, -, hq⟩ := Machine.exists_of_forall₂ htypes.flip ht
    exact Lower.valueLayout_isValue hq
  obtain ⟨vs, h, hz, hext, hfresh⟩ := zeros_fresh Heap.empty hvalues
  have hdrop : sig.params.drop (sig.params.length - f.params.length) = types := by simp [hparams, htypes.length_eq]
  have hargs : List.Forall₂ HasTy (types.map zeroTree) (sig.params.drop (sig.params.length - f.params.length)) := by
    rw [hdrop]
    exact List.forall₂_map_left_iff.mpr (List.forall₂_same.mpr fun t ht => zeroTree_hasTy (hvalues t ht))
  have hcalls : ∀ rounds, Calls p rounds 0 env program (Reference.call .lowered program rounds 999) :=
    fun _ => call_meets hc 999 0 rfl
  have hbody := fun rounds =>
    body_meets [] (.leaf (.array argv)) hc hi hsig (hcalls rounds) hargs (by simp [hstatic]) "" 0
  have hlt := (hbody 0).1
  have hlen := hfresh.length_eq
  refine ⟨⟨⟨h, ""⟩, 0, Machine.activate m (.array argv :: vs), []⟩,
    ⟨"", 0, activate m (.leaf (.array argv) :: types.map zeroTree), []⟩, ?_, rfl, ⟨rfl, rfl, ?_, .nil⟩, fun rounds => ?_⟩
  · have hp : m.sig.params = .array .string :: types := by simp [hi.sig_eq, hparams, Ty.args]
    have hfit : ¬ m.maxLocals < vs.length + 1 := by omega
    simp [Machine.start, hm, hp, hz, Machine.enter, maxCallDepth, hfit, bind, Except.bind]
  · have hbase : OnTrees.Matches ⟨h, ""⟩ [] [] ⟨[], [], 0, ""⟩
        ((.array argv :: vs).zip (.leaf (.array argv) :: types.map zeroTree) ++ []) := by
      refine ⟨rfl, hext.objects_eq, ⟨rfl, .nil⟩, ?_⟩
      rw [List.append_nil]
      exact hfresh.owned.leaf rfl
    exact OnTrees.activated hbase (by simp [hlen]) m
  · simp only [Reference.runEntry, hf]
    rw [Exec.bind_apply, zeroParams_of_layouts (hc.aliases_eq ▸ htypes)]
    exact (hbody rounds).2.bind fun t o s hs => .ok (finish_of_return hs)

end

/-- The machine over trees takes some steps or comes to an end before. -/
inductive Lasts (p : Program) : Nat → State → Prop where
  | zero {t} : Lasts p 0 t
  | finished {n t o} : Step p t (.finished o) → Lasts p n t
  | fault {n t o e} : Step p t (.fault o e) → Lasts p n t
  | step {n t u} : Step p t (.running u) → Lasts p n u → Lasts p (n + 1) t

section
variable {p : Program} {m n : Nat} {s : Machine.State} {t u : State}

private theorem Lasts.of_reaches (h : Reaches p m t u) (hl : Lasts p n u) : Lasts p (m + n) t := by
  induction h with
  | refl => rwa [Nat.zero_add]
  | @step m _ _ _ hs _ ih =>
    rw [Nat.add_right_comm]
    exact .step hs (ih hl)

private theorem Lasts.le (hl : Lasts p n t) (h : m ≤ n) : Lasts p m t := by
  induction hl generalizing m with
  | zero =>
    rw [Nat.le_zero.mp h]
    exact .zero
  | finished hs => exact .finished hs
  | fault hs => exact .fault hs
  | step hs _ ih =>
    cases m with
    | zero => exact .zero
    | succ m => exact .step hs (ih (Nat.le_of_succ_le_succ h))

/-- A run that follows a computation to its end never gets stuck. -/
theorem Meets.lasts {r : EStateM.Result Eval.Stop String Unit}
    (h : Meets p n t r fun _ o t => Step p t (.finished o)) : Lasts p n t := by
  unfold Meets at h
  split at h
  · obtain ⟨m, u, hr, hs⟩ := h
    exact (Lasts.of_reaches hr (.finished (n := n) hs)).le (Nat.le_add_left n m)
  · obtain ⟨m, u, e', hr, hs, -⟩ := h
    exact (Lasts.of_reaches hr (.fault (n := n) hs)).le (Nat.le_add_left n m)
  · obtain ⟨m, u, hr, hm⟩ := h
    exact (Lasts.of_reaches hr .zero).le hm
  · exact h.elim

/-- A machine that agrees with one that lasts ends with success or a fault, or goes on and still does. -/
theorem Lasts.next (hl : Lasts p (n + 1) t) (a : Agrees s t) :
    (∃ st, Machine.step p s = .finished st (s.steps + 1)) ∨
      (∃ st e, Machine.step p s = .stopped st (s.steps + 1) (.fault e)) ∨
      ∃ s' u, Machine.step p s = .running s' ∧ Agrees s' u ∧ Lasts p n u := by
  cases hl with
  | finished hs =>
    obtain ⟨st, hstep, -⟩ := OnTrees.lockstep a hs
    exact .inl ⟨st, hstep⟩
  | fault hs =>
    obtain ⟨st, hstep, -⟩ := OnTrees.lockstep a hs
    exact .inr (.inl ⟨st, _, hstep⟩)
  | step hs hl =>
    obtain ⟨s', hstep, -, a'⟩ := OnTrees.lockstep a hs
    exact .inr (.inr ⟨s', _, hstep, a', hl⟩)

end

/-- The states that a machine comes to from its start. -/
inductive Reachable (p : Program) (argv : List String) : Machine.State → Prop where
  | start {s} : Machine.start p argv = .ok s → Reachable p argv s
  | step {s s'} : Reachable p argv s → Machine.step p s = .running s' → Reachable p argv s'

section
variable {o : Lower.Options} {program : Source.Program} {p : Program} {f : FunDecl}

/-- A compiled program starts, and follows its entry point. -/
theorem compiled_meets (hc : Lower.compile o program = .ok p) (hf : program.entry? = some f) (argv : List String) :
    ∃ s t, Machine.start p argv = .ok s ∧ s.steps = 0 ∧ Agrees s t ∧ ∀ rounds,
      Meets p rounds t (Reference.runEntry .lowered program rounds "") fun _ o t => Step p t (.finished o) := by
  obtain ⟨env, -, hc⟩ := Lower.compile_eq_ok hc
  rcases hc.entry with ⟨hn, -⟩ | ⟨g, m, sig, hg, hm, hsig, hi⟩
  · rw [hf] at hn
    cases hn
  · exact entry_meets hc hg hm hsig hi argv

theorem compiled_lasts (hc : Lower.compile o program = .ok p) (hf : program.entry? = some f) (argv : List String) :
    ∃ s t, Machine.start p argv = .ok s ∧ Agrees s t ∧ ∀ n, Lasts p n t := by
  obtain ⟨s, t, hs, -, a, hm⟩ := compiled_meets hc hf argv
  exact ⟨s, t, hs, a, fun n => (hm n).lasts⟩

/-- Every state of a run agrees with one over trees, which goes on for as long as is asked. -/
theorem Reachable.agrees {argv : List String} {s : Machine.State} (h : Reachable p argv s)
    (hc : Lower.compile o program = .ok p) (n : Nat) : ∃ t, Agrees s t ∧ Lasts p n t := by
  induction h generalizing n with
  | @start s hs =>
    obtain ⟨env, -, hc'⟩ := Lower.compile_eq_ok hc
    rcases hc'.entry with ⟨-, hn⟩ | ⟨f, -, -, hf, -, -, -⟩
    · simp [Machine.start, hn] at hs
    · obtain ⟨s', t, hs', a, hl⟩ := compiled_lasts hc hf argv
      cases hs.symm.trans hs'
      exact ⟨t, a, hl n⟩
  | step _ hstep ih =>
    obtain ⟨t, a, hl⟩ := ih (n + 1)
    rcases hl.next a with ⟨st, hs⟩ | ⟨st, e, hs⟩ | ⟨s', u, hs, a', hl'⟩
    · cases hs.symm.trans hstep
    · cases hs.symm.trans hstep
    · cases hs.symm.trans hstep
      exact ⟨u, a', hl'⟩

end
end WhileStack.Simulation
