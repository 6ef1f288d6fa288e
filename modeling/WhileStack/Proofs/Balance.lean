import WhileStack.Proofs.Machine.Natural
import WhileStack.Proofs.Machine.Perform
import WhileStack.Proofs.Simulation.Run

/-! Programs whose code passes the check of the stack run with balanced stacks: at every instruction of every run the
stack has the depth that the check found there, and no run is stopped for its counter, its depth or a label. -/
namespace WhileStack
open Machine
open Simulation (Reachable)

/-- A frame in front of an instruction, with the depth that was found there and nothing below the result of a return. -/
structure Machine.Frame.Balanced (f : Frame) (d : DepthState) (n : Nat) (i : Instr) : Prop where
  pc_eq : f.pc = n
  instr_eq : f.method.code[n]? = some i
  depth_eq : d.at? n = some (f.stack.length : Int)
  le : f.stack.length ≤ d.greatest
  result : ∀ ty, i = .ret ty → f.stack.length = ty.width

/-- A frame behind a call that has not come back: with the result it will have the depth that was found there. -/
structure Machine.Pending.Balanced (c : Pending) (d : DepthState) (n : Nat) : Prop where
  pc_eq : c.frame.pc = (n + 1 : Nat)
  call_eq : c.frame.method.code[n]? = some (.call c.sig)
  next_lt : n + 1 < c.frame.method.code.size
  depth_eq : d.at? (n + 1) = some ((c.frame.stack.length + c.sig.ret.width : Nat) : Int)
  le : c.frame.stack.length + c.sig.ret.width ≤ d.greatest

/-- The depth of a frame's stack was found at its counter. -/
private def Sits (f : Frame) : Prop :=
  Counted f.method.code ∧ ∃ d, depths f.method.code = .ok d ∧
    ∃ n : Nat, f.pc = n ∧ d.at? n = some (f.stack.length : Int)

private def Waits (c : Pending) : Prop :=
  Counted c.frame.method.code ∧ ∃ d, depths c.frame.method.code = .ok d ∧ ∃ n : Nat, c.frame.pc = (n + 1 : Nat) ∧
    c.frame.method.code[n]? = some (.call c.sig) ∧
    d.at? (n + 1) = some ((c.frame.stack.length + c.sig.ret.width : Nat) : Int)

/-- What holds of every state of a run. -/
private structure Level (s : State) : Prop where
  sits : Sits s.frame
  waits : ∀ c ∈ s.callers, Waits c

section
variable {p : Program}

private theorem Sits.balanced {f : Frame} (h : Sits f) :
    ∃ d n i, depths f.method.code = .ok d ∧ maxDepth f.method.code = .ok d.greatest ∧ f.Balanced d n i := by
  obtain ⟨hc, d, hd, n, hpc, hat⟩ := h
  obtain ⟨i, hi⟩ := hc.passes hd hat
  refine ⟨d, n, i, hd, by simp [maxDepth, hd, Except.map], hpc, hi.found, hat, hi.le, fun ty h => ?_⟩
  subst h
  exact hi.leaves rfl

private theorem Waits.balanced {c : Pending} (h : Waits c) :
    ∃ d n, depths c.frame.method.code = .ok d ∧ maxDepth c.frame.method.code = .ok d.greatest ∧ c.Balanced d n := by
  obtain ⟨hc, d, hd, n, hpc, hcall, hat⟩ := h
  obtain ⟨i, hi⟩ := hc.passes hd hat
  obtain ⟨hlt, -⟩ := Array.getElem?_eq_some_iff.mp hi.found
  exact ⟨d, n, hd, by simp [maxDepth, hd, Except.map], hpc, hcall, hlt, hat, hi.le⟩

/-- A frame or state of one kind, or a failure that is not one of control. -/
private def Calm {α : Type} (r : Except Machine.Stop α) (Q : α → Prop) : Prop :=
  match r with
  | .ok a => Q a
  | .error e => e.isControl = false

/-- What a step of the machine may come to. -/
private def Goes (next : Next) : Prop :=
  match next with
  | .running s => Level s
  | .finished _ _ => True
  | .stopped _ _ why => why.isControl = false

private theorem giveBack_goes {callers : List Pending} (h : ∀ c ∈ callers, Waits c) (v : Value) (st : Store) (k : Nat) :
    Goes (giveBack v st k callers) := by
  cases callers with
  | nil => trivial
  | cons c rest =>
    obtain ⟨f, sig⟩ := c
    obtain ⟨hc, d, hd, n, hpc, -, hat⟩ := h ⟨f, sig⟩ (List.mem_cons_self ..)
    have hrest : ∀ c ∈ rest, Waits c := fun c hc => h c (List.mem_cons_of_mem _ hc)
    dsimp only at hc hd hpc hat
    simp only [giveBack]
    by_cases hv : sig.ret.isVoid = true
    · rw [if_pos hv]
      simp only [Ty.width, hv, if_true, Nat.add_zero] at hat
      exact ⟨⟨hc, d, hd, n + 1, hpc, hat⟩, hrest⟩
    · rw [if_neg hv]
      simp only [Ty.width, hv] at hat
      split
      · rfl
      · exact ⟨⟨hc, d, hd, n + 1, hpc, hat⟩, hrest⟩

variable (hp : ∀ m ∈ p.methods, ∃ g, maxDepth m.code = .ok g) (hn : ∀ m ∈ p.methods, Counted m.code)
include hp hn

private theorem activate_sits {m : Method} (hm : m ∈ p.methods) (args : List Value) : Sits (activate m args) := by
  obtain ⟨g, hg⟩ := hp m hm
  cases hd : depths m.code with
  | error e => simp [maxDepth, hd, Except.map] at hg
  | ok d => exact ⟨hn m hm, d, hd, 0, rfl, at?_zero hd⟩

private theorem enter_sits {m : Method} (hm : m ∈ p.methods) (args : List Value) (depth : Nat) :
    Calm (enter m args depth) Sits := by
  unfold enter
  split
  · rfl
  split
  · rfl
  · exact activate_sits hp hn hm args

private theorem invoke_sits (f : Frame) (sig : Signature) (operands : List Value) (depth : Nat) (h : Heap) :
    Calm (invoke p f sig operands depth h) Sits := by
  unfold invoke
  split
  · rfl
  · rename_i m _ _ _ hm
    exact enter_sits hp hn (List.mem_of_find?_eq_some hm) _ _
  · rfl

private theorem step_goes {s : State} (hs : Level s) : Goes (step p s) := by
  obtain ⟨st, k, f, callers⟩ := s
  obtain ⟨⟨hc, d, hd, n, hpc, hat⟩, hw⟩ := hs
  dsimp only at hc hd hpc hat hw
  obtain ⟨i, hi⟩ := hc.passes hd hat
  have hpops := hi.enough
  have hinstr : f.instrAt? f.pc = some i := by simp [Frame.instrAt?, hpc, hi.found]
  by_cases hs : i.stays = true
  · rw [step_performs hinstr hpops hs]
    have hperform := perform_steady (f.past i) (f.stack.take i.pops).reverse hi.real hs st
    split
    · rename_i g st' hg
      rw [hg] at hperform
      have hlen : g.stack.length = i.depthAfter f.stack.length := by
        rw [hperform.length_eq, Frame.past_stack, List.length_drop, Instr.depthAfter]
      refine ⟨⟨hperform.method_eq ▸ hc, d, hperform.method_eq ▸ hd, ?_⟩, hw⟩
      rcases hperform.pc_eq with ⟨hg, hf⟩ | ⟨dest, hdest, hg⟩
      · exact ⟨n + 1, by simp [hg, hpc], hlen ▸ hi.next hf⟩
      · obtain ⟨t, ht, ha⟩ := hi.branch dest hdest
        exact ⟨t, hg.trans ht, hlen ▸ ha⟩
    · rename_i e st' he
      rw [he] at hperform
      exact hperform
  · cases i with
    | ret ty =>
      rw [step_returns hinstr hpops]
      exact giveBack_goes hw _ _ _
    | unreachable =>
      rw [step_unreachable hinstr]
      rfl
    | call sig =>
      rw [step_calls hinstr hpops]
      have hcall := invoke_sits hp hn (f.past (.call sig)) sig (f.stack.take (Instr.call sig).pops).reverse
        (callers.length + 1) st.heap
      split
      · rename_i g hg
        rw [hg] at hcall
        refine ⟨hcall, fun c hmem => ?_⟩
        rcases List.mem_cons.mp hmem with rfl | hmem
        · refine ⟨hc, d, hd, n, by simp [hpc], hi.found, ?_⟩
          rw [hi.next rfl, Frame.past_stack, List.length_drop]
          rfl
        · exact hw c hmem
      · rename_i e he
        rw [he] at hcall
        exact hcall
    | _ => exact absurd rfl hs

private theorem start_level (argv : List String) : Calm (start p argv) Level := by
  unfold start
  split
  · rfl
  rename_i m hm
  split
  · split
    · rfl
    rename_i vs h _
    have he := enter_sits hp hn (List.mem_of_find?_eq_some hm) (.array argv :: vs) 0
    cases hf : enter m (.array argv :: vs) 0 with
    | error e =>
      rw [hf] at he
      exact he
    | ok f =>
      rw [hf] at he
      exact ⟨he, fun c hc => by simp at hc⟩
  · rfl

private theorem reachable_level {argv : List String} {s : State} (h : Reachable p argv s) : Level s := by
  induction h with
  | @start s hs =>
    have := start_level hp hn argv
    rw [hs] at this
    exact this
  | @step s s' _ hstep ih =>
    have := step_goes hp hn ih
    rw [hstep] at this
    exact this

private theorem runFrom_isControl {s : State} (hs : Level s) (budget : Nat) {out : Outcome} {why : Machine.Stop}
    (h : runFrom p budget s = some out) (hw : out.stop = some why) : why.isControl = false := by
  induction budget generalizing s with
  | zero => cases h
  | succ budget ih =>
    have hn := step_goes hp hn hs
    rw [runFrom] at h
    cases hstep : step p s with
    | running s' =>
      rw [hstep] at hn h
      exact ih hn h
    | finished st k =>
      rw [hstep] at h
      cases h
      cases hw
    | stopped st k e =>
      rw [hstep] at hn h
      cases h
      cases hw
      exact hn

/-- In every state of a run of a program whose methods all pass the check, with no list of a negative length in them, all
active frames are balanced, and no such run is stopped for a counter outside the code, for missing operands or for a
label. -/
theorem accepted_code_balanced (argv : List String) :
    (∀ s, Reachable p argv s →
      (∃ d n i, depths s.frame.method.code = .ok d ∧ maxDepth s.frame.method.code = .ok d.greatest ∧
        s.frame.Balanced d n i) ∧
      ∀ c ∈ s.callers, ∃ d n, depths c.frame.method.code = .ok d ∧
        maxDepth c.frame.method.code = .ok d.greatest ∧ c.Balanced d n) ∧
    ∀ budget out, Machine.run p budget argv = some out → ∀ why, out.stop = some why → why.isControl = false := by
  refine ⟨fun s hs => ?_, fun budget out hr why hw => ?_⟩
  · have hl := reachable_level hp hn hs
    exact ⟨hl.sits.balanced, fun c hc => (hl.waits c hc).balanced⟩
  · have hst := start_level hp hn argv
    unfold Machine.run at hr
    split at hr
    · rename_i s hs
      rw [hs] at hst
      exact runFrom_isControl hp hn hst budget hr hw
    · rename_i e he
      rw [he] at hst
      cases hr
      cases hw
      exact hst

end

/-- Prints what a method of its own returns. -/
private def caller : Program :=
  let sig : Signature := ⟨"one", [], .int, false⟩
  ⟨"Caller", .ofParts 49 0 0,
    [⟨"main", ⟨"main", [.args], .void, true⟩, true,
        #[.new (.object "Caller"), .call sig, .print .int, .ret .void], [], 1, 1⟩,
     ⟨"one", sig, false, #[.ldc (.int 1), .ret .int], [], 1, 1⟩]⟩

/-- Inside the call both frames are balanced. -/
theorem caller_balanced : (∀ m ∈ caller.methods, ∃ g, maxDepth m.code = .ok g) ∧
    (∀ m ∈ caller.methods, Counted m.code) ∧
    ∃ s c, Reachable caller [] s ∧ s.callers = [c] ∧ s.frame.stack.length = 1 ∧
      (∃ d n i, depths s.frame.method.code = .ok d ∧ s.frame.Balanced d n i) ∧
      (∃ d n, depths c.frame.method.code = .ok d ∧ c.Balanced d n) ∧
      ∀ out, Machine.run caller 10 [] = some out → ∀ why, out.stop = some why → why.isControl = false := by
  have hp : ∀ m ∈ caller.methods, ∃ g, maxDepth m.code = .ok g := by
    intro m hm
    simp only [caller, List.mem_cons, List.not_mem_nil, or_false] at hm
    rcases hm with rfl | rfl <;> exact ⟨1, rfl⟩
  have hn : ∀ m ∈ caller.methods, Counted m.code := by decide
  have hs : ∃ s c, Reachable caller [] s ∧ s.callers = [c] ∧ s.frame.stack.length = 1 :=
    ⟨_, _, .step (.step (.step (.start rfl) rfl) rfl) rfl, rfl, rfl⟩
  obtain ⟨s, c, hs, hc, hl⟩ := hs
  obtain ⟨hb, hr⟩ := accepted_code_balanced hp hn []
  obtain ⟨⟨d, n, i, hd, -, hf⟩, hw⟩ := hb s hs
  obtain ⟨d', n', hd', -, hc'⟩ := hw c (by simp [hc])
  exact ⟨hp, hn, s, c, hs, hc, hl, ⟨d, n, i, hd, hf⟩, ⟨d', n', hd', hc'⟩, hr 10⟩

end WhileStack
