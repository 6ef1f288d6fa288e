import WhileStack.Proofs.Eval.Rounds
import WhileStack.Proofs.Evaluation.Run
import WhileStack.Proofs.Simulation.Run
import WhileStack.Proofs.Source.Decoded

/-! Evaluation of a program and the run of its compiled code. Evaluation is told how many rounds a loop may take and the
machine how many steps; both end if some number is enough, and then they end alike. -/
namespace WhileStack
open Simulation (Reaches Meets Alike)
open OnTrees (State Step Agrees)

/-- Evaluation ends, with no loop cut short. -/
def Eval.Ends (p : Source.Program) (out : Outcome) : Prop :=
  ∃ rounds, run p rounds = out ∧ out.stop ≠ some .outOfBudget

theorem Eval.Ends.unique {p : Source.Program} {out out' : Outcome} (h : Ends p out) (h' : Ends p out') :
    out = out' := by
  obtain ⟨m, rfl, hm⟩ := h
  obtain ⟨n, rfl, hn⟩ := h'
  rw [← run_mono (Nat.le_max_left m n) hm, ← run_mono (Nat.le_max_right m n) hn]

namespace Machine

/-- The machine ends. -/
def Ends (p : Program) (argv : List String) (out : Outcome) : Prop := ∃ budget, run p budget argv = some out

variable {p : Program} {argv : List String} {out out' : Outcome}

/-- More steps than are needed make no difference. -/
private theorem runFrom_mono {m n : Nat} {s : State} (h : runFrom p m s = some out) (hn : m ≤ n) :
    runFrom p n s = some out := by
  induction m generalizing n s with
  | zero => cases h
  | succ m ih =>
    obtain ⟨n, rfl⟩ := Nat.exists_eq_add_of_le' (Nat.le_trans (Nat.succ_pos m) hn)
    rw [runFrom] at h ⊢
    split at h
    · exact ih h (Nat.le_of_succ_le_succ hn)
    · exact h
    · exact h

private theorem run_mono {m n : Nat} (h : run p m argv = some out) (hn : m ≤ n) : run p n argv = some out := by
  unfold run at h ⊢
  split at h
  · exact runFrom_mono h hn
  · exact h

theorem Ends.unique (h : Ends p argv out) (h' : Ends p argv out') : out = out' := by
  obtain ⟨m, h⟩ := h
  obtain ⟨n, h'⟩ := h'
  have := (run_mono h (Nat.le_max_left m n)).symm.trans (run_mono h' (Nat.le_max_right m n))
  exact Option.some.inj this

end Machine

/-- Both finish, end in alike faults, or have nothing to run. -/
inductive SameEnd : Option Eval.Stop → Option Machine.Stop → Prop
  | finished : SameEnd none none
  | fault {e e'} : Alike e e' → SameEnd (some (.fault e)) (some (.fault e'))
  | noEntry : SameEnd (some .noEntry) (some .noEntry)

section
variable {p : Machine.Program} {program : Source.Program} {s : Machine.State} {t u : State} {n rounds : Nat}

/-- A machine that agrees with one over trees goes as many steps without an end. -/
private theorem runFrom_of_reaches (h : Reaches p n t u) (a : Agrees s t) :
    ∃ s', Agrees s' u ∧ (∀ budget, Machine.runFrom p (budget + n) s = Machine.runFrom p budget s') ∧
      ∀ budget, budget ≤ n → Machine.runFrom p budget s = none := by
  induction h generalizing s with
  | refl =>
    refine ⟨s, a, fun _ => rfl, fun budget hb => ?_⟩
    rw [Nat.le_zero.mp hb]
    rfl
  | @step n _ _ _ hs _ ih =>
    obtain ⟨s₁, hstep, -, a₁⟩ := OnTrees.lockstep a hs
    obtain ⟨s', a', hmore, hnone⟩ := ih a₁
    refine ⟨s', a', fun budget => ?_, fun budget hb => ?_⟩
    · rw [← Nat.add_assoc, Machine.runFrom, hstep]
      exact hmore budget
    · cases budget with
      | zero => rfl
      | succ budget =>
        rw [Machine.runFrom, hstep]
        exact hnone budget (Nat.le_of_succ_le_succ hb)

/-- An outcome that loops were cut short in is one that the machine has not come to by then; any other is one that it
comes to. -/
private def Matched (p : Machine.Program) (argv : List String) (rounds : Nat) (a : Eval.Outcome) : Prop :=
  (a.stop = some .outOfBudget ∧ ∀ budget, budget ≤ rounds → Machine.run p budget argv = none) ∨
    (a.stop ≠ some .outOfBudget ∧ ∃ b, Machine.Ends p argv b ∧ a.out = b.out ∧ SameEnd a.stop b.stop)

private theorem matched_of_meets {argv : List String} {r : EStateM.Result Eval.Stop String Unit}
    (hs : Machine.start p argv = .ok s) (a : Agrees s t) (h : Meets p rounds t r fun _ o t => Step p t (.finished o)) :
    Matched p argv rounds (Reference.outcome r) := by
  have hrun : ∀ budget, Machine.run p budget argv = Machine.runFrom p budget s := fun budget => by
    rw [Machine.run, hs]
  unfold Meets at h
  split at h
  · obtain ⟨n, u, hr, hlast⟩ := h
    obtain ⟨s', a', hmore, -⟩ := runFrom_of_reaches hr a
    obtain ⟨st, hstep, ho⟩ := OnTrees.lockstep a' hlast
    refine .inr ⟨by simp [Reference.outcome], ⟨st.out, s'.steps + 1, none⟩, ⟨1 + n, ?_⟩, ho.symm, .finished⟩
    rw [hrun, hmore, Machine.runFrom, hstep]
  · obtain ⟨n, u, e', hr, hlast, he⟩ := h
    obtain ⟨s', a', hmore, -⟩ := runFrom_of_reaches hr a
    obtain ⟨st, hstep, ho⟩ := OnTrees.lockstep a' hlast
    refine .inr ⟨by simp [Reference.outcome], ⟨st.out, s'.steps + 1, some (.fault e')⟩, ⟨1 + n, ?_⟩, ho.symm,
      .fault he⟩
    rw [hrun, hmore, Machine.runFrom, hstep]
  · obtain ⟨n, u, hr, hn⟩ := h
    obtain ⟨-, -, -, hnone⟩ := runFrom_of_reaches hr a
    refine .inl ⟨rfl, fun budget hb => ?_⟩
    rw [hrun]
    exact hnone budget (Nat.le_trans hb hn)
  · exact h.elim

private theorem matched {o : Lower.Options} (hc : Lower.compile o program = .ok p) (hp : program.Plain)
    (hd : program.FieldsDistinct) (argv : List String) (rounds : Nat) :
    Matched p argv rounds (Eval.run program rounds) := by
  rw [Evaluation.run_eq_outcome .lowered fun _ => ⟨hp, hd⟩]
  cases hf : program.entry? with
  | some f =>
    obtain ⟨s, t, hs, -, a, hm⟩ := Simulation.compiled_meets hc hf argv
    exact matched_of_meets hs a (hm rounds)
  | none =>
    obtain ⟨env, -, hc⟩ := Lower.compile_eq_ok hc
    have hentry : p.entry? = none := by
      rcases hc.entry with ⟨-, hn⟩ | ⟨f, -, -, hf', -⟩
      · exact hn
      · rw [hf] at hf'
        cases hf'
    have hr : Reference.runEntry .lowered program rounds "" = .error .noEntry "" := by
      unfold Reference.runEntry
      rw [hf]
      rfl
    rw [hr]
    refine .inr ⟨by simp [Reference.outcome], ⟨"", 0, some .noEntry⟩, ⟨0, ?_⟩, rfl, .noEntry⟩
    simp [Machine.run, Machine.start, hentry]

end

/-- The compiled code of a plain program whose record types have distinct fields, as those of every program that is read,
ends if and only if evaluation does. It prints the same text, and it finishes, ends in a fault or has no entry point as
evaluation does. -/
theorem compiled_agrees {o : Lower.Options} {program : Source.Program} {p : Machine.Program}
    (hc : Lower.compile o program = .ok p) (hp : program.Plain)
    (hfields : program.FieldsDistinct ∨ ∃ entry text, Source.Program.parse entry text = .ok program)
    (argv : List String) :
    ((∃ a, Eval.Ends program a) ↔ ∃ b, Machine.Ends p argv b) ∧
      ∀ a b, Eval.Ends program a → Machine.Ends p argv b → a.out = b.out ∧ SameEnd a.stop b.stop := by
  have hd : program.FieldsDistinct := by
    rcases hfields with hd | ⟨entry, text, hparse⟩
    · exact hd
    · exact Source.Program.fieldsDistinct_of_parse hparse
  have hends : ∀ a, Eval.Ends program a → ∃ b, Machine.Ends p argv b ∧ a.out = b.out ∧ SameEnd a.stop b.stop := by
    rintro a ⟨rounds, rfl, hstop⟩
    rcases matched hc hp hd argv rounds with ⟨h, -⟩ | ⟨-, h⟩
    · exact absurd h hstop
    · exact h
  refine ⟨⟨?_, ?_⟩, fun a b ha hb => ?_⟩
  · rintro ⟨a, ha⟩
    obtain ⟨b, hb, -⟩ := hends a ha
    exact ⟨b, hb⟩
  · -- A loop that is cut short after that many rounds would have taken more steps.
    rintro ⟨b, budget, hb⟩
    rcases matched hc hp hd argv budget with ⟨-, h⟩ | ⟨h, -⟩
    · rw [h budget (Nat.le_refl budget)] at hb
      cases hb
    · exact ⟨_, budget, rfl, h⟩
  · obtain ⟨b', hb', h⟩ := hends a ha
    rwa [hb.unique hb']

/-- Divides a number by ever smaller ones. -/
private def countdown : Source.Program :=
  let number (n : Int) : Source.Expr := .const ⟨.int, .unknown⟩ (.int n)
  let i : Source.Expr := .var ⟨.int, .unknown⟩ "i"
  ⟨[.fn ⟨.unknown, "share", [("n", .int)], .int,
      [.ret .unknown (some (.binary ⟨.int, .unknown⟩ .div (number 6) (.var ⟨.int, .unknown⟩ "n")))], false⟩,
    .fn ⟨.unknown, "main", [], .void,
      [.forDo .unknown ⟨.unknown, .int, "i", some (number 2)⟩ (.binary ⟨.bool, .unknown⟩ .le (number 0) i)
        (.assign .unknown (.var ⟨.int, .unknown⟩ "i") (.binary ⟨.int, .unknown⟩ .sub i (number 1)))
        [.print .unknown (.call ⟨.int, .unknown⟩ "share" [i])]], true⟩]⟩

/-- Both print two quotients, and there is no third. -/
theorem countdown_agrees : ∃ p, Lower.compile (.standard "Q") countdown = .ok p ∧ countdown.Plain ∧
    countdown.FieldsDistinct ∧ Eval.Ends countdown ⟨"3\n6\n", some (.fault ⟨.divisionByZero, "share", .nothing⟩)⟩ ∧
    ∃ b, Machine.Ends p [] b ∧ b.out = "3\n6\n" ∧
      SameEnd (some (.fault ⟨.divisionByZero, "share", .nothing⟩)) b.stop := by
  obtain ⟨p, hc⟩ : ∃ p, Lower.compile (.standard "Q") countdown = .ok p := Partial.exists_eq_ok (by decide +kernel)
  have hp : countdown.Plain := by
    refine ⟨by decide, ?_⟩
    have hret : ∀ f ∈ countdown.functions, f.ret = .int ∨ f.ret = .void := by decide
    rintro f hf ⟨n, hn, -⟩
    rcases hret f hf with h | h <;> cases h.symm.trans hn
  have ha : Eval.Ends countdown ⟨"3\n6\n", some (.fault ⟨.divisionByZero, "share", .nothing⟩)⟩ :=
    ⟨4, rfl, by simp⟩
  have hd : countdown.FieldsDistinct := by unfold Source.Program.FieldsDistinct; decide
  obtain ⟨hends, hsame⟩ := compiled_agrees hc hp (.inl hd) []
  obtain ⟨b, hb⟩ := hends.mp ⟨_, ha⟩
  obtain ⟨ho, hs⟩ := hsame _ b ha hb
  exact ⟨p, hc, hp, hd, ha, b, hb, ho.symm, hs⟩

/-- Prints a record of a type that names a field twice, and what a cast to its own type makes of it. -/
private def twice : Source.Program :=
  let number (n : Int) : Source.Expr := .const ⟨.int, .unknown⟩ (.int n)
  let t : Source.Ty := .record [("a", .int), ("a", .int)]
  let x : Source.Expr := .var ⟨t, .unknown⟩ "x"
  ⟨[.fn ⟨.unknown, "main", [], .void,
      [.decl ⟨.unknown, t, "x", some (.record ⟨t, .unknown⟩ [("a", number 1)])⟩,
        .assign .unknown (.field ⟨.int, .unknown⟩ x "a") (number 5),
        .print .unknown x,
        .print .unknown (.cast ⟨t, .unknown⟩ x)], true⟩]⟩

/-- Evaluation looks up the fields for a cast by name, and compiled code leaves the record as it is. -/
theorem twice_disagrees : ∃ p, Lower.compile (.standard "Q") twice = .ok p ∧ twice.Plain ∧ ¬ twice.FieldsDistinct ∧
    Eval.Ends twice ⟨"\x7ba:5,a:1\x7d\n\x7ba:5,a:5\x7d\n", none⟩ ∧
    ∃ b, Machine.Ends p [] b ∧ b.out = "\x7ba:5,a:1\x7d\n\x7ba:5,a:1\x7d\n" ∧ b.stop = none := by
  have hp : twice.Plain := by
    refine ⟨by decide, ?_⟩
    have hret : ∀ f ∈ twice.functions, f.ret = .void := by decide
    rintro f hf ⟨n, hn, -⟩
    cases (hret f hf).symm.trans hn
  have hrun : ((Lower.compile (.standard "Q") twice).toOption.bind fun p => Machine.run p 30 []).map
      (fun b => (b.out, b.stop)) = some ("\x7ba:5,a:1\x7d\n\x7ba:5,a:1\x7d\n", none) := by rfl
  cases hc : Lower.compile (.standard "Q") twice with
  | error e =>
    rw [hc] at hrun
    cases hrun
  | ok p =>
    rw [hc] at hrun
    obtain ⟨b, hb, hout⟩ := Option.map_eq_some_iff.mp hrun
    obtain ⟨ho, hs⟩ := Prod.mk.inj hout
    exact ⟨p, rfl, hp, by unfold Source.Program.FieldsDistinct; decide, ⟨1, rfl, by simp⟩, b, ⟨30, hb⟩, ho, hs⟩

end WhileStack
