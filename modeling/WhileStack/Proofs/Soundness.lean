import WhileStack.Proofs.Simulation.Run

/-! Runs of compiled programs end in success or in a fault of the program. The machine meets no instruction that it
cannot go on with. -/
namespace WhileStack
open Simulation (Lasts compiled_lasts)
open OnTrees (Agrees)

variable {p : Machine.Program} {s : Machine.State} {t : OnTrees.State}

private theorem runFrom_stop {n : Nat} {out : Machine.Outcome} (hl : Lasts p n t) (a : Agrees s t)
    (h : Machine.runFrom p n s = some out) : out.stop = none ∨ ∃ e, out.stop = some (.fault e) := by
  induction n generalizing s t with
  | zero => cases h
  | succ n ih =>
    simp only [Machine.runFrom] at h
    rcases hl.next a with ⟨st, hs⟩ | ⟨st, e, hs⟩ | ⟨s', u, hs, a', hl'⟩
    · rw [hs] at h
      cases h
      exact .inl rfl
    · rw [hs] at h
      cases h
      exact .inr ⟨e, rfl⟩
    · rw [hs] at h
      exact ih hl' a' h

/-- No run of a compiled program with an entry point is stopped by its code. -/
theorem compiled_stops_by_fault {o : Lower.Options} {program : Source.Program} {f : Source.FunDecl}
    (hc : Lower.compile o program = .ok p) (hf : program.entry? = some f) (argv : List String) (budget : Nat)
    {out : Machine.Outcome} (hr : Machine.run p budget argv = some out) :
    out.stop = none ∨ ∃ e, out.stop = some (.fault e) := by
  obtain ⟨s, t, hs, a, hl⟩ := compiled_lasts hc hf argv
  rw [Machine.run, hs] at hr
  exact runFrom_stop (hl budget) a hr

/-- Prints one over a variable that holds zero. -/
private def quotient : Source.Program :=
  let number (n : Int) : Source.Expr := .const ⟨.int, .unknown⟩ (.int n)
  ⟨[.fn ⟨.unknown, "main", [], .void,
    [.decl ⟨.unknown, .int, "x", some (number 0)⟩,
     .print .unknown (.binary ⟨.int, .unknown⟩ .div (number 1) (.var ⟨.int, .unknown⟩ "x"))], true⟩]⟩

theorem quotient_stops_by_fault : ∃ p f out, Lower.compile (.standard "Q") quotient = .ok p ∧
    quotient.entry? = some f ∧ Machine.run p 100 [] = some out ∧ out.stop.isSome ∧
    (out.stop = none ∨ ∃ e, out.stop = some (.fault e)) := by
  have h : ∃ p f out, Lower.compile (.standard "Q") quotient = .ok p ∧ quotient.entry? = some f ∧
      Machine.run p 100 [] = some out ∧ out.stop.isSome := ⟨_, _, _, rfl, rfl, rfl, rfl⟩
  obtain ⟨p, f, out, hp, hf, hr, hs⟩ := h
  exact ⟨p, f, out, hp, hf, hr, hs, compiled_stops_by_fault hp hf [] 100 hr⟩

end WhileStack
